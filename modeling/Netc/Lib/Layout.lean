/-
# Records laid out in a list

`At l off xs` says that the list `xs` stands in `l` from offset `off` on. A
record made by appending its parts stands somewhere exactly when each part
stands where the parts before it end (`at_append`), and an array of equally
wide elements exactly when each element stands at its multiple of the width
(`at_flatMap_range`). Read from left to right the lemmas say what a reader finds in a
written record, and from right to left that what was read writes the same record.

Key definitions: `At`.
Key theorems: `at_append`, `at_flatMap_range`, `at_leBytes`, `at_leNat`.
-/
import Netc.Lib.Digits

namespace Layout

variable {α : Type} {l xs ys t : List α} {off n w : ℕ}

/-- `xs` stands in `l` from `off` on. -/
def At (l : List α) (off : ℕ) (xs : List α) : Prop := xs <+: l.drop off

theorem at_iff_take : At l off xs ↔ (l.drop off).take xs.length = xs := by
  rw [At, List.prefix_iff_eq_take, eq_comm]

@[simp] theorem at_nil : At l off [] := List.nil_prefix

theorem at_append : At l off (xs ++ ys) ↔ At l off xs ∧ At l (off + xs.length) ys := by
  simp only [At, ← List.drop_drop]
  constructor
  · rintro ⟨t, ht⟩
    rw [← ht, List.append_assoc, List.drop_left]
    exact ⟨List.prefix_append _ _, List.prefix_append _ _⟩
  · rintro ⟨⟨t, ht⟩, h⟩
    rw [← ht, List.drop_left] at h
    rw [← ht]
    exact (List.prefix_append_right_inj xs).mpr h

theorem at_cons {a : α} : At l off (a :: xs) ↔ l[off]? = some a ∧ At l (off + 1) xs := by
  rw [← List.singleton_append, at_append, List.length_singleton, at_iff_take, List.length_singleton,
    List.take_one, List.head?_drop]
  rcases l[off]? with _ | b
  · simp
  · simp

theorem length_flatMap_range {f : ℕ → List α} (hw : ∀ i, (f i).length = w) (n : ℕ) :
    ((List.range n).flatMap f).length = w * n := by
  simp [List.length_flatMap, hw, Nat.mul_comm]

/-- An array stands where each of its elements stands. -/
theorem at_flatMap_range {f : ℕ → List α} (hw : ∀ i, (f i).length = w) :
    ∀ n, At l off ((List.range n).flatMap f) ↔ ∀ i < n, At l (off + w * i) (f i)
  | 0 => by simp
  | n + 1 => by
    rw [List.range_succ, List.flatMap_append, at_append, at_flatMap_range hw n, length_flatMap_range hw,
      List.flatMap_singleton]
    constructor
    · rintro ⟨h, h'⟩ i hi
      rcases Nat.lt_succ_iff_lt_or_eq.mp hi with hi | rfl
      · exact h i hi
      · exact h'
    · intro h
      exact ⟨fun i hi => h i (by omega), h n (by omega)⟩

theorem at_refl (xs : List α) : At xs 0 xs := by rw [At, List.drop_zero]

theorem at_self (xs t : List α) : At (xs ++ t) 0 xs := List.prefix_append xs t

theorem At.take_eq (h : At l 0 xs) : l.take xs.length = xs := by
  simpa using at_iff_take.mp h

/-- The numbers of a record. -/
theorem at_leBytes {l : List UInt8} {v : ℕ} (h : At l off (Digits.leBytes n v)) :
    Digits.leNat ((l.drop off).take n) = v % 256 ^ n := by
  have := at_iff_take.mp h
  rw [Digits.length_leBytes] at this
  rw [this, Digits.leNat_leBytes]

theorem at_leNat {l : List UInt8} (h : off + n ≤ l.length) :
    At l off (Digits.leBytes n (Digits.leNat ((l.drop off).take n))) := by
  have hlen : ((l.drop off).take n).length = n := by
    rw [List.length_take, List.length_drop]
    omega
  rw [at_iff_take, Digits.length_leBytes, Digits.leBytes_leNat hlen]

end Layout
