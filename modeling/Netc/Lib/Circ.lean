/-
# Circular buffers

A buffer of `n` places and the place of the next element; what was appended to it is read
backwards from there. `Circ.Shows` says that the last `n` elements of a history stand in the buffer.
Writing a list of fewer than `n` elements along the circle keeps this (`Shows.append`), and so does
starting over with the last `n` elements of a longer one (`shows_full`).
-/
import Mathlib.Tactic
import Mathlib.Data.List.GetD

namespace Circ

variable {α : Type}

/-- The buffer shows the end of history `H`: `k` places before `pos` stands the `k`th element from the end. -/
def Shows (n : ℕ) (f : ℕ → α) (pos : ℕ) (H : List α) : Prop :=
  ∀ k, 1 ≤ k → k ≤ n → k ≤ H.length → H[H.length - k]? = some (f ((pos + n - k) % n))

theorem shows_nil (n : ℕ) (f : ℕ → α) (pos : ℕ) : Shows n f pos [] := by
  intro k h1 _ h3
  simp only [List.length_nil] at h3
  omega

/-- A place on the circle, without the remainder. -/
theorem mod_eq_ite {n a : ℕ} (h : a < 2 * n) : a % n = if a < n then a else a - n := by
  split
  · next hlt => exact Nat.mod_eq_of_lt hlt
  · next hge => rw [Nat.mod_eq_sub_mod (not_lt.mp hge), Nat.mod_eq_of_lt (by omega)]

variable {n pos : ℕ} {f g : ℕ → α} {H l : List α}

/-- **Appending fewer elements than there are places.** -/
theorem Shows.append (h : Shows n f pos H) (hpos : pos < n) (hlen : l.length ≤ n)
    (hput : ∀ j < l.length, l[j]? = some (g ((pos + j) % n)))
    (hkeep : ∀ j, l.length ≤ j → j < n → g ((pos + j) % n) = f ((pos + j) % n)) :
    Shows n g ((pos + l.length) % n) (H ++ l) := by
  intro k h1 hn hk
  rw [List.length_append] at hk ⊢
  -- the place is counted from the old position
  have hplace : ((pos + l.length) % n + n - k) % n = (pos + (n + l.length - k) % n) % n := by
    rw [mod_eq_ite (show pos + l.length < 2 * n by omega), mod_eq_ite (show n + l.length - k < 2 * n by omega)]
    split <;> split <;> rw [mod_eq_ite (by omega), mod_eq_ite (by omega)] <;> split <;> split <;> omega
  by_cases hnew : k ≤ l.length
  · have hj : (n + l.length - k) % n = l.length - k := by
      rw [mod_eq_ite (by omega)]
      split <;> omega
    rw [hplace, hj, ← hput _ (by omega), List.getElem?_append_right (by omega)]
    congr 1
    omega
  · have hj : (n + l.length - k) % n = n + l.length - k := Nat.mod_eq_of_lt (by omega)
    have hold := h (k - l.length) (by omega) (by omega) (by omega)
    rw [hplace, hj, hkeep _ (by omega) (by omega), List.getElem?_append_left (by omega),
      show H.length + l.length - k = H.length - (k - l.length) by omega, hold,
      show pos + n - (k - l.length) = pos + (n + l.length - k) by omega]

/-- **Starting over** with the last elements of a list that fills the buffer. -/
theorem shows_full (hlen : n ≤ l.length) (hput : ∀ j < n, l[l.length - n + j]? = some (g j)) :
    Shows n g 0 (H ++ l) := by
  intro k h1 hn _
  rw [List.length_append, List.getElem?_append_right (by omega), Nat.zero_add,
    Nat.mod_eq_of_lt (show n - k < n by omega), ← hput (n - k) (by omega)]
  congr 1
  omega

end Circ
