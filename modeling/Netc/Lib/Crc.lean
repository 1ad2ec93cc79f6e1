/-
# Table-driven checksum registers

A register of `w` bits takes in a byte by a table: `T (low (r ^ b)) ^ (r >> 8)`. If the entries of the table
differ in their top bytes, a register tells the byte that was last looked up and all of the register before
but its low byte (`Agree.step_back`). So a step loses nothing of the register (`step_injective`), and two
words of at most `w / 8` bytes that are taken in from one register leave different ones (`run_injective`).
-/
import Mathlib.Tactic

namespace Crc

variable {w : ℕ} (T : BitVec 8 → BitVec w)

/-- The place of the table that a byte selects. -/
def index (r : BitVec w) (b : BitVec 8) : BitVec 8 := r.setWidth 8 ^^^ b

/-- One byte into the register. -/
def step (r : BitVec w) (b : BitVec 8) : BitVec w := T (index r b) ^^^ (r >>> 8)

/-- The register after the bytes `l`. -/
def run (r : BitVec w) (l : List (BitVec 8)) : BitVec w := l.foldl (step T) r

/-- The entries differ in their top bytes. -/
def TopsDiffer : Prop := ∀ x y, (∀ i, w ≤ i + 8 → (T x).getLsbD i = (T y).getLsbD i) → x = y

/-- The registers agree on their top `j` bytes. -/
def Agree (j : ℕ) (r r' : BitVec w) : Prop := ∀ i, w ≤ i + 8 * j → r.getLsbD i = r'.getLsbD i

variable {T} {r r' : BitVec w} {b b' : BitVec 8} {j : ℕ}

theorem Agree.refl (r : BitVec w) : Agree j r r := fun _ _ => rfl

theorem getLsbD_step (i : ℕ) : (step T r b).getLsbD i = ((T (index r b)).getLsbD i ^^ r.getLsbD (8 + i)) := by
  rw [step, BitVec.getLsbD_xor, BitVec.getLsbD_ushiftRight]

/-- The same place of the table was looked up. -/
theorem Agree.index_eq (hT : TopsDiffer T) (h : Agree (j + 1) (step T r b) (step T r' b')) :
    index r b = index r' b' := by
  apply hT
  intro i hi
  have hbit := h i (by omega)
  rw [getLsbD_step, getLsbD_step, BitVec.getLsbD_of_ge r _ (by omega), BitVec.getLsbD_of_ge r' _ (by omega)] at hbit
  simpa using hbit

/-- **One step back**: of a register that is known from its top the one before is known from its top, a byte less. -/
theorem Agree.step_back (hT : TopsDiffer T) (hj : 8 * (j + 1) ≤ w)
    (h : Agree (j + 1) (step T r b) (step T r' b')) : Agree j r r' := by
  intro i hi
  obtain ⟨k, rfl⟩ : ∃ k, i = 8 + k := ⟨i - 8, by omega⟩
  have hbit := h k (by omega)
  rw [getLsbD_step, getLsbD_step, h.index_eq hT] at hbit
  simpa using hbit

theorem Agree.run_back (hT : TopsDiffer T) {l l' : List (BitVec 8)} (hlen : l.length = l'.length)
    (hj : 8 * (j + l.length) ≤ w) (h : Agree (j + l.length) (run T r l) (run T r' l')) : Agree j r r' := by
  induction l generalizing l' r r' j with
  | nil =>
    obtain rfl := List.length_eq_zero_iff.mp hlen.symm
    exact h
  | cons b l ih =>
    obtain ⟨b', l', rfl⟩ := List.exists_cons_of_length_eq_add_one hlen.symm
    rw [List.length_cons] at hj h hlen
    rw [show j + (l.length + 1) = j + 1 + l.length by omega] at hj h
    exact (ih (Nat.succ.inj hlen) hj h).step_back hT (by omega)

theorem index_injective {r : BitVec w} (h : index r b = index r b') : b = b' := by
  unfold index at h
  exact BitVec.xor_right_inj _ |>.mp h

/-- **A step is injective in the register.** -/
theorem step_injective (hT : TopsDiffer T) {n : ℕ} (hw : w = 8 * (n + 1)) (h : step T r b = step T r' b) : r = r' := by
  have hagree : Agree (n + 1) (step T r b) (step T r' b) := h ▸ Agree.refl _
  have hindex := hagree.index_eq hT
  have hhigh := hagree.step_back hT hw.ge
  apply BitVec.eq_of_getLsbD_eq
  intro i _
  by_cases hi : i < 8
  · -- the low byte is in the index
    have hlow := congrArg (fun x => x.getLsbD i) hindex
    simpa [index, hi] using hlow
  · exact hhigh i (by omega)

/-- The same bytes lose nothing of the register. -/
theorem run_injective_register (hT : TopsDiffer T) {n : ℕ} (hw : w = 8 * (n + 1)) {l : List (BitVec 8)}
    (h : run T r l = run T r' l) : r = r' := by
  induction l generalizing r r' with
  | nil => exact h
  | cons b l ih => exact step_injective hT hw (ih h)

/-- **Words that fit in the register are told apart** by what they leave of one register. -/
theorem run_injective (hT : TopsDiffer T) {l l' : List (BitVec 8)} (hlen : l.length = l'.length)
    (hfit : 8 * l.length ≤ w) (h : run T r l = run T r l') : l = l' := by
  induction l generalizing l' r with
  | nil => exact (List.length_eq_zero_iff.mp hlen.symm).symm
  | cons b l ih =>
    obtain ⟨b', l', rfl⟩ := List.exists_cons_of_length_eq_add_one hlen.symm
    rw [List.length_cons] at hfit
    have hlen' : l.length = l'.length := Nat.succ.inj hlen
    -- behind the first bytes the registers still agree on a byte
    have hagree : Agree 1 (step T r b) (step T r b') :=
      Agree.run_back hT hlen' (by omega) (show Agree _ (run T r (b :: l)) (run T r (b' :: l')) from h ▸ Agree.refl _)
    obtain rfl := index_injective (hagree.index_eq hT)
    rw [ih hlen' (by omega) h]

end Crc
