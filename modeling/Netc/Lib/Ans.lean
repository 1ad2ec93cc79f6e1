/-
# What a tabled asymmetric numeral system rests on

Two facts of arithmetic and one of programs. A walk by a step coprime to the
table size visits every slot once. A state of `[2 ^ R, 2 ^ (R + 1))` shifted
down by the right number of bits falls in `[f, 2 * f)`, for any frequency `f`
up to `2 ^ R`. And a loop that writes to distinct places leaves at each place
what it wrote there.

Key definitions: `Ans.walk`, `Ans.renorm`, `Scatter.run`.
Key theorems: `Ans.walk_inj`, `Ans.walk_surj`, `Ans.renorm_bounds`, `Scatter.run_key`.
-/
import Mathlib.Tactic
import Mathlib.Data.Nat.ModEq
import Mathlib.Data.Nat.Log
import Mathlib.Data.Fintype.EquivFin

namespace Ans

/-! ### The walk over the slots -/

/-- The slot a walk by `step` from slot 0 is at after `i` steps. -/
def walk (L step i : ℕ) : ℕ := i * step % L

variable {L step : ℕ}

theorem walk_lt (hL : 0 < L) (i : ℕ) : walk L step i < L := Nat.mod_lt _ hL

theorem walk_succ (L step i : ℕ) : (walk L step i + step) % L = walk L step (i + 1) := by
  rw [walk, walk, Nat.mod_add_mod, Nat.succ_mul]

/-- A coprime step visits no slot twice in one round. -/
theorem walk_inj (hc : Nat.Coprime step L) {i j : ℕ} (hi : i < L) (hj : j < L)
    (h : walk L step i = walk L step j) : i = j := by
  have h1 : i * step ≡ j * step [MOD L] := h
  have h2 : i ≡ j [MOD L] := Nat.ModEq.cancel_right_of_coprime (by rwa [Nat.gcd_comm]) h1
  rwa [Nat.ModEq, Nat.mod_eq_of_lt hi, Nat.mod_eq_of_lt hj] at h2

/-- A coprime step visits every slot. -/
theorem walk_surj (hc : Nat.Coprime step L) {p : ℕ} (hp : p < L) : ∃ i < L, walk L step i = p := by
  have hL : 0 < L := by omega
  let f : Fin L → Fin L := fun i => ⟨walk L step i, walk_lt hL i⟩
  have hinj : Function.Injective f := by
    intro i j h
    exact Fin.ext (walk_inj hc i.isLt j.isLt (congrArg Fin.val h))
  obtain ⟨i, hi⟩ := (Finite.injective_iff_surjective.mp hinj) ⟨p, hp⟩
  exact ⟨i, i.isLt, congrArg Fin.val hi⟩

/-! ### Renormalisation -/

/-- The number of low bits to take off a state `X` of `[2 ^ R, 2 ^ (R + 1))`
before coding a symbol of frequency `f`. -/
def renorm (R f X : ℕ) : ℕ :=
  let hi := R - Nat.log2 f
  if hi = 0 ∨ f <<< hi ≤ X then hi else hi - 1

section Renorm

variable {R f X : ℕ}

theorem log2_le_of_le (hf : 0 < f) (hR : f ≤ 2 ^ R) : Nat.log2 f ≤ R := by
  have h := Nat.log2_self_le hf.ne'
  exact (Nat.pow_le_pow_iff_right (by norm_num)).mp (h.trans hR)

/-- What is left of the state after the shift is in `[f, 2 * f)`. -/
theorem renorm_bounds (hf : 0 < f) (hR : f ≤ 2 ^ R) (h0 : 2 ^ R ≤ X) (h1 : X < 2 ^ (R + 1)) :
    f ≤ X >>> renorm R f X ∧ X >>> renorm R f X < 2 * f := by
  have hl := log2_le_of_le hf hR
  have hge := Nat.log2_self_le hf.ne'
  have hlt : f < 2 ^ (Nat.log2 f + 1) := Nat.lt_log2_self
  set l := Nat.log2 f with hldef
  rw [renorm, Nat.shiftRight_eq_div_pow, ← hldef]
  simp only [Nat.shiftLeft_eq]
  have hpos : 0 < 2 ^ (R - l) := by positivity
  split
  · next h =>
    have hX : f * 2 ^ (R - l) ≤ X := by
      rcases h with h | h
      · rw [h]
        omega
      · exact h
    refine ⟨(Nat.le_div_iff_mul_le hpos).mpr hX, ?_⟩
    rw [Nat.div_lt_iff_lt_mul hpos]
    calc X < 2 ^ (R + 1) := h1
      _ = 2 * 2 ^ l * 2 ^ (R - l) := by rw [mul_assoc, ← pow_add, ← pow_succ']; congr 1; omega
      _ ≤ 2 * f * 2 ^ (R - l) := Nat.mul_le_mul_right _ (by omega)
  · next h =>
    have h2 : 0 < R - l := by omega
    have h3 : X < f * 2 ^ (R - l) := by omega
    have hsucc : 2 ^ (R - l) = 2 * 2 ^ (R - l - 1) := by rw [← pow_succ']; congr 1; omega
    have hpos' : 0 < 2 ^ (R - l - 1) := by positivity
    constructor
    · rw [Nat.le_div_iff_mul_le hpos']
      calc f * 2 ^ (R - l - 1) ≤ 2 ^ (l + 1) * 2 ^ (R - l - 1) := Nat.mul_le_mul_right _ hlt.le
        _ = 2 ^ R := by rw [← pow_add]; congr 1; omega
        _ ≤ X := h0
    · rw [Nat.div_lt_iff_lt_mul hpos']
      calc X < f * 2 ^ (R - l) := h3
        _ = 2 * f * 2 ^ (R - l - 1) := by rw [hsucc]; ring

theorem renorm_le (R f X : ℕ) : renorm R f X ≤ R := by
  simp only [renorm]
  split <;> omega

/-- The shift can be read off what it leaves. -/
theorem renorm_eq (h0 : 2 ^ R ≤ X) (h1 : X < 2 ^ (R + 1)) {n : ℕ} (hn : n ≤ R) :
    R - Nat.log2 (X >>> n) = n := by
  have hlog : Nat.log2 (X >>> n) = R - n := by
    rw [Nat.shiftRight_eq_div_pow]
    have hge : 2 ^ (R - n) ≤ X / 2 ^ n := by
      rw [Nat.le_div_iff_mul_le (by positivity), ← pow_add, Nat.sub_add_cancel hn]
      exact h0
    have hlt : X / 2 ^ n < 2 ^ (R - n + 1) := by
      rw [Nat.div_lt_iff_lt_mul (by positivity), ← pow_add, show R - n + 1 + n = R + 1 by omega]
      exact h1
    have hpos : 0 < 2 ^ (R - n) := by positivity
    exact (Nat.log2_eq_iff (by omega)).mpr ⟨hge, hlt⟩
  omega

/-- Only one shift of a number falls in `[f, 2 * f)`. -/
theorem shift_unique {m n : ℕ} (hm : f ≤ X >>> m ∧ X >>> m < 2 * f) (hn : f ≤ X >>> n ∧ X >>> n < 2 * f) : m = n := by
  -- a longer shift halves what a shorter one leaves
  have key : ∀ {m n : ℕ}, X >>> m < 2 * f → f ≤ X >>> n → n ≤ m := by
    intro m n hlt hge
    by_contra hmn
    obtain ⟨d, rfl⟩ : ∃ d, n = m + 1 + d := ⟨n - (m + 1), by omega⟩
    have hhalf : X >>> (m + 1 + d) ≤ X >>> m / 2 := by
      rw [Nat.shiftRight_add, Nat.shiftRight_add, Nat.shiftRight_one]
      exact Nat.shiftRight_le _ _
    omega
  exact Nat.le_antisymm (key hn.2 hm.1) (key hm.2 hn.1)

/-- A number of `[f, 2 * f)` shifted back up to the range of the states stays
in it with all the bits that may be added below. -/
theorem base_bounds {y : ℕ} (hy : 0 < y) (hR : y < 2 ^ (R + 1)) :
    2 ^ R ≤ y <<< (R - Nat.log2 y) ∧ y <<< (R - Nat.log2 y) + 2 ^ (R - Nat.log2 y) ≤ 2 ^ (R + 1) := by
  have hge := Nat.log2_self_le hy.ne'
  have hlt : y < 2 ^ (Nat.log2 y + 1) := Nat.lt_log2_self
  have hl : Nat.log2 y ≤ R := by
    have := lt_of_le_of_lt hge hR
    have := (Nat.pow_lt_pow_iff_right (a := 2) (by norm_num)).mp this
    omega
  set l := Nat.log2 y
  rw [Nat.shiftLeft_eq]
  constructor
  · calc 2 ^ R = 2 ^ l * 2 ^ (R - l) := by rw [← pow_add]; congr 1; omega
      _ ≤ y * 2 ^ (R - l) := Nat.mul_le_mul_right _ hge
  · calc y * 2 ^ (R - l) + 2 ^ (R - l) = (y + 1) * 2 ^ (R - l) := by ring
      _ ≤ 2 ^ (l + 1) * 2 ^ (R - l) := Nat.mul_le_mul_right _ hlt
      _ = 2 ^ (R + 1) := by rw [← pow_add]; congr 1; omega

end Renorm

end Ans

namespace Scatter

variable {α β : Type}

/-- A loop over `l` that carries a position on with `next` and writes
`val pos x` to the place `key pos x`. -/
def run (next : ℕ → ℕ) (key : ℕ → α → ℕ) (val : ℕ → α → β) (l : List α) (pos : ℕ) (m : ℕ → β) :
    ℕ × (ℕ → β) :=
  l.foldl (fun s x => (next s.1, Function.update s.2 (key s.1 x) (val s.1 x))) (pos, m)

variable {next : ℕ → ℕ} {key : ℕ → α → ℕ} {val : ℕ → α → β}

theorem run_cons (x : α) (l : List α) (pos : ℕ) (m : ℕ → β) :
    run next key val (x :: l) pos m
      = run next key val l (next pos) (Function.update m (key pos x) (val pos x)) := rfl

/-- The loop looks at its functions only along the list. -/
theorem run_congr {key' : ℕ → α → ℕ} {val' : ℕ → α → β} : ∀ {l : List α} {pos : ℕ} {m : ℕ → β},
    (∀ x ∈ l, ∀ pos, key pos x = key' pos x) → (∀ x ∈ l, ∀ pos, val pos x = val' pos x) →
      run next key val l pos m = run next key' val' l pos m
  | [], _, _, _, _ => rfl
  | x :: l, pos, m, hk, hv => by
    rw [run_cons, run_cons, hk x (by simp), hv x (by simp)]
    exact run_congr (fun y hy => hk y (by simp [hy])) fun y hy => hv y (by simp [hy])

/-- A place the loop does not write to keeps what it had. -/
theorem run_of_not_key {a : ℕ} : ∀ (l : List α) (pos : ℕ) (m : ℕ → β),
    (∀ i (h : i < l.length), key (next^[i] pos) l[i] ≠ a) → (run next key val l pos m).2 a = m a
  | [], _, _, _ => rfl
  | x :: l, pos, m, h => by
    rw [run_cons, run_of_not_key l]
    · exact Function.update_of_ne (h 0 (by simp)).symm _ _
    · intro i hi
      exact h (i + 1) (by simpa using hi)

/-- **A place the loop writes to once has what was written there.** -/
theorem run_key : ∀ (l : List α) (pos : ℕ) (m : ℕ → β),
    (∀ i j (hi : i < l.length) (hj : j < l.length),
      key (next^[i] pos) l[i] = key (next^[j] pos) l[j] → i = j) →
    ∀ i (h : i < l.length), (run next key val l pos m).2 (key (next^[i] pos) l[i]) = val (next^[i] pos) l[i]
  | [], _, _, _, i, h => absurd h (Nat.not_lt_zero i)
  | x :: l, pos, m, hinj, 0, h => by
    rw [run_cons]
    have hfree : ∀ i (hi : i < l.length), key (next^[i] (next pos)) l[i] ≠ key pos x := by
      intro i hi he
      exact Nat.succ_ne_zero i (hinj (i + 1) 0 (by simpa using hi) h he)
    exact (run_of_not_key l _ _ hfree).trans (Function.update_self ..)
  | x :: l, pos, m, hinj, i + 1, h => by
    have h' : i < l.length := by simpa using h
    refine run_key l (next pos) _ (fun a b ha hb he => ?_) i h'
    exact Nat.succ_injective (hinj (a + 1) (b + 1) (by simpa using ha) (by simpa using hb) he)

end Scatter
