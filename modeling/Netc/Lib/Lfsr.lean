/-
# Shift registers with linear feedback

A register of `w` bits moves down by one bit a step, and a 1 that falls out at
the bottom is fed back as a polynomial. The step is linear in exclusive or, so
registers are polynomials in the step, applied to the register with the top
bit alone (`eval_coeffs`), and polynomials in the step commute. So the
register `k` steps from there says what `k` steps do to any register
(`mul_iterate`), and the squares of one step give any number of steps
(`jump_eq`). The number of steps after which a register comes back is found
from the primes that divide it (`minimalPeriod_eq_of_primes`).

Key definitions: `shift`, `eval`, `mul`, `jump`.
Key theorems: `shift_xor`, `eval_coeffs`, `mul_iterate`, `jump_eq`, `minimalPeriod_eq_of_primes`.
-/
import Mathlib.Tactic
import Mathlib.Dynamics.PeriodicPts.Lemmas
import Netc.Lib.Bits

namespace Lfsr

variable {w : ℕ} (poly : BitVec w)

/-! ### The step -/

/-- One step of the register. -/
def shift (r : BitVec w) : BitVec w := (r >>> 1) ^^^ if r.getLsbD 0 then poly else 0#w

theorem shift_of_low {r : BitVec w} (h : r.getLsbD 0 = false) : shift poly r = r >>> 1 := by simp [shift, h]

@[simp] theorem shift_zero : shift poly 0#w = 0#w := by simp [shift]

theorem shift_xor (a b : BitVec w) : shift poly (a ^^^ b) = shift poly a ^^^ shift poly b := by
  have hcancel : a >>> 1 ^^^ poly ^^^ (b >>> 1 ^^^ poly) = a >>> 1 ^^^ b >>> 1 := by
    rw [BitVec.xor_assoc, BitVec.xor_comm (b >>> 1), ← BitVec.xor_assoc poly, BitVec.xor_self, BitVec.zero_xor]
  unfold shift
  rw [BitVec.getLsbD_xor, BitVec.ushiftRight_xor_distrib]
  -- the feedback of both is none
  cases a.getLsbD 0 <;> cases b.getLsbD 0 <;> simp [hcancel] <;> ac_rfl

theorem shift_iterate_xor (a b : BitVec w) : ∀ n, (shift poly)^[n] (a ^^^ b) = (shift poly)^[n] a ^^^ (shift poly)^[n] b
  | 0 => rfl
  | n + 1 => by
    rw [Function.iterate_succ_apply', shift_iterate_xor a b n, shift_xor, ← Function.iterate_succ_apply' (shift poly),
      ← Function.iterate_succ_apply' (shift poly)]

/-- Bits that do not reach the bottom move down. -/
theorem shift_iterate_of_low {r : BitVec w} : ∀ n, (∀ i < n, r.getLsbD i = false) → (shift poly)^[n] r = r >>> n
  | 0, _ => by simp
  | n + 1, h => by
    have hlow : (r >>> n).getLsbD 0 = false := by simpa using h n (Nat.lt_succ_self n)
    rw [Function.iterate_succ_apply', shift_iterate_of_low n fun i hi => h i (by omega), shift_of_low poly hlow,
      BitVec.shiftRight_add]

/-- `n` steps: those of the low `n` bits, and the other bits moved down. -/
theorem shift_iterate_split (r : BitVec w) (n : ℕ) :
    (shift poly)^[n] r = (shift poly)^[n] ((r.setWidth n).setWidth w) ^^^ r >>> n := by
  have hsplit : r = (r.setWidth n).setWidth w ^^^ (r >>> n) <<< n := by
    apply BitVec.eq_of_getLsbD_eq
    intro i hi
    by_cases hn : i < n
    · simp [hi, hn]
    · simp [hi, hn, show n + (i - n) = i by omega]
  have hhigh : ((r >>> n) <<< n) >>> n = r >>> n := by
    apply BitVec.eq_of_getLsbD_eq
    intro i hi
    by_cases hn : n + i < w
    · simp [hn]
    · simp [hn, BitVec.getLsbD_of_ge r (n + i) (by omega)]
  have hmove : (shift poly)^[n] ((r >>> n) <<< n) = r >>> n := by
    rw [shift_iterate_of_low poly n fun i hi => by simp [hi], hhigh]
  conv_lhs => rw [hsplit]
  rw [shift_iterate_xor, hmove]

/-! ### Feeding bits -/

/-- A bit into the register. -/
def feed (r : BitVec w) (bit : Bool) : BitVec w := shift poly (r ^^^ (BitVec.ofBool bit).setWidth w)

/-- Bits fed one by one are fed at once. -/
theorem foldl_feed : ∀ (l : List Bool) (r : BitVec w), l.length ≤ w →
    l.foldl (feed poly) r = (shift poly)^[l.length] (r ^^^ BitVec.ofNat w (Bits.toNat l))
  | [], r, _ => by simp [Bits.toNat]
  | b :: l, r, h => by
    have hlt : Bits.toNat l < 2 ^ l.length := Bits.toNat_lt l
    have hnum : BitVec.ofNat w (b.toNat + 2 * Bits.toNat l)
        = (BitVec.ofBool b).setWidth w ^^^ (BitVec.ofNat w (Bits.toNat l)) <<< 1 := by
      have hb : b.toNat < 2 := Bool.toNat_lt b
      have hdiv : (b.toNat + 2 * Bits.toNat l) / 2 = Bits.toNat l := by omega
      apply BitVec.eq_of_getLsbD_eq
      intro i hi
      rw [BitVec.getLsbD_xor, BitVec.getLsbD_shiftLeft, BitVec.getLsbD_ofNat, BitVec.getLsbD_ofNat,
        BitVec.getLsbD_setWidth]
      rcases i with _ | i
      · cases b <;> simp [hi]
      · simp [hi, Nat.testBit_succ, hdiv, show i < w by omega]
    have hback : shift poly ((BitVec.ofNat w (Bits.toNat l)) <<< 1) = BitVec.ofNat w (Bits.toNat l) := by
      rw [shift_of_low poly (by simp)]
      apply BitVec.eq_of_getLsbD_eq
      intro i hi
      rw [BitVec.getLsbD_ushiftRight, BitVec.getLsbD_shiftLeft, BitVec.getLsbD_ofNat, BitVec.getLsbD_ofNat]
      by_cases hi1 : 1 + i < w
      · simp [hi, hi1]
      · have hbit : (Bits.toNat l).testBit i = false := by
          apply Nat.testBit_lt_two_pow
          refine lt_of_lt_of_le hlt (Nat.pow_le_pow_right (by norm_num) ?_)
          simp only [List.length_cons] at h
          omega
        simp [hi1, hbit]
    rw [List.foldl_cons, foldl_feed l _ (by simp at h; omega), List.length_cons, Function.iterate_succ_apply,
      Bits.toNat, hnum, ← BitVec.xor_assoc, shift_xor, hback]
    rfl

/-- A difference of registers goes its own way. -/
theorem foldl_feed_xor : ∀ (l : List Bool) (r x : BitVec w),
    l.foldl (feed poly) (r ^^^ x) = l.foldl (feed poly) r ^^^ (shift poly)^[l.length] x
  | [], r, x => rfl
  | b :: l, r, x => by
    have hfeed : feed poly (r ^^^ x) b = feed poly r b ^^^ shift poly x := by
      rw [feed, feed, ← shift_xor]
      congr 1
      ac_rfl
    rw [List.foldl_cons, List.foldl_cons, hfeed, foldl_feed_xor l, List.length_cons,
      Function.iterate_succ_apply]

/-! ### Polynomials in the step -/

/-- A polynomial in the step, coefficients from the constant up, applied to a register. -/
def eval : List Bool → BitVec w → BitVec w
  | [], _ => 0#w
  | b :: q, r => (if b then r else 0#w) ^^^ shift poly (eval q r)

/-- The low `n` bits of a register, the top one first. -/
def coeffs (a : BitVec w) : ℕ → List Bool
  | 0 => []
  | n + 1 => a.getLsbD n :: coeffs a n

/-- The product of registers, as polynomials in the step. -/
def mul (a b : BitVec w) : BitVec w := eval poly (coeffs a w) b

variable (w) in
/-- The register with the top bit alone. -/
def one : BitVec w := BitVec.twoPow w (w - 1)

theorem eval_xor (a b : BitVec w) : ∀ q, eval poly q (a ^^^ b) = eval poly q a ^^^ eval poly q b
  | [] => by simp [eval]
  | c :: q => by
    rw [eval, eval, eval, eval_xor a b q, shift_xor]
    cases c
    · simp
    · simp only [if_true]
      ac_rfl

theorem eval_zero : ∀ q, eval poly q 0#w = 0#w
  | [] => rfl
  | c :: q => by simp [eval, eval_zero q]

theorem eval_shift (r : BitVec w) : ∀ q, eval poly q (shift poly r) = shift poly (eval poly q r)
  | [] => by simp [eval]
  | c :: q => by
    rw [eval, eval, eval_shift r q, shift_xor]
    cases c <;> simp

theorem eval_iterate (q : List Bool) (r : BitVec w) :
    ∀ n, eval poly q ((shift poly)^[n] r) = (shift poly)^[n] (eval poly q r)
  | 0 => rfl
  | n + 1 => by
    rw [Function.iterate_succ_apply', eval_shift, eval_iterate q r n, ← Function.iterate_succ_apply' (shift poly)]

/-- Polynomials in the step commute. -/
theorem eval_comm (q : List Bool) (r : BitVec w) : ∀ q', eval poly q (eval poly q' r) = eval poly q' (eval poly q r)
  | [] => eval_zero poly q
  | c :: q' => by
    rw [eval, eval, eval_xor, eval_shift, eval_comm q r q']
    cases c <;> simp [eval_zero]

/-- **A register is a polynomial in the step**, with its bits as coefficients. -/
theorem eval_coeffs (a : BitVec w) : eval poly (coeffs a w) (one w) = a := by
  -- the low `n` coefficients give the low `n` bits, at the top
  have key : ∀ n ≤ w, eval poly (coeffs a n) (one w) = a <<< (w - n) := by
    intro n
    induction n with
    | zero => intro _; simp [coeffs, eval]
    | succ n ih =>
      intro hn
      have hlow : (a <<< (w - n)).getLsbD 0 = false := by
        rw [BitVec.getLsbD_shiftLeft]
        simp [show 0 < w - n by omega]
      rw [coeffs, eval, ih (by omega), shift_of_low poly hlow]
      apply BitVec.eq_of_getLsbD_eq
      intro i hi
      have htop : (if a.getLsbD n then one w else 0#w).getLsbD i = (a.getLsbD n && decide (i = w - 1)) := by
        cases a.getLsbD n
        · simp
        · simp [one, BitVec.getLsbD_twoPow, eq_comm]
          omega
      rw [BitVec.getLsbD_xor, htop, BitVec.getLsbD_ushiftRight, BitVec.getLsbD_shiftLeft, BitVec.getLsbD_shiftLeft]
      by_cases hi1 : i = w - 1
      · subst hi1
        simp [show ¬1 + (w - 1) < w by omega, show w - 1 < w by omega, show ¬w - 1 < w - (n + 1) by omega,
          show w - 1 - (w - (n + 1)) = n by omega]
      · by_cases hi2 : i < w - (n + 1)
        · simp [hi1, hi2, show 1 + i < w - n by omega]
        · simp [hi1, hi2, hi, show 1 + i < w by omega, show ¬1 + i < w - n by omega,
            show 1 + i - (w - n) = i - (w - (n + 1)) by omega]
  simpa using key w (Nat.le_refl w)

/-- **Steps as a product**: what `k` steps do is what they do to the top bit. -/
theorem mul_iterate (k : ℕ) (v : BitVec w) : mul poly ((shift poly)^[k] (one w)) v = (shift poly)^[k] v := by
  unfold mul
  conv_lhs => rw [← eval_coeffs poly v]
  rw [eval_comm, eval_coeffs, eval_iterate, eval_coeffs]

/-! ### Many steps at once -/

/-- The registers `k`, `2 * k`, `4 * k`, … steps from the top bit. -/
def Powers : ℕ → List (BitVec w) → Prop
  | _, [] => True
  | k, s :: sq => s = (shift poly)^[k] (one w) ∧ Powers (2 * k) sq

/-- Each register is the square of the one before. -/
def squares : List (BitVec w) → Bool
  | s :: t :: sq => t == mul poly s s && squares (t :: sq)
  | _ => true

/-- As many steps as `m` has units of the first of `sq`, by squares. -/
def jump : List (BitVec w) → ℕ → BitVec w → BitVec w
  | [], _, v => v
  | s :: sq, m, v => jump sq (m / 2) (if m % 2 = 1 then mul poly s v else v)

theorem powers_of_squares : ∀ {sq : List (BitVec w)} {s : BitVec w} {k : ℕ}, s = (shift poly)^[k] (one w) →
    squares poly (s :: sq) = true → Powers poly k (s :: sq)
  | [], s, k, hs, _ => ⟨hs, trivial⟩
  | t :: sq, s, k, hs, h => by
    rw [squares, Bool.and_eq_true, beq_iff_eq] at h
    refine ⟨hs, powers_of_squares ?_ h.2⟩
    rw [h.1, hs, mul_iterate, ← Function.iterate_add_apply, Nat.two_mul]

theorem jump_eq : ∀ {sq : List (BitVec w)} {k : ℕ}, Powers poly k sq → ∀ (m : ℕ) (v : BitVec w),
    jump poly sq m v = (shift poly)^[k * (m % 2 ^ sq.length)] v
  | [], k, _, m, v => by simp [jump, Nat.mod_one]
  | s :: sq, k, ⟨hs, hsq⟩, m, v => by
    have hstep : (if m % 2 = 1 then mul poly s v else v) = (shift poly)^[k * (m % 2)] v := by
      rw [hs]
      rcases Nat.mod_two_eq_zero_or_one m with h | h
      · simp [h]
      · simp [h, mul_iterate]
    rw [jump, hstep, jump_eq hsq, ← Function.iterate_add_apply, List.length_cons, pow_succ', Nat.mod_mul]
    congr 1
    ring_nf

/-- **The period**: a number of steps that brings `x` back is the least one if none of its quotients by a prime
does. -/
theorem minimalPeriod_eq_of_primes {α : Type} {f : α → α} {x : α} {N : ℕ} (h : f^[N] x = x)
    (hp : ∀ p, p.Prime → p ∣ N → f^[N / p] x ≠ x) : Function.minimalPeriod f x = N := by
  obtain ⟨c, hc⟩ : Function.minimalPeriod f x ∣ N := Function.IsPeriodicPt.minimalPeriod_dvd h
  by_cases hc1 : c = 1
  · rw [hc, hc1, Nat.mul_one]
  · exfalso
    have hprime := Nat.minFac_prime hc1
    obtain ⟨e, he⟩ := Nat.minFac_dvd c
    have hdvd : c.minFac ∣ N := hc ▸ Dvd.dvd.mul_left (Nat.minFac_dvd c) _
    have hquot : N / c.minFac = Function.minimalPeriod f x * e := by
      apply Nat.div_eq_of_eq_mul_left hprime.pos
      rw [Nat.mul_assoc, Nat.mul_comm e, ← he]
      exact hc
    refine hp _ hprime hdvd ?_
    rw [hquot]
    exact (Function.isPeriodicPt_minimalPeriod f x).mul_const e

end Lfsr
