/-
# Byte strings as little-endian numbers

`leNat` reads a byte string as a number, low byte first, `leBytes n v` writes
`v` as `n` bytes; and bitwise or, when the operands share no bit, is addition.
-/
import Mathlib.Tactic
import Mathlib.Data.Nat.Bitwise
import Mathlib.Data.List.GetD

namespace Digits

/-- The number a byte string spells, low byte first. -/
def leNat : List UInt8 → ℕ
  | [] => 0
  | b :: bs => b.toNat + 256 * leNat bs

/-- The `n` low bytes of `v`, low byte first. -/
def leBytes : ℕ → ℕ → List UInt8
  | 0, _ => []
  | n + 1, v => UInt8.ofNat (v % 256) :: leBytes n (v / 256)

@[simp] theorem length_leBytes : ∀ n v, (leBytes n v).length = n
  | 0, _ => rfl
  | n + 1, v => by simp [leBytes, length_leBytes n]

theorem leNat_append : ∀ a b : List UInt8, leNat (a ++ b) = leNat a + 256 ^ a.length * leNat b
  | [], b => by simp [leNat]
  | x :: a, b => by
    simp only [List.cons_append, leNat, leNat_append a b, List.length_cons, pow_succ]
    ring

theorem leNat_lt : ∀ l : List UInt8, leNat l < 256 ^ l.length
  | [] => by simp [leNat]
  | x :: l => by
    have h1 := leNat_lt l
    have h2 : x.toNat < 256 := x.toNat_lt
    simp only [leNat, List.length_cons, pow_succ]
    omega

/-- Bytes as bits. -/
theorem pow_256 (k : ℕ) : 256 ^ k = 2 ^ (8 * k) := by rw [show 256 = 2 ^ 8 by norm_num, ← pow_mul]

theorem leNat_lt_two_pow (l : List UInt8) : leNat l < 2 ^ (8 * l.length) := pow_256 l.length ▸ leNat_lt l

/-- Writing and reading back keeps the low bytes. -/
theorem leNat_leBytes : ∀ n v, leNat (leBytes n v) = v % 256 ^ n
  | 0, v => by simp [leBytes, leNat, Nat.mod_one]
  | n + 1, v => by
    have h : (UInt8.ofNat (v % 256)).toNat = v % 256 :=
      UInt8.toNat_ofNat_of_lt' (Nat.mod_lt _ (by norm_num))
    rw [leBytes, leNat, leNat_leBytes n, h, pow_succ', Nat.mod_mul]

/-- Reading and writing back gives the same bytes. -/
theorem leBytes_leNat : ∀ {n : ℕ} {l : List UInt8}, l.length = n → leBytes n (leNat l) = l
  | 0, [], _ => rfl
  | n + 1, b :: l, h => by
    have hb : b.toNat < 256 := b.toNat_lt
    have hmod : (b.toNat + 256 * leNat l) % 256 = b.toNat := by omega
    have hdiv : (b.toNat + 256 * leNat l) / 256 = leNat l := by omega
    rw [leBytes, leNat, hmod, hdiv, UInt8.ofNat_toNat, leBytes_leNat (by simpa using h)]

theorem leNat_take (l : List UInt8) (k : ℕ) (h : k ≤ l.length) : leNat (l.take k) = leNat l % 256 ^ k := by
  have h1 := leNat_append (l.take k) (l.drop k)
  rw [List.take_append_drop, List.length_take_of_le h] at h1
  have h2 := leNat_lt (l.take k)
  rw [List.length_take_of_le h] at h2
  rw [h1, Nat.add_mul_mod_self_left, Nat.mod_eq_of_lt h2]

theorem leNat_drop (l : List UInt8) (k : ℕ) (h : k ≤ l.length) : leNat (l.drop k) = leNat l / 256 ^ k := by
  have h1 := leNat_append (l.take k) (l.drop k)
  rw [List.take_append_drop, List.length_take_of_le h] at h1
  have h2 := leNat_lt (l.take k)
  rw [List.length_take_of_le h] at h2
  rw [h1, Nat.add_mul_div_left _ _ (by positivity), Nat.div_eq_of_lt h2, Nat.zero_add]

/-- The byte of `l` at `k` is its digit at `k`. -/
theorem toNat_getD (l : List UInt8) (k : ℕ) (h : k < l.length) :
    (l.getD k 0).toNat = leNat l / 256 ^ k % 256 := by
  rw [← leNat_drop l k h.le, List.drop_eq_getElem_cons h, List.getD_eq_getElem l 0 h, leNat]
  have : l[k].toNat < 256 := UInt8.toNat_lt _
  omega

/-- Or of a number below `2 ^ b` and one shifted past it is their sum. -/
theorem or_shiftLeft {a b : ℕ} (v : ℕ) (h : a < 2 ^ b) : a ||| v <<< b = a + v * 2 ^ b := by
  rw [Nat.shiftLeft_eq, Nat.mul_comm v, Nat.or_comm, ← Nat.two_pow_add_eq_or_of_lt h]
  omega

/-- Or of a multiple of `2 ^ b` and a number below it is their sum. -/
theorem mul_or {a b : ℕ} (v : ℕ) (h : a < 2 ^ b) : v * 2 ^ b ||| a = v * 2 ^ b + a := by
  rw [Nat.mul_comm v, ← Nat.two_pow_add_eq_or_of_lt h]

end Digits
