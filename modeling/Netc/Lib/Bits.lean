/-
# Bit strings packed into bytes

A bit string is a list of bits, the low one first. `toNat` reads it as a
number, `ofNat` gives the low bits of a number, and `pack` puts it into bytes,
low bit first, the last byte filled up with zeros. Packed bytes are known by
the number they spell (`eq_pack`).
-/
import Netc.Lib.Digits

namespace Bits

/-- The number a bit string spells, low bit first. -/
def toNat : List Bool → ℕ
  | [] => 0
  | b :: l => b.toNat + 2 * toNat l

/-- The `n` low bits of `v`. -/
def ofNat (n v : ℕ) : List Bool := (List.range n).map v.testBit

/-- Eight bits to a byte. -/
def pack (l : List Bool) : List UInt8 :=
  (List.range ((l.length + 7) / 8)).map fun j => UInt8.ofNat (toNat ((l.drop (8 * j)).take 8))

@[simp] theorem length_ofNat (n v : ℕ) : (ofNat n v).length = n := by simp [ofNat]

theorem toNat_append : ∀ a b : List Bool, toNat (a ++ b) = toNat a + 2 ^ a.length * toNat b
  | [], b => by simp [toNat]
  | x :: a, b => by
    rw [List.cons_append, toNat, toNat, toNat_append a b, List.length_cons, pow_succ]
    ring

theorem toNat_lt : ∀ l : List Bool, toNat l < 2 ^ l.length
  | [] => by simp [toNat]
  | b :: l => by
    have hb : b.toNat < 2 := Bool.toNat_lt b
    have ih := toNat_lt l
    rw [toNat, List.length_cons, pow_succ]
    omega

theorem toNat_take : ∀ (l : List Bool) (k : ℕ), toNat (l.take k) = toNat l % 2 ^ k
  | [], k => by simp [toNat]
  | b :: l, 0 => by simp [toNat, Nat.mod_one]
  | b :: l, k + 1 => by
    have hb : b.toNat < 2 := Bool.toNat_lt b
    have hlow : (b.toNat + 2 * toNat l) % 2 = b.toNat := by omega
    have hhigh : (b.toNat + 2 * toNat l) / 2 = toNat l := by omega
    rw [List.take_succ_cons, toNat, toNat, toNat_take l k, pow_succ', Nat.mod_mul, hlow, hhigh]

theorem toNat_drop : ∀ (l : List Bool) (k : ℕ), toNat (l.drop k) = toNat l / 2 ^ k
  | [], k => by simp [toNat]
  | b :: l, 0 => by simp
  | b :: l, k + 1 => by
    have hb : b.toNat < 2 := Bool.toNat_lt b
    have hhigh : (b.toNat + 2 * toNat l) / 2 = toNat l := by omega
    rw [List.drop_succ_cons, toNat_drop l k, toNat, pow_succ', ← Nat.div_div_eq_div_mul, hhigh]

theorem toNat_ofNat : ∀ n v : ℕ, toNat (ofNat n v) = v % 2 ^ n
  | 0, v => by simp [ofNat, toNat, Nat.mod_one]
  | n + 1, v => by
    have hcons : ofNat (n + 1) v = v.testBit 0 :: ofNat n (v / 2) := by
      rw [ofNat, List.range_succ_eq_map, List.map_cons, List.map_map]
      congr 1
      refine List.map_congr_left fun i _ => ?_
      rw [Function.comp_apply, Nat.testBit_succ]
    have hbit : (v.testBit 0).toNat = v % 2 := by
      rw [Nat.testBit_zero]
      rcases Nat.mod_two_eq_zero_or_one v with h | h <;> simp [h]
    rw [hcons, toNat, hbit, toNat_ofNat n, pow_succ', Nat.mod_mul]

/-- **Packed bytes are known by their number.** -/
theorem eq_pack {out : List UInt8} {l : List Bool} (hlen : out.length = (l.length + 7) / 8)
    (hval : Digits.leNat out = toNat l) : out = pack l := by
  apply List.ext_getElem
  · simp [pack, hlen]
  · intro j h1 h2
    apply UInt8.toNat_inj.mp
    have hbyte := Digits.toNat_getD out j h1
    rw [List.getD_eq_getElem _ _ h1, hval, Digits.pow_256, show 256 = 2 ^ 8 by norm_num] at hbyte
    simp only [pack, List.getElem_map, List.getElem_range]
    rw [hbyte, UInt8.toNat_ofNat', toNat_take, toNat_drop, Nat.mod_mod]

end Bits
