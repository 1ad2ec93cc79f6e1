/-
# Constants, return codes and flags

The numbers of `netc.h` and `netc_internal.h`: limits, return codes, packet
and configuration flags, algorithm bytes, and the little-endian loads and
stores of `netc_platform.h`. Sizes (`size_t`) are natural numbers; the one
operation on them that can wrap in the code, a subtraction, is `subSize`.
-/
import Netc.Lib.Mem
import Netc.Lib.Digits

namespace Netc

/-- `NETC_MAX_PACKET_SIZE` -/
def maxPacketSize : ℕ := 65535

/-- `NETC_HEADER_SIZE` -/
def headerSize : ℕ := 8

/-- `NETC_COMPACT_HDR_MIN` -/
def compactHdrMin : ℕ := 2

/-- `NETC_COMPACT_HDR_MAX` -/
def compactHdrMax : ℕ := 4

/-- `NETC_CTX_COUNT`: the number of context buckets. -/
def ctxCount : ℕ := 16

/-- `NETC_BIGRAM_CTX_COUNT` -/
def bigramCtxCount : ℕ := 8

/-- `netc_result_t` -/
inductive Result where
  | ok
  | errNomem
  | errTooBig
  | errCorrupt
  | errDictInvalid
  | errBufSmall
  | errCtxNull
  | errUnsupported
  | errVersion
  | errInvalidArg
  deriving DecidableEq, Repr

/-! ### Packet flags -/

namespace PktFlag

def delta : UInt8 := 0x01
def bigram : UInt8 := 0x02
def passthru : UInt8 := 0x04
def dictId : UInt8 := 0x08
def mreg : UInt8 := 0x10
def rle : UInt8 := 0x20
def x2 : UInt8 := 0x40
def lz77 : UInt8 := 0x80

/-- `flags & m` as a condition. -/
def has (flags m : UInt8) : Bool := flags &&& m != 0

theorem has_or (a b m : UInt8) : has (a ||| b) m = (has a m || has b m) := by
  have h : (a ||| b) &&& m = (a &&& m) ||| (b &&& m) := by
    apply UInt8.toBitVec_inj.mp
    ext i
    simp [Bool.and_or_distrib_right]
  rw [Bool.eq_iff_iff]
  simp only [has, h, bne_iff_ne, ne_eq, UInt8.or_eq_zero_iff, not_and_or, Bool.or_eq_true]

theorem has_and (a c m : UInt8) : has (a &&& c) m = has a (c &&& m) := by simp only [has, UInt8.and_assoc]

end PktFlag

/-! ### Algorithm bytes -/

namespace Alg

def tans : UInt8 := 0x01
def rans : UInt8 := 0x02
def lz77x : UInt8 := 0x03
def tansPctx : UInt8 := 0x04
def lzp : UInt8 := 0x05
def tans10 : UInt8 := 0x06
def passthru : UInt8 := 0xFF

end Alg

/-! ### Configuration flags -/

namespace CfgFlag

def stateful : UInt32 := 0x01
def stateless : UInt32 := 0x02
def delta : UInt32 := 0x04
def bigram : UInt32 := 0x08
def stats : UInt32 := 0x10
def compactHdr : UInt32 := 0x20
def fastCompress : UInt32 := 0x100
def adaptive : UInt32 := 0x200
/-- `NETC_INTERNAL_NO_X2` -/
def noX2 : UInt32 := 0x80000000
/-- `NETC_INTERNAL_SKIP_SR` -/
def skipSr : UInt32 := 0x40000000

/-- `flags & m` as a condition. -/
def has (flags m : UInt32) : Bool := flags &&& m != 0

theorem has_or (a b m : UInt32) : has (a ||| b) m = (has a m || has b m) := by
  have h : (a ||| b) &&& m = (a &&& m) ||| (b &&& m) := by
    apply UInt32.toBitVec_inj.mp
    ext i
    simp [Bool.and_or_distrib_right]
  rw [Bool.eq_iff_iff]
  simp only [has, h, bne_iff_ne, ne_eq, UInt32.or_eq_zero_iff, not_and_or, Bool.or_eq_true]

theorem has_and (a c m : UInt32) : has (a &&& c) m = has a (c &&& m) := by simp only [has, UInt32.and_assoc]

end CfgFlag

/-! ### Buffers -/

/-- A heap block of `size` bytes. -/
structure Block where
  size : ℕ
  byte : ℕ → UInt8

namespace Block

/-- `calloc(1, size)` -/
def zero (size : ℕ) : Block := ⟨size, fun _ => 0⟩

/-- The first `n` bytes, if there are so many. -/
def read (b : Block) (n : ℕ) : Chk (List UInt8) :=
  if n ≤ b.size then .ok (ByteMem.slice b.byte 0 n) else .error .load

/-- The byte at `i`, if there is one. -/
def load (b : Block) (i : ℕ) : Chk UInt8 := if i < b.size then .ok (b.byte i) else .error .load

/-- `bs` copied to `off`. -/
def write (b : Block) (off : ℕ) (bs : List UInt8) : Block := ⟨b.size, ByteMem.write b.byte off bs⟩

@[simp] theorem write_size (b : Block) (off : ℕ) (bs : List UInt8) : (b.write off bs).size = b.size := rfl

end Block

/-- A buffer of the caller's: its bytes, and the end of what has been written to it. -/
structure Out where
  byte : ℕ → UInt8
  top : ℕ

namespace Out

/-- `bs` copied to `off`. -/
def write (d : Out) (off : ℕ) (bs : List UInt8) : Out :=
  ⟨ByteMem.write d.byte off bs, if bs.length = 0 then d.top else max d.top (off + bs.length)⟩

/-- The first `n` bytes. -/
def read (d : Out) (n : ℕ) : List UInt8 := ByteMem.slice d.byte 0 n

@[simp] theorem write_byte (d : Out) (off : ℕ) (bs : List UInt8) :
    (d.write off bs).byte = ByteMem.write d.byte off bs := rfl

@[simp] theorem length_read (d : Out) (n : ℕ) : (d.read n).length = n := by simp [read]

theorem write_top_le {d : Out} {off n : ℕ} {bs : List UInt8} (hd : d.top ≤ n) (h : off + bs.length ≤ n) :
    (d.write off bs).top ≤ n := by
  simp only [write]
  split
  · exact hd
  · omega

/-- What was written to the front is what is read there. -/
theorem read_write (d : Out) {bs : List UInt8} {n : ℕ} (h : bs.length = n) : (d.write 0 bs).read n = bs :=
  ByteMem.slice_write_eq _ _ h

end Out

/-- Writes to a buffer, each at an offset. -/
abbrev Writes := List (ℕ × List UInt8)

/-- The buffer after writes to it from `base` on. -/
def Out.applyWrites (dst : Out) (base : ℕ) (ws : Writes) : Out :=
  ws.foldl (fun d w => d.write (base + w.1) w.2) dst

namespace Writes

/-- All writes end at `n`. -/
def Within (n : ℕ) (ws : Writes) : Prop := ∀ w ∈ ws, w.1 + w.2.length ≤ n

/-- Some write reaches byte `i`. -/
def Covers (ws : Writes) (i : ℕ) : Prop := ∃ w ∈ ws, w.1 ≤ i ∧ i < w.1 + w.2.length

theorem within_nil (n : ℕ) : Within n [] := by simp [Within]

theorem within_cons {n : ℕ} {w : ℕ × List UInt8} {ws : Writes} :
    Within n (w :: ws) ↔ w.1 + w.2.length ≤ n ∧ Within n ws := by simp [Within]

theorem within_append {n : ℕ} {ws ws' : Writes} : Within n (ws ++ ws') ↔ Within n ws ∧ Within n ws' := by
  simp only [Within, List.mem_append]
  exact ⟨fun h => ⟨fun w hw => h w (.inl hw), fun w hw => h w (.inr hw)⟩,
    fun h w hw => hw.elim (h.1 w) (h.2 w)⟩

end Writes

namespace Out

@[simp] theorem applyWrites_nil (dst : Out) (base : ℕ) : dst.applyWrites base [] = dst := rfl

@[simp] theorem applyWrites_cons (dst : Out) (base : ℕ) (w : ℕ × List UInt8) (ws : Writes) :
    dst.applyWrites base (w :: ws) = (dst.write (base + w.1) w.2).applyWrites base ws := rfl

theorem applyWrites_top_le {base n : ℕ} : ∀ {ws : Writes} {dst : Out}, dst.top ≤ base + n → ws.Within n →
    (dst.applyWrites base ws).top ≤ base + n
  | [], _, hd, _ => hd
  | w :: ws, dst, hd, h => by
    rw [Writes.within_cons] at h
    rw [applyWrites_cons]
    exact applyWrites_top_le (write_top_le hd (by omega)) h.2

/-- Bytes no write reaches are as before. -/
theorem applyWrites_of_not_covers : ∀ {ws : Writes} {dst : Out} {i : ℕ}, ¬ws.Covers i →
    (dst.applyWrites 0 ws).byte i = dst.byte i
  | [], _, _, _ => rfl
  | w :: ws, dst, i, h => by
    have hw : ¬(w.1 ≤ i ∧ i < w.1 + w.2.length) := fun hi => h ⟨w, by simp, hi⟩
    have hws : ¬Writes.Covers ws i := fun ⟨v, hv, hi⟩ => h ⟨v, by simp [hv], hi⟩
    rw [applyWrites_cons, applyWrites_of_not_covers hws, write_byte, Nat.zero_add, ByteMem.write, if_neg hw]

/-- Bytes some write reaches do not depend on what was there before. -/
theorem applyWrites_of_covers : ∀ {ws : Writes} {dst dst' : Out} {i : ℕ}, ws.Covers i →
    (dst.applyWrites 0 ws).byte i = (dst'.applyWrites 0 ws).byte i
  | [], _, _, _, ⟨_, hw, _⟩ => by simp at hw
  | w :: ws, dst, dst', i, h => by
    rw [applyWrites_cons, applyWrites_cons]
    by_cases hws : Writes.Covers ws i
    · exact applyWrites_of_covers hws
    · rw [applyWrites_of_not_covers hws, applyWrites_of_not_covers hws, write_byte, write_byte, Nat.zero_add]
      obtain ⟨v, hv, hi⟩ := h
      rcases List.mem_cons.mp hv with rfl | hv
      · rw [ByteMem.write_of_mem hi.1 hi.2, ByteMem.write_of_mem hi.1 hi.2]
      · exact absurd ⟨v, hv, hi⟩ hws

end Out

/-- What a stateless call leaves: its return code, the caller's buffer and `*dst_size`. -/
structure StatelessRet where
  code : Result
  dst : Out
  dstSize : ℕ

/-! ### Sizes, loads and stores -/

/-- `a - b` on `size_t`. -/
def subSize (a b : ℕ) : ℕ := if b ≤ a then a - b else 2 ^ 64 - (b - a)

theorem subSize_of_le {a b : ℕ} (h : b ≤ a) : subSize a b = a - b := if_pos h

/-- `a - b` on `uint32_t`. -/
def subU32 (a b : ℕ) : ℕ := (a + 2 ^ 32 - b) % 2 ^ 32

theorem subU32_of_le {a b : ℕ} (h : b ≤ a) (ha : a < 2 ^ 32) : subU32 a b = a - b := by
  rw [subU32]
  omega

/-- A byte below 128 is told by its top bit. -/
theorem lowByte {n : ℕ} (h : n < 128) : UInt8.ofNat n &&& 0x80 = 0 ∧ (UInt8.ofNat n &&& 0x7F).toNat = n := by
  have hall : ∀ n < 128, UInt8.ofNat n &&& 0x80 = 0 ∧ (UInt8.ofNat n &&& 0x7F).toNat = n := by decide
  exact hall n h

/-- `netc_write_u16_le` -/
def writeU16Le (v : ℕ) : List UInt8 := Digits.leBytes 2 v

/-- `netc_write_u32_le` -/
def writeU32Le (v : ℕ) : List UInt8 := Digits.leBytes 4 v

/-- `netc_read_u16_le` of the two bytes of `l` at `i`. -/
def readU16Le (l : List UInt8) (i : ℕ) : Chk ℕ := do
  let b0 ← Chk.get l i
  let b1 ← Chk.get l (i + 1)
  return b0.toNat ||| b1.toNat <<< 8

/-- `netc_read_u32_le` of the four bytes of `l` at `i`. -/
def readU32Le (l : List UInt8) (i : ℕ) : Chk ℕ := do
  let b0 ← Chk.get l i
  let b1 ← Chk.get l (i + 1)
  let b2 ← Chk.get l (i + 2)
  let b3 ← Chk.get l (i + 3)
  return b0.toNat ||| b1.toNat <<< 8 ||| b2.toNat <<< 16 ||| b3.toNat <<< 24

/-- Four bytes shifted into place and or-ed are their weighted sum. -/
theorem or_bytes {a b c : ℕ} (d : ℕ) (ha : a < 2 ^ 8) (hb : b < 2 ^ 8) (hc : c < 2 ^ 8) :
    a ||| b <<< 8 ||| c <<< 16 ||| d <<< 24 = a + b * 2 ^ 8 + c * 2 ^ 16 + d * 2 ^ 24 := by
  rw [Digits.or_shiftLeft b ha, Digits.or_shiftLeft c (show a + b * 2 ^ 8 < 2 ^ 16 by omega)]
  exact Digits.or_shiftLeft d (by omega)

section Loads

variable {l : List UInt8} {i : ℕ}

theorem readU16Le_lt (h : i + 2 ≤ l.length) : ∃ v, readU16Le l i = .ok v ∧ v < 2 ^ 16 := by
  refine ⟨_, by
    rw [readU16Le, Chk.get_of_lt (show i < l.length by omega)]
    rw [Exc.ok_bind, Chk.get_of_lt (show i + 1 < l.length by omega)]
    rfl, ?_⟩
  have h0 : l[i].toNat < 2 ^ 8 := UInt8.toNat_lt _
  have h1 : l[i + 1].toNat < 2 ^ 8 := UInt8.toNat_lt _
  rw [Digits.or_shiftLeft _ h0]
  omega

theorem readU32Le_lt (h : i + 4 ≤ l.length) : ∃ v, readU32Le l i = .ok v ∧ v < 2 ^ 32 := by
  refine ⟨_, by
    rw [readU32Le, Chk.get_of_lt (show i < l.length by omega)]
    rw [Exc.ok_bind, Chk.get_of_lt (show i + 1 < l.length by omega)]
    rw [Exc.ok_bind, Chk.get_of_lt (show i + 2 < l.length by omega)]
    rw [Exc.ok_bind, Chk.get_of_lt (show i + 3 < l.length by omega)]
    rfl, ?_⟩
  have h0 : l[i].toNat < 2 ^ 8 := UInt8.toNat_lt _
  have h1 : l[i + 1].toNat < 2 ^ 8 := UInt8.toNat_lt _
  have h2 : l[i + 2].toNat < 2 ^ 8 := UInt8.toNat_lt _
  have h3 : l[i + 3].toNat < 2 ^ 8 := UInt8.toNat_lt _
  rw [or_bytes _ h0 h1 h2]
  omega

end Loads

/-- What a 16-bit store wrote is what the load reads, wherever it stands. -/
theorem readU16Le_write (a b : List UInt8) {v : ℕ} (hv : v < 2 ^ 16) :
    readU16Le (a ++ (writeU16Le v ++ b)) a.length = .ok v := by
  have h0 : v % 256 % 2 ^ 8 = v % 256 := by omega
  have h1 : v / 256 % 256 % 2 ^ 8 = v / 256 := by omega
  simp only [readU16Le, writeU16Le, Digits.leBytes, Chk.get, List.getElem?_append_right (Nat.le_refl _),
    List.getElem?_append_right (Nat.le_add_right _ 1), Nat.sub_self, Nat.add_sub_cancel_left,
    List.cons_append, List.getElem?_cons_zero, List.getElem?_cons_succ, Exc.ok_bind, Exc.pure_eq,
    UInt8.toNat_ofNat', h0, h1]
  rw [Digits.or_shiftLeft _ (by omega)]
  congr 1
  omega

/-- What a 32-bit store wrote is what the load reads, wherever it stands. -/
theorem readU32Le_write (a b : List UInt8) {v : ℕ} (hv : v < 2 ^ 32) :
    readU32Le (a ++ (writeU32Le v ++ b)) a.length = .ok v := by
  have h0 : v % 256 % 2 ^ 8 = v % 256 := by omega
  have h1 : v / 256 % 256 % 2 ^ 8 = v / 256 % 256 := by omega
  have h2 : v / 256 / 256 % 256 % 2 ^ 8 = v / 65536 % 256 := by omega
  have h3 : v / 256 / 256 / 256 % 256 % 2 ^ 8 = v / 16777216 := by omega
  simp only [readU32Le, writeU32Le, Digits.leBytes, Chk.get, List.getElem?_append_right (Nat.le_refl _),
    List.getElem?_append_right (Nat.le_add_right _ _), Nat.sub_self, Nat.add_sub_cancel_left,
    List.cons_append, List.getElem?_cons_zero, List.getElem?_cons_succ, Exc.ok_bind, Exc.pure_eq,
    UInt8.toNat_ofNat', h0, h1, h2, h3]
  rw [or_bytes _ (by omega) (by omega) (by omega)]
  congr 1
  omega

@[simp] theorem length_writeU16Le (v : ℕ) : (writeU16Le v).length = 2 := by simp [writeU16Le]

@[simp] theorem length_writeU32Le (v : ℕ) : (writeU32Le v).length = 4 := by simp [writeU32Le]

end Netc
