/-
# The bit stream of `netc_bitstream.h`

The writer packs values low bit first and ends the stream with a 1 bit; the
reader starts from that bit and hands the values back in reverse order. Seen
as numbers: a writer that holds `T` bits of value `V` (`Bsw.Holds`) holds
`V + v * 2 ^ T` after writing `v`, and a reader over `T` bits of value `V`
(`Bsr.Shows`) reads off the top bits of `V`.

Key definitions: `Bsw`, `bswInit`, `bswWrite`, `bswFlush`, `Bsr`, `bsrInit`, `bsrRead`.
Key theorems: `bswWrite_holds`, `bswFlush_holds`, `bsrInit_shows`,
`bsrRead_shows`, `bsrRead_wf`.
-/
import Netc.Basic
import Netc.Lib.Loop

namespace Netc

/-! ### Writer -/

/-- `netc_bsw_t`: `out` is what stands between `start` and `ptr`, `cap` the
distance from `start` to `end`, or 0 if `end` lies before `start`. -/
structure Bsw where
  out : List UInt8
  cap : ℕ
  accum : ℕ
  bits : ℕ
  deriving DecidableEq, Repr

/-- `netc_bsw_init` on a buffer with room for `cap` bytes. -/
def bswInit (cap : ℕ) : Bsw := ⟨[], cap, 0, 0⟩

/-- `netc_bsw_init` on a buffer at the address `buf`, for any `size_t`: `end = buf + cap` is
computed modulo 2 ^ 64, and nothing is stored before an `end` that lies before `buf`. -/
def bswInitAt (buf cap : ℕ) : Bsw := bswInit ((buf + cap) % 2 ^ 64 - buf)

/-- `netc_bsw_write`; an error is the `-1` with the writer it leaves behind. -/
def bswWrite (w : Bsw) (v nb : ℕ) : Except Bsw Bsw :=
  let accum := (w.accum ||| v <<< w.bits) % 2 ^ 64
  let bits := w.bits + nb
  if 32 ≤ bits then
    if w.cap < w.out.length + 4 then .error { w with accum, bits }
    else .ok { w with
      out := w.out ++ Digits.leBytes 4 (accum % 2 ^ 32)
      accum := accum >>> 32
      bits := bits - 32 }
  else .ok { w with accum, bits }

/-- One round of the loop of `netc_bsw_flush`. -/
def bswFlushByte (w : Bsw) : Except Bsw Bsw :=
  if w.cap ≤ w.out.length then .error w
  else .ok { w with
    out := w.out ++ [UInt8.ofNat (w.accum % 256)]
    accum := w.accum >>> 8
    bits := w.bits - 8 }

/-- `netc_bsw_flush`: the writer after it; the size it returns is `out.length`. -/
def bswFlush (w : Bsw) : Except Bsw Bsw :=
  let w := { w with accum := (w.accum ||| 1 <<< w.bits) % 2 ^ 64, bits := w.bits + 1 }
  Loop.run (fun w => decide (0 < w.bits)) bswFlushByte w.bits w

/-- The writer holds `T` bits of value `V`. -/
structure Bsw.Holds (w : Bsw) (T V : ℕ) : Prop where
  length : 8 * w.out.length + w.bits = T
  value : Digits.leNat w.out + 2 ^ (8 * w.out.length) * w.accum = V
  accum_lt : w.accum < 2 ^ w.bits
  bits_lt : w.bits < 32
  fits : w.out.length ≤ w.cap

theorem bswInit_holds (cap : ℕ) : (bswInit cap).Holds 0 0 :=
  ⟨rfl, by simp [bswInit, Digits.leNat], by simp [bswInit], by simp [bswInit], by simp [bswInit]⟩

/-- A writer `k + n` bytes into a buffer of `cap` bytes ends where the buffer does, also if the
capacity it is given, `cap - k - n`, has wrapped: then it has no room. -/
theorem bswInitAt_subSize {dst cap k n : ℕ} (hdst : dst + cap < 2 ^ 64) (hk : k < 2 ^ 64) (hn : n ≤ subSize cap k) :
    bswInitAt (dst + k + n) (subSize cap k - n) = bswInit (cap - k - n) := by
  have hend : dst + k + n + (subSize cap k - n) = dst + k + subSize cap k := by omega
  unfold bswInitAt
  rw [hend]
  congr 1
  unfold subSize
  split
  · next hle =>
    rw [Nat.mod_eq_of_lt (by omega)]
    omega
  · next hlt =>
    rw [show dst + k + (2 ^ 64 - (k - cap)) = dst + cap + 2 ^ 64 by omega, Nat.add_mod_right, Nat.mod_eq_of_lt hdst]
    omega

section Writer

variable {w w' : Bsw} {T V v nb : ℕ}

theorem Bsw.Holds.lt (h : w.Holds T V) : V < 2 ^ T := by
  obtain ⟨rfl, rfl, ha, -, -⟩ := h
  have h1 := Digits.leNat_lt_two_pow w.out
  calc Digits.leNat w.out + 2 ^ (8 * w.out.length) * w.accum
      < 2 ^ (8 * w.out.length) * (w.accum + 1) := by rw [mul_add]; omega
    _ ≤ 2 ^ (8 * w.out.length) * 2 ^ w.bits := Nat.mul_le_mul_left _ ha
    _ = 2 ^ (8 * w.out.length + w.bits) := (pow_add ..).symm

/-- Or-ing a value in above the bits of the accumulator adds it there. -/
theorem accum_or (ha : w.accum < 2 ^ w.bits) (hb : w.bits < 32) (hv : v < 2 ^ nb) (hn : nb ≤ 32) :
    (w.accum ||| v <<< w.bits) % 2 ^ 64 = w.accum + v * 2 ^ w.bits ∧
      w.accum + v * 2 ^ w.bits < 2 ^ (w.bits + nb) := by
  have h1 : w.accum + v * 2 ^ w.bits < 2 ^ (w.bits + nb) := by
    calc w.accum + v * 2 ^ w.bits < (v + 1) * 2 ^ w.bits := by rw [add_mul]; omega
      _ ≤ 2 ^ nb * 2 ^ w.bits := Nat.mul_le_mul_right _ hv
      _ = 2 ^ (w.bits + nb) := by rw [← pow_add, Nat.add_comm]
  refine ⟨?_, h1⟩
  rw [Digits.or_shiftLeft v ha, Nat.mod_eq_of_lt]
  exact lt_of_lt_of_le h1 (Nat.pow_le_pow_right (by norm_num) (by omega))

/-- A write that succeeds puts its bits on top. -/
theorem bswWrite_holds (h : w.Holds T V) (hv : v < 2 ^ nb) (hn : nb ≤ 32) (hw : bswWrite w v nb = .ok w') :
    w'.Holds (T + nb) (V + v * 2 ^ T) ∧ w'.cap = w.cap := by
  obtain ⟨rfl, rfl, ha, hb, hf⟩ := h
  obtain ⟨h1, h2⟩ := accum_or ha hb hv hn
  simp only [bswWrite, h1] at hw
  have hpow : 2 ^ (8 * w.out.length + w.bits) = 2 ^ (8 * w.out.length) * 2 ^ w.bits := pow_add ..
  split at hw
  · next hge =>
    split at hw
    · cases hw
    · next hcap =>
      cases hw
      refine ⟨⟨?_, ?_, ?_, ?_, ?_⟩, rfl⟩
      · simp only [List.length_append, Digits.length_leBytes]
        omega
      · simp only [Digits.leNat_append, List.length_append, Digits.length_leBytes, Digits.leNat_leBytes,
          Nat.shiftRight_eq_div_pow]
        rw [show (256 : ℕ) ^ 4 = 2 ^ 32 by norm_num, Nat.mod_mod, Digits.pow_256, Nat.mul_add, pow_add, hpow]
        have := Nat.div_add_mod (w.accum + v * 2 ^ w.bits) (2 ^ 32)
        rw [show 8 * 4 = 32 by rfl, mul_assoc (2 ^ (8 * w.out.length)) (2 ^ 32), add_assoc, ← Nat.mul_add,
          Nat.add_comm (_ % _), this]
        ring
      · rw [Nat.shiftRight_eq_div_pow, Nat.div_lt_iff_lt_mul (by positivity), ← pow_add]
        simpa [Nat.sub_add_cancel hge] using h2
      · simp only
        omega
      · simp only [List.length_append, Digits.length_leBytes]
        omega
  · next hlt =>
    cases hw
    refine ⟨⟨by simp only; omega, ?_, h2, by simpa using hlt, hf⟩, rfl⟩
    simp only [hpow]
    ring

/-- A write succeeds when the buffer can hold the bits and the closing bit. -/
theorem bswWrite_ok (h : w.Holds T V) (hcap : (T + nb) / 8 + 1 ≤ w.cap) : ∃ w', bswWrite w v nb = .ok w' := by
  have := h.length
  simp only [bswWrite]
  split
  · rw [if_neg (by omega)]
    exact ⟨_, rfl⟩
  · exact ⟨_, rfl⟩

/-- The loop of the flush writes out what the accumulator holds. -/
theorem bswFlush_run : ∀ (n : ℕ) (w w' : Bsw), w.bits ≤ n → w.accum < 2 ^ w.bits → w.out.length ≤ w.cap →
    Loop.run (fun w => decide (0 < w.bits)) bswFlushByte n w = .ok w' →
    Digits.leNat w'.out = Digits.leNat w.out + 2 ^ (8 * w.out.length) * w.accum ∧
      w'.out.length = w.out.length + (w.bits + 7) / 8 ∧ w'.out.length ≤ w.cap
  | 0, w, w', hn, ha, hf, h => by
    have h0 : w.bits = 0 := by omega
    rw [h0] at ha
    cases h
    have : w.accum = 0 := by omega
    simp [this, h0, hf]
  | n + 1, w, w', hn, ha, hf, h => by
    by_cases h0 : w.bits = 0
    · rw [Loop.run_false _ (by simp [h0])] at h
      cases h
      rw [h0] at ha
      have : w.accum = 0 := by omega
      simp [this, h0, hf]
    · by_cases hc : w.cap ≤ w.out.length
      · rw [Loop.run_error n (by simpa using Nat.pos_of_ne_zero h0) (by rw [bswFlushByte, if_pos hc])] at h
        cases h
      · rw [Loop.run_succ n (by simpa using Nat.pos_of_ne_zero h0) (by rw [bswFlushByte, if_neg hc])] at h
        have ha' : w.accum >>> 8 < 2 ^ (w.bits - 8) := by
          rw [Nat.shiftRight_eq_div_pow, Nat.div_lt_iff_lt_mul (by positivity), ← pow_add]
          exact lt_of_lt_of_le ha (Nat.pow_le_pow_right (by norm_num) (by omega))
        obtain ⟨h1, h2, h3⟩ := bswFlush_run n _ w' (by simp only; omega) ha' (by simp; omega) h
        have hb : (UInt8.ofNat (w.accum % 256)).toNat = w.accum % 256 :=
          UInt8.toNat_ofNat_of_lt' (Nat.mod_lt _ (by norm_num))
        refine ⟨?_, ?_, h3⟩
        · simp only [Digits.leNat_append, Digits.leNat, hb, List.length_append, List.length_cons,
            List.length_nil, Nat.shiftRight_eq_div_pow, Nat.mul_zero, Nat.add_zero, Nat.zero_add] at h1
          rw [h1, Digits.pow_256, Nat.mul_add, pow_add, mul_assoc (2 ^ (8 * w.out.length)), add_assoc,
            ← Nat.mul_add, Nat.mul_one, show 256 = 2 ^ 8 by norm_num, Nat.mod_add_div]
        · simp only [List.length_append, List.length_cons, List.length_nil] at h2
          omega

/-- **Flush.** The stream spells the value with the closing bit on top, in
as many bytes as that takes. -/
theorem bswFlush_holds (h : w.Holds T V) (hw : bswFlush w = .ok w') :
    Digits.leNat w'.out = V + 2 ^ T ∧ w'.out.length = T / 8 + 1 ∧ w'.out.length ≤ w.cap := by
  obtain ⟨rfl, rfl, ha, hb, hf⟩ := h
  obtain ⟨h1, h2⟩ := @accum_or _ 1 1 ha hb (by norm_num) (by norm_num)
  simp only [bswFlush, h1] at hw
  obtain ⟨h3, h4, h5⟩ := bswFlush_run (w.bits + 1) ⟨w.out, w.cap, w.accum + 1 * 2 ^ w.bits, w.bits + 1⟩ w'
    (Nat.le_refl _) h2 hf hw
  refine ⟨?_, ?_, h5⟩
  · rw [h3, pow_add]
    ring
  · simp only at h4
    omega

/-- The flush succeeds when the buffer can hold the bits and the closing bit. -/
theorem bswFlush_ok (h : w.Holds T V) (hcap : T / 8 + 1 ≤ w.cap) : ∃ w', bswFlush w = .ok w' := by
  have hlen := h.length
  have key : ∀ (n : ℕ) (u : Bsw), u.bits ≤ n → u.out.length + (u.bits + 7) / 8 ≤ u.cap →
      ∃ w', Loop.run (fun w => decide (0 < w.bits)) bswFlushByte n u = .ok w' := by
    intro n
    induction n with
    | zero => exact fun u _ _ => ⟨u, rfl⟩
    | succ n ih =>
      intro u hn hu
      by_cases h0 : u.bits = 0
      · exact ⟨u, Loop.run_false _ (by simp [h0])⟩
      · rw [Loop.run_succ n (by simpa using Nat.pos_of_ne_zero h0) (by rw [bswFlushByte, if_neg (by omega)])]
        exact ih _ (by simp only; omega) (by simp; omega)
  exact key _ _ (Nat.le_refl _) (by simp only; omega)

end Writer

/-! ### Reader -/

/-- `netc_bsr_t`: `buf` is the buffer that starts at `start`, `ptr` the
distance of `ptr` from it. -/
structure Bsr where
  buf : List UInt8
  ptr : ℕ
  accum : ℕ
  bits : ℤ
  deriving DecidableEq, Repr

/-- `netc_bsr__floorlog2_byte`, for a byte that is not 0. -/
def floorlog2Byte (v : UInt8) : ℕ := Nat.log2 v.toNat

/-- The branches of `netc_bsr__floorlog2_byte`. -/
def floorlog2ByteBranches (v : UInt8) : ℕ :=
  let (v, n) := if v &&& 0xF0 ≠ 0 then (v >>> 4, 4) else (v, 0)
  let (v, n) := if v &&& 0x0C ≠ 0 then (v >>> 2, n + 2) else (v, n)
  if v &&& 0x02 ≠ 0 then n + 1 else n

theorem floorlog2ByteBranches_eq (v : UInt8) : floorlog2ByteBranches v = floorlog2Byte v := by
  have hall : ∀ n < 256, floorlog2ByteBranches (UInt8.ofNat n) = floorlog2Byte (UInt8.ofNat n) := by decide +kernel
  have h := hall v.toNat (UInt8.toNat_lt v)
  rwa [UInt8.ofNat_toNat] at h

/-- The refill loop of `netc_bsr_consume`. A shift by more than 63 (it takes a
stream without a closing bit to get there) is by its low six bits. -/
def bsrRefill (buf : List UInt8) : ℕ → ℕ → ℤ → Chk Bsr
  | 0, accum, bits => .ok ⟨buf, 0, accum, bits⟩
  | p + 1, accum, bits =>
    if bits ≤ 56 then do
      let b ← Chk.get buf p
      bsrRefill buf p ((accum ||| b.toNat <<< ((56 - bits).toNat % 64)) % 2 ^ 64) (bits + 8)
    else .ok ⟨buf, p + 1, accum, bits⟩

/-- The bytes `netc_bsr_init` loads, as a number. -/
def bsrLoad (buf : List UInt8) (at0 fill : ℕ) : Chk ℕ :=
  (List.range fill).foldlM (fun raw i => do
    let b ← Chk.get buf (at0 + i)
    return raw ||| b.toNat <<< (i * 8)) 0

/-- `netc_bsr_init` -/
def bsrInit (buf : List UInt8) : Chk Bsr :=
  let size := buf.length
  if size = 0 then .ok ⟨buf, 0, 0, 0⟩
  else do
    let fill := if size < 8 then size else 8
    let ptr := size - fill
    let raw ← bsrLoad buf ptr fill
    let totalBits := fill * 8
    let accum := raw <<< (64 - totalBits) % 2 ^ 64
    let lastByte := UInt8.ofNat (accum >>> 56)
    if lastByte = 0 then return ⟨buf, ptr, accum, 0⟩
    let leadZeros := 7 - floorlog2Byte lastByte
    let skip := leadZeros + 1
    return ⟨buf, ptr, accum <<< skip % 2 ^ 64, max ((totalBits : ℤ) - skip) 0⟩

/-- `netc_bsr_peek` -/
def bsrPeek (r : Bsr) (nb : ℕ) : ℕ := r.accum >>> (64 - nb) % 2 ^ 32

/-- `netc_bsr_consume`: the reader after it; `bits` below 0 is the `-1`. -/
def bsrConsume (r : Bsr) (nb : ℕ) : Chk Bsr :=
  bsrRefill r.buf r.ptr (r.accum <<< nb % 2 ^ 64) (r.bits - nb)

/-- `netc_bsr_read`: the value, or nothing on underflow, and the reader after it. -/
def bsrRead (r : Bsr) (nb : ℕ) : Chk (Option ℕ × Bsr) := do
  let out := bsrPeek r nb
  let r ← bsrConsume r nb
  return (if 0 ≤ r.bits then some out else none, r)

/-! ### Reading stays inside the buffer -/

/-- The reader's next load is inside its buffer, its accumulator a 64-bit word. -/
structure Bsr.Wf (r : Bsr) : Prop where
  ptr_le : r.ptr ≤ r.buf.length
  accum_lt : r.accum < 2 ^ 64

theorem bsrRefill_wf (buf : List UInt8) : ∀ (p accum : ℕ) (bits : ℤ), p ≤ buf.length → accum < 2 ^ 64 →
    ∃ r, bsrRefill buf p accum bits = .ok r ∧ r.Wf
  | 0, accum, bits, _, ha => ⟨_, rfl, ⟨Nat.zero_le _, ha⟩⟩
  | p + 1, accum, bits, h, ha => by
    rw [bsrRefill]
    split
    · rw [Chk.get_of_lt (show p < buf.length by omega)]
      exact bsrRefill_wf buf p _ _ (by omega) (Nat.mod_lt _ (by norm_num))
    · exact ⟨_, rfl, ⟨h, ha⟩⟩

/-- A read stays in the buffer and gives a value of the width read. -/
theorem bsrRead_wf {r : Bsr} (h : r.Wf) {nb : ℕ} (hnb : nb ≤ 32) :
    ∃ o r', bsrRead r nb = .ok (o, r') ∧ r'.Wf ∧ ∀ v, o = some v → v < 2 ^ nb := by
  obtain ⟨r', h1, h2⟩ := bsrRefill_wf r.buf r.ptr (r.accum <<< nb % 2 ^ 64) (r.bits - nb) h.ptr_le
    (Nat.mod_lt _ (by norm_num))
  have hpeek : bsrPeek r nb < 2 ^ nb := by
    rw [bsrPeek, Nat.shiftRight_eq_div_pow]
    refine lt_of_le_of_lt (Nat.mod_le _ _) ?_
    rw [Nat.div_lt_iff_lt_mul (by positivity), ← pow_add, Nat.add_sub_cancel' (by omega)]
    exact h.accum_lt
  refine ⟨_, r', by rw [bsrRead, bsrConsume, h1]; rfl, h2, fun v hv => ?_⟩
  split at hv
  · cases hv
    exact hpeek
  · cases hv

/-- The initial load reads the last `fill` bytes. -/
theorem bsrLoad_eq (buf : List UInt8) (at0 : ℕ) : ∀ fill, at0 + fill ≤ buf.length →
    bsrLoad buf at0 fill = .ok (Digits.leNat ((buf.drop at0).take fill))
  | 0, _ => by simp [bsrLoad, Digits.leNat]
  | fill + 1, h => by
    have hb : (buf.drop at0)[fill]? = buf[at0 + fill]? := by rw [List.getElem?_drop]
    have ih := bsrLoad_eq buf at0 fill (by omega)
    unfold bsrLoad at ih ⊢
    rw [List.range_succ, List.foldlM_append, ih]
    simp only [List.foldlM_cons, List.foldlM_nil, Exc.ok_bind, Exc.pure_eq,
      Chk.get_of_lt (show at0 + fill < buf.length by omega)]
    have hlt := Digits.leNat_lt ((buf.drop at0).take fill)
    have hl : ((buf.drop at0).take fill).length = fill := by rw [List.length_take, List.length_drop]; omega
    rw [hl, Digits.pow_256, Nat.mul_comm] at hlt
    rw [Digits.or_shiftLeft _ hlt, List.take_add_one, hb, List.getElem?_eq_getElem (by omega),
      Digits.leNat_append, hl]
    simp only [Option.toList_some, Digits.leNat]
    rw [Digits.pow_256, Nat.mul_comm fill 8]
    congr 1
    ring

theorem bsrInit_wf (buf : List UInt8) : ∃ r, bsrInit buf = .ok r ∧ r.Wf := by
  rw [bsrInit]
  simp only
  split
  · exact ⟨_, rfl, ⟨Nat.zero_le _, by norm_num⟩⟩
  · have hfill : (if buf.length < 8 then buf.length else 8) ≤ buf.length := by split <;> omega
    rw [bsrLoad_eq _ _ _ (by omega), Exc.ok_bind]
    generalize (if buf.length < 8 then buf.length else 8) = fill
    split
    · refine ⟨_, rfl, ?_, ?_⟩
      · exact Nat.sub_le _ _
      · exact Nat.mod_lt _ (by norm_num)
    · refine ⟨_, rfl, ?_, ?_⟩
      · exact Nat.sub_le _ _
      · exact Nat.mod_lt _ (by norm_num)

/-! ### Reading back what was written -/

/-- The reader has `T` bits of value `V` to hand out, the top ones first: its
accumulator holds the part of `V` above the bytes not loaded yet. -/
structure Bsr.Shows (r : Bsr) (T V : ℕ) : Prop where
  wf : r.ptr ≤ r.buf.length
  length : (8 * r.ptr : ℤ) + r.bits = T
  nonneg : 0 ≤ r.bits
  bits_le : r.bits ≤ 64
  full : r.ptr = 0 ∨ 56 ≤ r.bits
  value_lt : V < 2 ^ T
  low : V % 2 ^ (8 * r.ptr) = Digits.leNat (r.buf.take r.ptr)
  accum_eq : r.accum = V / 2 ^ (8 * r.ptr) * 2 ^ (64 - r.bits.toNat)

/-- A number of `b` bits at the top of a word of `n`. -/
theorem mul_pow_sub_lt {a b n : ℕ} (h : a < 2 ^ b) (hb : b ≤ n) : a * 2 ^ (n - b) < 2 ^ n := by
  calc a * 2 ^ (n - b) < 2 ^ b * 2 ^ (n - b) := Nat.mul_lt_mul_of_pos_right h (by positivity)
    _ = 2 ^ n := by rw [← pow_add]; congr 1; omega

/-- The byte before the part of `V` above `p + 1` bytes is its next digit. -/
theorem low_succ {buf : List UInt8} {V p : ℕ} (hp : p < buf.length)
    (hlow : V % 2 ^ (8 * (p + 1)) = Digits.leNat (buf.take (p + 1))) :
    V % 2 ^ (8 * p) = Digits.leNat (buf.take p) ∧
      V / 2 ^ (8 * p) = V / 2 ^ (8 * (p + 1)) * 2 ^ 8 + buf[p].toNat := by
  have hsplit : 2 ^ (8 * (p + 1)) = 2 ^ (8 * p) * 2 ^ 8 := by rw [← pow_add]; ring_nf
  have hmod := Digits.leNat_take (buf.take (p + 1)) p (by rw [List.length_take]; omega)
  rw [List.take_take, Nat.min_eq_left (Nat.le_succ p), ← hlow, Digits.pow_256, hsplit, Nat.mod_mul_right_mod] at hmod
  have hdig := Digits.toNat_getD (buf.take (p + 1)) p (by rw [List.length_take]; omega)
  have hbyte : (buf.take (p + 1)).getD p 0 = buf[p] := by
    rw [List.getD_eq_getElem _ _ (by rw [List.length_take]; omega), List.getElem_take]
  rw [← hlow, hbyte, Digits.pow_256, hsplit, Nat.mod_mul, Nat.add_mul_div_left _ _ (by positivity),
    Nat.div_eq_of_lt (Nat.mod_lt _ (by positivity)), Nat.zero_add, show (256 : ℕ) = 2 ^ 8 by norm_num,
    Nat.mod_mod] at hdig
  refine ⟨hmod.symm, ?_⟩
  rw [hdig, hsplit, ← Nat.div_div_eq_div_mul, Nat.div_add_mod' _ (2 ^ 8)]

/-- A byte put below the `bits` bits of an accumulator. -/
theorem accum_refill {A b bits : ℕ} (hb : b < 2 ^ 8) (h56 : bits ≤ 56) (hlt : A * 2 ^ 8 + b < 2 ^ (bits + 8)) :
    (A * 2 ^ (64 - bits) ||| b <<< (56 - bits)) % 2 ^ 64 = (A * 2 ^ 8 + b) * 2 ^ (64 - (bits + 8)) := by
  have hroom : b * 2 ^ (56 - bits) < 2 ^ (8 + (56 - bits)) := by
    rw [pow_add]
    exact Nat.mul_lt_mul_of_pos_right hb (by positivity)
  have hsum : A * 2 ^ (8 + (56 - bits)) + b * 2 ^ (56 - bits) = (A * 2 ^ 8 + b) * 2 ^ (64 - (bits + 8)) := by
    rw [show 64 - (bits + 8) = 56 - bits by omega, pow_add]
    ring
  rw [show 64 - bits = 8 + (56 - bits) by omega, Nat.shiftLeft_eq, Digits.mul_or _ hroom, hsum,
    Nat.mod_eq_of_lt (mul_pow_sub_lt hlt (by omega))]

/-- Refilling keeps what the reader shows and leaves the accumulator full. -/
theorem bsrRefill_shows (buf : List UInt8) {T V : ℕ} (hV : V < 2 ^ T) : ∀ (p accum : ℕ) (bits : ℕ),
    p ≤ buf.length → 8 * p + bits = T → bits ≤ 64 → V % 2 ^ (8 * p) = Digits.leNat (buf.take p) →
    accum = V / 2 ^ (8 * p) * 2 ^ (64 - bits) →
    ∃ r, bsrRefill buf p accum bits = .ok r ∧ r.Shows T V ∧ r.buf = buf
  | 0, accum, bits, hp, hT, hb, hlow, hacc =>
    ⟨_, rfl, ⟨hp, by simp; omega, by simp, by simpa using hb, .inl rfl, hV, hlow, by simpa using hacc⟩, rfl⟩
  | p + 1, accum, bits, hp, hT, hb, hlow, hacc => by
    rw [bsrRefill]
    split
    · next h56 =>
      have h56 : bits ≤ 56 := by exact_mod_cast h56
      have hsh : ((56 : ℤ) - bits).toNat % 64 = 56 - bits := by omega
      -- the byte loaded is the digit of `V` just below the accumulator's part
      obtain ⟨hlow', hdec⟩ := low_succ (show p < buf.length by omega) hlow
      have hlt : V / 2 ^ (8 * (p + 1)) * 2 ^ 8 + buf[p].toNat < 2 ^ (bits + 8) := by
        rw [← hdec, Nat.div_lt_iff_lt_mul (by positivity), ← pow_add, show bits + 8 + 8 * p = T by omega]
        exact hV
      rw [Chk.get_of_lt (show p < buf.length by omega), Exc.ok_bind, hsh, hacc,
        accum_refill (UInt8.toNat_lt _) h56 hlt, ← hdec]
      exact bsrRefill_shows buf hV p _ (bits + 8) (by omega) (by omega) (by omega) hlow' rfl
    · next h56 =>
      have h56 : 56 < bits := by exact_mod_cast not_le.mp h56
      exact ⟨_, rfl, ⟨hp, by simp only; push_cast; omega, by simp, by simpa using hb,
        .inr (by simp only; omega), hV, hlow, by simpa using hacc⟩, rfl⟩

section Accum

variable {A bits nb : ℕ}

/-- The top `nb` of the `bits` bits of an accumulator. -/
theorem accum_top (hA : A < 2 ^ bits) (hnb : nb ≤ bits) (hle : bits ≤ 64) (h32 : nb ≤ 32) :
    A * 2 ^ (64 - bits) / 2 ^ (64 - nb) % 2 ^ 32 = A / 2 ^ (bits - nb) := by
  have hdiv : A * 2 ^ (64 - bits) / 2 ^ (64 - nb) = A / 2 ^ (bits - nb) := by
    rw [show 64 - nb = (bits - nb) + (64 - bits) by omega, pow_add]
    exact Nat.mul_div_mul_right _ _ (by positivity)
  have hlt : A / 2 ^ (bits - nb) < 2 ^ 32 := by
    rw [Nat.div_lt_iff_lt_mul (by positivity)]
    calc A < 2 ^ (nb + (bits - nb)) := by rwa [Nat.add_sub_of_le hnb]
      _ = 2 ^ nb * 2 ^ (bits - nb) := pow_add ..
      _ ≤ 2 ^ 32 * 2 ^ (bits - nb) := Nat.mul_le_mul_right _ (Nat.pow_le_pow_right (by norm_num) h32)
  rw [hdiv, Nat.mod_eq_of_lt hlt]

/-- The others, when these are shifted out. -/
theorem accum_rest (hnb : nb ≤ bits) (hle : bits ≤ 64) :
    (A * 2 ^ (64 - bits)) <<< nb % 2 ^ 64 = A % 2 ^ (bits - nb) * 2 ^ (64 - (bits - nb)) := by
  have h64 : (2 : ℕ) ^ 64 = 2 ^ (bits - nb) * 2 ^ (64 - (bits - nb)) := by
    rw [← pow_add]
    congr 1
    omega
  rw [Nat.shiftLeft_eq, mul_assoc, ← pow_add, show 64 - bits + nb = 64 - (bits - nb) by omega, h64]
  exact Nat.mul_mod_mul_right ..

end Accum

/-- **Read.** A reader that shows `T` bits of `V` reads the top `nb` of them
and shows the others. -/
theorem bsrRead_shows {r : Bsr} {T V nb : ℕ} (h : r.Shows T V) (h1 : 1 ≤ nb) (h32 : nb ≤ 32) (hT : nb ≤ T) :
    ∃ r', bsrRead r nb = .ok (some (V / 2 ^ (T - nb)), r') ∧ r'.Shows (T - nb) (V % 2 ^ (T - nb)) ∧
      r'.buf = r.buf := by
  obtain ⟨bits, hbits⟩ := Int.eq_ofNat_of_zero_le h.nonneg
  have hlen : 8 * r.ptr + bits = T := by have := h.length; omega
  have hle : bits ≤ 64 := by have := h.bits_le; omega
  have hnb : nb ≤ bits := by have := h.full; omega
  have hacc := h.accum_eq
  rw [hbits, Int.toNat_natCast] at hacc
  set A := V / 2 ^ (8 * r.ptr) with hA
  have hAlt : A < 2 ^ bits := by
    rw [hA, Nat.div_lt_iff_lt_mul (by positivity), ← pow_add, Nat.add_comm, hlen]
    exact h.value_lt
  have hsub : T - nb = 8 * r.ptr + (bits - nb) := by omega
  have hpeek : bsrPeek r nb = V / 2 ^ (T - nb) := by
    rw [bsrPeek, Nat.shiftRight_eq_div_pow, hacc, accum_top hAlt hnb hle h32, hA, Nat.div_div_eq_div_mul, ← pow_add,
      hsub]
  -- the bits that stay
  have hlow : V % 2 ^ (T - nb) % 2 ^ (8 * r.ptr) = V % 2 ^ (8 * r.ptr) := by
    rw [hsub, pow_add, Nat.mod_mul_right_mod]
  have hhigh : V % 2 ^ (T - nb) / 2 ^ (8 * r.ptr) = A % 2 ^ (bits - nb) := by
    rw [hsub, pow_add, Nat.mod_mul, Nat.add_mul_div_left _ _ (by positivity),
      Nat.div_eq_of_lt (Nat.mod_lt _ (by positivity)), Nat.zero_add]
  obtain ⟨r', hr, hs, hbuf⟩ := bsrRefill_shows r.buf (V := V % 2 ^ (T - nb)) (T := T - nb)
    (Nat.mod_lt _ (by positivity)) r.ptr (r.accum <<< nb % 2 ^ 64) (bits - nb) h.wf (by omega) (by omega)
    (by rw [hlow, h.low]) (by rw [hhigh, hacc, accum_rest hnb hle])
  refine ⟨r', ?_, hs, hbuf⟩
  rw [bsrRead, bsrConsume, hbits, hpeek, show ((bits : ℤ) - nb) = ((bits - nb : ℕ) : ℤ) by omega, hr]
  simp [hs.nonneg]

section Closed

variable {U t f : ℕ}

theorem closed_lt (hU : U < 2 ^ t) (ht : t < f * 8) : U + 2 ^ t < 2 ^ (f * 8) := by
  calc U + 2 ^ t < 2 ^ (t + 1) := by rw [pow_succ]; omega
    _ ≤ 2 ^ (f * 8) := Nat.pow_le_pow_right (by norm_num) ht

/-- The top byte of `t` bits behind a closing bit, at the top of a word: it has the closing bit. -/
theorem closed_top (hU : U < 2 ^ t) (hf : f ≤ 8) (ht : t < f * 8) (htop : f * 8 ≤ t + 8) :
    2 ^ (t + 8 - f * 8) ≤ (U + 2 ^ t) * 2 ^ (64 - f * 8) / 2 ^ 56 ∧
      (U + 2 ^ t) * 2 ^ (64 - f * 8) / 2 ^ 56 < 2 ^ (t + 8 - f * 8 + 1) := by
  have hlast : (U + 2 ^ t) * 2 ^ (64 - f * 8) / 2 ^ 56 = (U + 2 ^ t) / 2 ^ (f * 8 - 8) := by
    rw [show 56 = (f * 8 - 8) + (64 - f * 8) by omega, pow_add]
    exact Nat.mul_div_mul_right _ _ (by positivity)
  rw [hlast, Nat.le_div_iff_mul_le (by positivity), Nat.div_lt_iff_lt_mul (by positivity), ← pow_add, ← pow_add,
    show t + 8 - f * 8 + (f * 8 - 8) = t by omega, show t + 8 - f * 8 + 1 + (f * 8 - 8) = t + 1 by omega, pow_succ]
  exact ⟨Nat.le_add_left _ _, by omega⟩

theorem floorlog2Byte_ofNat {B k : ℕ} (hk : k < 8) (hle : 2 ^ k ≤ B) (hlt : B < 2 ^ (k + 1)) :
    UInt8.ofNat B ≠ 0 ∧ floorlog2Byte (UInt8.ofNat B) = k := by
  have hpos : 0 < B := lt_of_lt_of_le (by positivity) hle
  have hB256 : B < 2 ^ 8 := lt_of_lt_of_le hlt (Nat.pow_le_pow_right (by norm_num) (by omega))
  have hnat : (UInt8.ofNat B).toNat = B := UInt8.toNat_ofNat_of_lt' hB256
  constructor
  · intro h
    rw [h] at hnat
    exact hpos.ne hnat
  · rw [floorlog2Byte, hnat]
    exact (Nat.log2_eq_iff hpos.ne').mpr ⟨hle, hlt⟩

/-- The bits are left when the closing bit and what is above it are shifted out. -/
theorem closed_shift (hU : U < 2 ^ t) (hf : f ≤ 8) (ht : t < f * 8) :
    (U + 2 ^ t) * 2 ^ (64 - f * 8) * 2 ^ (f * 8 - t) % 2 ^ 64 = U * 2 ^ (64 - t) := by
  rw [mul_assoc, ← pow_add, show 64 - f * 8 + (f * 8 - t) = 64 - t by omega, add_mul, ← pow_add,
    show t + (64 - t) = 64 by omega, Nat.add_mod_right, Nat.mod_eq_of_lt (mul_pow_sub_lt hU (by omega))]

end Closed

/-- **Init.** Over a flushed stream the reader shows what was written. -/
theorem bsrInit_shows {buf : List UInt8} {T V : ℕ} (hV : V < 2 ^ T) (hlen : buf.length = T / 8 + 1)
    (hval : Digits.leNat buf = V + 2 ^ T) : ∃ r, bsrInit buf = .ok r ∧ r.Shows T V := by
  set n := buf.length with hn
  have hn0 : n ≠ 0 := by omega
  obtain ⟨fill, hfill⟩ : ∃ f, f = if n < 8 then n else 8 := ⟨_, rfl⟩
  have hfills : 1 ≤ fill ∧ fill ≤ 8 ∧ fill ≤ n ∧ (fill = n ∨ fill = 8) := by
    rw [hfill]
    split <;> omega
  obtain ⟨hf1, hf8, hfn, hfull⟩ := hfills
  obtain ⟨ptr, hptr⟩ : ∃ p, p = n - fill := ⟨_, rfl⟩
  have hpow := Digits.pow_256 ptr
  -- what is loaded: the part of the number above the bytes left behind
  have hraw : Digits.leNat ((buf.drop ptr).take fill) = (V + 2 ^ T) / 2 ^ (8 * ptr) := by
    rw [List.take_of_length_le (by rw [List.length_drop]; omega), Digits.leNat_drop _ _ (by omega), hval, hpow]
  obtain ⟨t, ht⟩ : ∃ t, T = t + 8 * ptr := ⟨T - 8 * ptr, by omega⟩
  subst ht
  have hsplit : (V + 2 ^ (t + 8 * ptr)) / 2 ^ (8 * ptr) = V / 2 ^ (8 * ptr) + 2 ^ t := by
    rw [pow_add, Nat.add_mul_div_right _ _ (by positivity)]
  obtain ⟨U, hU⟩ : ∃ U, U = V / 2 ^ (8 * ptr) := ⟨_, rfl⟩
  have hUlt : U < 2 ^ t := by
    rw [hU, Nat.div_lt_iff_lt_mul (by positivity), ← pow_add]
    exact hV
  have htlt : t < fill * 8 := by omega
  have htge : fill * 8 ≤ t + 8 := by omega
  obtain ⟨hBge, hBlt⟩ := closed_top hUlt hf8 htlt htge
  obtain ⟨hB0, hlog⟩ := floorlog2Byte_ofNat (by omega) hBge hBlt
  have h64 := mul_pow_sub_lt (closed_lt hUlt htlt) (show fill * 8 ≤ 64 by omega)
  have hskip : 7 - (t + 8 - fill * 8) + 1 = fill * 8 - t := by omega
  have hbits : max (((fill * 8 : ℕ) : ℤ) - ((fill * 8 - t : ℕ) : ℤ)) 0 = (t : ℤ) := by omega
  refine ⟨⟨buf, ptr, U * 2 ^ (64 - t), t⟩, ?_, ?_⟩
  · rw [bsrInit]
    simp only [← hn, if_neg hn0, ← hfill, ← hptr]
    rw [bsrLoad_eq _ _ _ (by omega), hraw, hsplit, ← hU, Exc.ok_bind]
    simp only [Nat.shiftLeft_eq, Nat.mod_eq_of_lt h64, Nat.shiftRight_eq_div_pow, if_neg hB0, hlog, hskip,
      closed_shift hUlt hf8 htlt, hbits, Exc.pure_eq]
  · refine ⟨by simp only; omega, by simp only; omega, by simp, by simp only; omega, ?_, hV, ?_, ?_⟩
    · simp only
      omega
    · have := Digits.leNat_take buf ptr (by omega)
      simp only
      rw [this, hval, hpow, Nat.add_comm t, pow_add, Nat.add_mul_mod_self_left]
    · simp [hU]

/-- What was flushed a reader opens. -/
theorem bswFlush_opens {w w' : Bsw} {T V : ℕ} (h : w.Holds T V) (hf : bswFlush w = .ok w') :
    ∃ r, bsrInit w'.out = .ok r ∧ r.Shows T V := by
  obtain ⟨hval, hlen, -⟩ := bswFlush_holds h hf
  exact bsrInit_shows h.lt hlen hval

/-- A reader that shows no bits is at its end. -/
theorem Bsr.Shows.done {r : Bsr} {V : ℕ} (h : r.Shows 0 V) : r.ptr = 0 ∧ r.bits = 0 := by
  have h1 := h.length
  have h2 := h.nonneg
  constructor
  · omega
  · omega

end Netc
