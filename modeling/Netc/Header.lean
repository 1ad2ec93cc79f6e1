/-
# Packet headers

The eight-byte header of `netc_internal.h` and the compact one: a packet type
byte that stands for flags and algorithm, and the original size in one or
three bytes. The type byte is written by `compactTypeEncode` and read through
`pktTypeTable`, a table of its own; `Carried` says that
the pair of flags and algorithm comes back.

Key definitions: `PktHeader`, `pktTypeTable`, `compactTypeEncode`, `hdrEmit`.
Key theorems: `hdrRead_hdrWrite`, `hdrReadCompact_hdrWriteCompact`.
-/
import Netc.Basic

namespace Netc

/-- `netc_pkt_header_t`; the sizes are 16-bit. -/
structure PktHeader where
  originalSize : ℕ
  compressedSize : ℕ
  flags : UInt8
  algorithm : UInt8
  modelId : UInt8
  contextSeq : UInt8
  deriving DecidableEq, Repr

/-- `netc_hdr_write` -/
def hdrWrite (h : PktHeader) : List UInt8 :=
  writeU16Le h.originalSize ++ (writeU16Le h.compressedSize
    ++ [h.flags, h.algorithm, h.modelId, h.contextSeq])

/-- `netc_hdr_read` -/
def hdrRead (src : List UInt8) : Chk PktHeader := do
  let originalSize ← readU16Le src 0
  let compressedSize ← readU16Le src 2
  let flags ← Chk.get src 4
  let algorithm ← Chk.get src 5
  let modelId ← Chk.get src 6
  let contextSeq ← Chk.get src 7
  return ⟨originalSize, compressedSize, flags, algorithm, modelId, contextSeq⟩

/-! ### The packet type byte -/

/-- The rows of `netc_pkt_type_table` with sixteen buckets each: flags and the
low half of the algorithm byte. -/
def bucketRow (row : ℕ) : Option (UInt8 × UInt8) :=
  open PktFlag in
  match row with
  | 0x1 => some (dictId, Alg.tans)
  | 0x2 => some (delta ||| dictId, Alg.tans)
  | 0x3 => some (bigram ||| dictId, Alg.tans)
  | 0x4 => some (bigram ||| delta ||| dictId, Alg.tans)
  | 0x5 => some (x2 ||| dictId, Alg.tans)
  | 0x6 => some (x2 ||| delta ||| dictId, Alg.tans)
  | 0x7 => some (dictId, Alg.lzp)
  | 0x8 => some (delta ||| dictId, Alg.lzp)
  | 0x9 => some (bigram ||| dictId, Alg.lzp)
  | 0xA => some (bigram ||| delta ||| dictId, Alg.lzp)
  | 0xB => some (dictId, Alg.tans10)
  | 0xC => some (delta ||| dictId, Alg.tans10)
  | _ => none

/-- The entries of `netc_pkt_type_table` without a bucket. The slots the table
does not name are zero. -/
def plainEntry (pktType : ℕ) : UInt8 × UInt8 :=
  open PktFlag in
  match pktType with
  | 0x00 => (PktFlag.passthru ||| dictId, Alg.passthru)
  | 0x01 => (PktFlag.passthru ||| lz77 ||| dictId, Alg.passthru)
  | 0x02 => (PktFlag.passthru ||| lz77 ||| delta ||| dictId, Alg.passthru)
  | 0x03 => (PktFlag.passthru ||| rle ||| dictId, Alg.passthru)
  | 0x04 => (dictId, Alg.tansPctx)
  | 0x05 => (delta ||| dictId, Alg.tansPctx)
  | 0x06 => (dictId, Alg.tansPctx ||| 0x10)
  | 0x07 => (delta ||| dictId, Alg.tansPctx ||| 0x10)
  | 0x08 => (mreg ||| dictId, Alg.tans)
  | 0x09 => (mreg ||| delta ||| dictId, Alg.tans)
  | 0x0A => (mreg ||| x2 ||| dictId, Alg.tans)
  | 0x0B => (mreg ||| x2 ||| delta ||| dictId, Alg.tans)
  | 0x0C => (mreg ||| bigram ||| dictId, Alg.tans)
  | 0x0D => (mreg ||| bigram ||| delta ||| dictId, Alg.tans)
  | 0x0E => (dictId, Alg.lz77x)
  | 0xD0 => (bigram ||| dictId, Alg.tansPctx)
  | 0xD1 => (bigram ||| delta ||| dictId, Alg.tansPctx)
  | 0xD2 => (bigram ||| dictId, Alg.tansPctx ||| 0x10)
  | 0xD3 => (bigram ||| delta ||| dictId, Alg.tansPctx ||| 0x10)
  | 0xD4 => (delta ||| rle ||| dictId, Alg.tansPctx)
  | 0xD5 => (delta ||| rle ||| dictId, Alg.tansPctx ||| 0x10)
  | 0xD6 => (bigram ||| delta ||| rle ||| dictId, Alg.tansPctx)
  | 0xD7 => (bigram ||| delta ||| rle ||| dictId, Alg.tansPctx ||| 0x10)
  | 0xFF => (0xFF, 0xFF)
  | _ => (0, 0)

/-- `netc_pkt_type_table[pkt_type]`: flags and algorithm. -/
def pktTypeTable (pktType : UInt8) : UInt8 × UInt8 :=
  match bucketRow (pktType.toNat / 16) with
  | some (flags, alg) => (flags, alg ||| UInt8.ofNat (pktType.toNat % 16) <<< 4)
  | none => plainEntry pktType.toNat

/-- `netc_compact_type_encode` -/
def compactTypeEncode (flags algorithm : UInt8) : UInt8 :=
  let algLo := algorithm &&& 0x0F
  let bucket := (algorithm >>> 4) &&& 0x0F
  let delta : UInt8 := if PktFlag.has flags PktFlag.delta then 1 else 0
  let bigram : UInt8 := if PktFlag.has flags PktFlag.bigram then 1 else 0
  let x2 : UInt8 := if PktFlag.has flags PktFlag.x2 then 1 else 0
  if PktFlag.has flags PktFlag.passthru then
    if PktFlag.has flags PktFlag.lz77 then 0x01 + delta
    else if PktFlag.has flags PktFlag.rle then 0x03
    else 0x00
  else if algLo = Alg.tansPctx then
    let lzp : UInt8 := if bucket ≠ 0 then 1 else 0
    if PktFlag.has flags PktFlag.rle then 0xD4 + lzp + bigram * 2
    else if bigram ≠ 0 then 0xD0 + delta + lzp * 2
    else 0x04 + delta + lzp * 2
  else if algLo = Alg.lz77x then 0x0E
  else if PktFlag.has flags PktFlag.mreg then
    if bigram ≠ 0 then 0x0C + delta
    else if x2 ≠ 0 then 0x0A + delta
    else 0x08 + delta
  else if algLo = Alg.tans then
    let base : UInt8 :=
      if bigram ≠ 0 ∧ delta ≠ 0 then 0x40
      else if bigram ≠ 0 then 0x30
      else if x2 ≠ 0 ∧ delta ≠ 0 then 0x60
      else if x2 ≠ 0 then 0x50
      else if delta ≠ 0 then 0x20
      else 0x10
    base + bucket
  else if algLo = Alg.lzp then
    let base : UInt8 :=
      if bigram ≠ 0 ∧ delta ≠ 0 then 0xA0
      else if bigram ≠ 0 then 0x90
      else if delta ≠ 0 then 0x80
      else 0x70
    base + bucket
  else if algLo = Alg.tans10 then
    let base : UInt8 := if delta ≠ 0 then 0xC0 else 0xB0
    base + bucket
  else 0xFF

/-- `netc_hdr_write_compact`: the header; its length is what the function returns. -/
def hdrWriteCompact (pktType : UInt8) (originalSize : ℕ) : List UInt8 :=
  if originalSize ≤ 127 then [pktType, UInt8.ofNat originalSize]
  else pktType :: 0x80 :: writeU16Le originalSize

/-- `netc_hdr_read_compact`: the header and the bytes consumed, or nothing for
the return value 0. The fields the wire does not carry are left to the caller. -/
def hdrReadCompact (src : List UInt8) : Chk (Option (PktHeader × ℕ)) :=
  if src.length < 2 then .ok none
  else do
    let pktType ← Chk.get src 0
    let e := pktTypeTable pktType
    if pktType = 0xFF ∨ (e.1 = 0 ∧ e.2 = 0) then return none
    else
      let b1 ← Chk.get src 1
      if b1 &&& 0x80 = 0 then return some (⟨(b1 &&& 0x7F).toNat, 0, e.1, e.2, 0, 0⟩, 2)
      else if src.length < 4 then return none
      else
        let originalSize ← readU16Le src 2
        return some (⟨originalSize, 0, e.1, e.2, 0, 0⟩, 4)

/-- `netc_hdr_emit` -/
def hdrEmit (h : PktHeader) (compact : Bool) : List UInt8 :=
  if compact then hdrWriteCompact (compactTypeEncode h.flags h.algorithm) h.originalSize else hdrWrite h

/-- The header size `netc_compress` reckons with. -/
def hdrSz (compact : Bool) (srcSize : ℕ) : ℕ :=
  if compact then if srcSize ≤ 127 then compactHdrMin else compactHdrMax else headerSize

/-! ### Round trips -/

@[simp] theorem length_hdrWrite (h : PktHeader) : (hdrWrite h).length = 8 := by simp [hdrWrite]

@[simp] theorem length_hdrEmit (h : PktHeader) (compact : Bool) :
    (hdrEmit h compact).length = hdrSz compact h.originalSize := by
  cases compact with
  | false => simp [hdrEmit, hdrSz, headerSize]
  | true =>
    simp only [hdrEmit, hdrWriteCompact, hdrSz, compactHdrMin, compactHdrMax, if_true]
    split <;> simp

/-- **The eight-byte header reads back.** -/
theorem hdrRead_hdrWrite (h : PktHeader) (payload : List UInt8) (ho : h.originalSize < 2 ^ 16)
    (hc : h.compressedSize < 2 ^ 16) : hdrRead (hdrWrite h ++ payload) = .ok h := by
  have h0 := readU16Le_write [] (writeU16Le h.compressedSize ++ ([h.flags, h.algorithm, h.modelId, h.contextSeq]
    ++ payload)) ho
  have h2 := readU16Le_write (writeU16Le h.originalSize) ([h.flags, h.algorithm, h.modelId, h.contextSeq]
    ++ payload) hc
  rw [length_writeU16Le] at h2
  have hget : ∀ (l : List UInt8) (i : ℕ) (b : UInt8), l[i]? = some b →
      Chk.get (writeU16Le h.originalSize ++ (writeU16Le h.compressedSize ++ l)) (4 + i) = .ok b := by
    intro l i b hb
    rw [Chk.get, ← List.append_assoc, List.getElem?_append_right (by simp), List.length_append,
      length_writeU16Le, length_writeU16Le, Nat.add_sub_cancel_left, hb]
  have e : hdrWrite h ++ payload = writeU16Le h.originalSize ++ (writeU16Le h.compressedSize
      ++ ([h.flags, h.algorithm, h.modelId, h.contextSeq] ++ payload)) := by
    simp [hdrWrite]
  rw [e, hdrRead]
  rw [List.nil_append, List.length_nil] at h0
  rw [h0, Exc.ok_bind, h2, Exc.ok_bind, hget _ 0 h.flags rfl, Exc.ok_bind, hget _ 1 h.algorithm rfl,
    Exc.ok_bind, hget _ 2 h.modelId rfl, Exc.ok_bind, hget _ 3 h.contextSeq rfl, Exc.ok_bind, Exc.pure_eq]

/-- A header read from bytes that are there. -/
theorem hdrRead_ok {src : List UInt8} (h : headerSize ≤ src.length) :
    ∃ hd, hdrRead src = .ok hd ∧ hd.originalSize < 2 ^ 16 ∧ hd.compressedSize < 2 ^ 16 := by
  have h8 : 8 ≤ src.length := h
  obtain ⟨o, ho, hlo⟩ := readU16Le_lt (l := src) (i := 0) (by omega)
  obtain ⟨c, hc, hlc⟩ := readU16Le_lt (l := src) (i := 2) (by omega)
  refine ⟨⟨o, c, src[4], src[5], src[6], src[7]⟩, ?_, hlo, hlc⟩
  rw [hdrRead, ho, Exc.ok_bind, hc, Exc.ok_bind, Chk.get_of_lt (by omega), Exc.ok_bind,
    Chk.get_of_lt (by omega), Exc.ok_bind, Chk.get_of_lt (by omega), Exc.ok_bind, Chk.get_of_lt (by omega),
    Exc.ok_bind, Exc.pure_eq]

/-- The type byte carries this pair of flags and algorithm. -/
def Carried (flags algorithm : UInt8) : Prop :=
  pktTypeTable (compactTypeEncode flags algorithm) = (flags, algorithm) ∧
    compactTypeEncode flags algorithm ≠ 0xFF ∧ ¬(flags = 0 ∧ algorithm = 0)

instance (flags algorithm : UInt8) : Decidable (Carried flags algorithm) :=
  inferInstanceAs (Decidable (_ ∧ _ ∧ _))

/-- **The compact header reads back** as far as its type byte is one of the table's. -/
theorem hdrReadCompact_hdrWriteCompact {t : UInt8} {n : ℕ} (payload : List UInt8) (hn : n < 2 ^ 16)
    (ht : ¬(t = 0xFF ∨ ((pktTypeTable t).1 = 0 ∧ (pktTypeTable t).2 = 0))) :
    hdrReadCompact (hdrWriteCompact t n ++ payload)
      = .ok (some (⟨n, 0, (pktTypeTable t).1, (pktTypeTable t).2, 0, 0⟩, hdrSz true n)) := by
  by_cases hle : n ≤ 127
  · obtain ⟨h1, h2⟩ := lowByte (Nat.lt_succ_of_le hle)
    have e0 : ∀ l : List UInt8, Chk.get (t :: UInt8.ofNat n :: l) 0 = .ok t := fun _ => rfl
    have e1 : ∀ l : List UInt8, Chk.get (t :: UInt8.ofNat n :: l) 1 = .ok (UInt8.ofNat n) := fun _ => rfl
    rw [hdrWriteCompact, if_pos hle, List.cons_append, List.singleton_append, hdrReadCompact,
      if_neg (by simp), e0, Exc.ok_bind]
    simp only [if_neg ht, e1, Exc.ok_bind, h1, if_true, h2, Exc.pure_eq, hdrSz, if_pos hle, compactHdrMin]
  · have e0 : ∀ l : List UInt8, Chk.get (t :: 0x80 :: l) 0 = .ok t := fun _ => rfl
    have e1 : ∀ l : List UInt8, Chk.get (t :: 0x80 :: l) 1 = .ok 0x80 := fun _ => rfl
    have e2 := readU16Le_write [t, 0x80] payload hn
    have hlen : ¬(t :: 0x80 :: (writeU16Le n ++ payload)).length < 4 := by simp
    have h80 : ¬((0x80 : UInt8) &&& 0x80 = 0) := by decide
    simp only [List.cons_append, List.nil_append, List.length_cons, List.length_nil] at e2
    rw [hdrWriteCompact, if_neg hle, List.cons_append, List.cons_append, hdrReadCompact,
      if_neg (by simp), e0, Exc.ok_bind]
    simp only [if_neg ht, e1, Exc.ok_bind, if_neg h80, if_neg hlen, e2, Exc.pure_eq, hdrSz, if_true, if_neg hle,
      compactHdrMax]

/-- Whatever the bytes, the compact header is read in bounds. -/
theorem hdrReadCompact_ok (src : List UInt8) : ∃ o, hdrReadCompact src = .ok o ∧
    ∀ h n, o = some (h, n) → n ≤ src.length ∧ h.originalSize < 2 ^ 16 := by
  rw [hdrReadCompact]
  split
  · exact ⟨none, rfl, by simp⟩
  · next h2 =>
    rw [Chk.get_of_lt (show 0 < src.length by omega), Exc.ok_bind]
    simp only
    split
    · exact ⟨none, rfl, by simp⟩
    · rw [Chk.get_of_lt (show 1 < src.length by omega), Exc.ok_bind]
      split
      · refine ⟨_, rfl, ?_⟩
        rintro h n ⟨⟩
        exact ⟨by omega, lt_of_lt_of_le (UInt8.toNat_lt _) (by norm_num)⟩
      · split
        · exact ⟨none, rfl, by simp⟩
        · obtain ⟨v, hv, hlt⟩ := readU16Le_lt (l := src) (i := 2) (by omega)
          rw [hv, Exc.ok_bind]
          refine ⟨_, rfl, ?_⟩
          rintro h n ⟨⟩
          exact ⟨by omega, hlt⟩

end Netc
