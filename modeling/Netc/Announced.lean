/-
# What a header tells

The flags and the algorithm byte of the tANS packets the compressor sends, and
what the decoder reads from them: the algorithm, the bucket of the table, the
transforms to undo. The statements are about finitely many bytes and are
checked by evaluation; the compact type byte carries all of them except for
residuals of order 2 that were coded with a single table or with LZ77.

Key definitions: `singleFlags`, `singleAlg`, `pctxAlg`, `alg10`, `TypeValid`.
Key theorems: `single_carried`, `pctx_carried`, `alg10_carried`, `Format.typeValid`.
-/
import Netc.Formats
import Netc.DecompressSpec

namespace Netc

/-! ### The bytes -/

/-- The flags of the sources. -/
def sourceFlags : List UInt8 :=
  [PktFlag.dictId, PktFlag.dictId ||| PktFlag.delta, PktFlag.dictId ||| PktFlag.delta ||| PktFlag.rle]

/-- The flags of a tANS packet of a source with flags `f`. -/
def codedFlags (f : UInt8) (x2 bigram : Bool) : UInt8 :=
  f ||| (0 ||| (if x2 then PktFlag.x2 else 0) ||| (if bigram then PktFlag.bigram else 0))

/-- The algorithm of a packet coded with one table. -/
def singleAlg (lzp : Bool) (idx : ℕ) : UInt8 := (if lzp then Alg.lzp else Alg.tans) ||| UInt8.ofNat idx <<< 4

/-- The algorithm of a packet coded with a table per position. -/
def pctxAlg (lzp : Bool) : UInt8 := if lzp then Alg.tansPctx ||| 0x10 else Alg.tansPctx

/-- The algorithm of a packet coded with a 10-bit table. -/
def alg10 (idx : ℕ) : UInt8 := Alg.tans10 ||| UInt8.ofNat idx <<< 4

theorem SourceFor.pktFlags_mem {ctx : Ctx} {src : List UInt8} {s : Source} (h : SourceFor ctx src s) :
    s.pktFlags ∈ sourceFlags := by
  cases h <;> simp only [plainSource] <;> decide

section Made

variable {j : Job} {s : Source} {w : Draft}

theorem Made.single_packet (h : Made j s w) (h10 : w.used10 = false) (hmreg : w.info.mreg = 0) :
    w.packet.flags = codedFlags s.pktFlags w.info.x2 (CfgFlag.has j.ctx.flags CfgFlag.bigram) ∧
      w.packet.algorithm = singleAlg s.didLzp w.info.tblIdx := by
  simp only [Draft.packet, tansPktFlags, tansAlgorithm, h.pktFlags, h.didLzp, h10, hmreg, h.bigram, codedFlags,
    singleAlg]
  refine ⟨by simp, ?_⟩
  cases s.didLzp <;> simp

theorem Made.pctx_packet (h : Made j s w) (h10 : w.used10 = false) (hmreg : w.info.mreg = 2) (hx2 : w.info.x2 = false) :
    w.packet.flags = codedFlags s.pktFlags false false ∧ w.packet.algorithm = pctxAlg s.didLzp := by
  simp only [Draft.packet, tansPktFlags, tansAlgorithm, h.pktFlags, h.didLzp, h10, hmreg, hx2, codedFlags, pctxAlg]
  refine ⟨by simp, ?_⟩
  cases s.didLzp <;> simp

theorem Made.bigram_packet (h : Made j s w) (h10 : w.used10 = false) (hmreg : w.info.mreg = 3)
    (hx2 : w.info.x2 = false) :
    w.packet.flags = codedFlags s.pktFlags false true ∧ w.packet.algorithm = pctxAlg s.didLzp := by
  simp only [Draft.packet, tansPktFlags, tansAlgorithm, h.pktFlags, h.didLzp, h10, hmreg, hx2, codedFlags, pctxAlg]
  refine ⟨by simp, ?_⟩
  cases s.didLzp <;> simp

theorem Made.ten_packet (h : Made j s w) (h10 : w.used10 = true) :
    w.packet.flags = codedFlags s.pktFlags false false ∧ w.packet.algorithm = alg10 w.info.tblIdx := by
  obtain ⟨hmreg, hx2, -, -, hbigram, -⟩ := h.coded10 h10
  simp only [Draft.packet, tansPktFlags, tansAlgorithm, h.pktFlags, h10, hmreg, hx2, hbigram, codedFlags, alg10]
  refine ⟨by simp, by simp⟩

end Made

/-! ### What the decoder reads -/

theorem forall_sourceFlags {P : UInt8 → Prop} : (∀ f ∈ sourceFlags, P f) ↔
    P PktFlag.dictId ∧ P (PktFlag.dictId ||| PktFlag.delta) ∧ P (PktFlag.dictId ||| PktFlag.delta ||| PktFlag.rle) := by
  simp only [sourceFlags, List.forall_mem_cons, List.not_mem_nil, false_imp_iff, implies_true, and_true]

theorem codedFlags_has : ∀ f ∈ sourceFlags, ∀ x2 bigram : Bool,
    PktFlag.has (codedFlags f x2 bigram) PktFlag.x2 = x2 ∧
    PktFlag.has (codedFlags f x2 bigram) PktFlag.bigram = bigram ∧
    PktFlag.has (codedFlags f x2 bigram) PktFlag.mreg = false ∧
    PktFlag.has (codedFlags f x2 bigram) PktFlag.passthru = false ∧
    PktFlag.has (codedFlags f x2 bigram) PktFlag.delta = PktFlag.has f PktFlag.delta ∧
    PktFlag.has (codedFlags f x2 bigram) PktFlag.rle = PktFlag.has f PktFlag.rle := by
  simp only [forall_sourceFlags]
  decide

theorem singleAlg_reads : ∀ idx < 16, ∀ lzp : Bool,
    algId (singleAlg lzp idx) = (if lzp then Alg.lzp else Alg.tans) ∧ packetBucket (singleAlg lzp idx) = idx ∧
      (LzpAnnounced (singleAlg lzp idx) ↔ lzp = true) := by decide

theorem pctxAlg_reads : ∀ lzp : Bool, algId (pctxAlg lzp) = Alg.tansPctx ∧
    (LzpAnnounced (pctxAlg lzp) ↔ lzp = true) := by
  decide

theorem alg10_reads : ∀ idx < 16, algId (alg10 idx) = Alg.tans10 ∧ packetBucket (alg10 idx) = idx ∧
    ¬LzpAnnounced (alg10 idx) := by decide

/-! ### The compact type byte -/

/-- A type byte that a reader accepts. -/
def TypeValid (t : UInt8) : Prop := ¬(t = 0xFF ∨ ((pktTypeTable t).1 = 0 ∧ (pktTypeTable t).2 = 0))

instance (t : UInt8) : Decidable (TypeValid t) := inferInstanceAs (Decidable (¬_))

/-- One table, without order-2 residuals; two states go with neither bigrams nor the filter. -/
theorem single_carried : ∀ idx < 16, ∀ f ∈ sourceFlags, PktFlag.has f PktFlag.rle = false → ∀ x2 bigram lzp : Bool,
    (x2 = true → bigram = false ∧ lzp = false) → Carried (codedFlags f x2 bigram) (singleAlg lzp idx) := by
  intro idx hidx
  rw [forall_sourceFlags]
  refine ⟨?_, ?_, ?_⟩ <;> revert idx <;> decide +kernel

/-- A table per position. -/
theorem pctx_carried : ∀ f ∈ sourceFlags, ∀ bigram lzp : Bool, Carried (codedFlags f false bigram) (pctxAlg lzp) := by
  simp only [forall_sourceFlags]
  decide +kernel

/-- A 10-bit table, without order-2 residuals. -/
theorem alg10_carried : ∀ idx < 16, ∀ f ∈ sourceFlags, PktFlag.has f PktFlag.rle = false →
    Carried (codedFlags f false false) (alg10 idx) := by
  simp only [forall_sourceFlags]
  decide +kernel

/-- LZ77, without order-2 residuals. -/
theorem lz77_carried : ∀ f ∈ sourceFlags, PktFlag.has f PktFlag.rle = false →
    Carried (f ||| PktFlag.lz77 ||| PktFlag.passthru) Alg.passthru := by
  simp only [forall_sourceFlags]
  decide +kernel

theorem lz77x_carried : Carried PktFlag.dictId Alg.lz77x := by decide

theorem passthru_carried : Carried (PktFlag.passthru ||| PktFlag.dictId) Alg.passthru := by decide

/-- Whatever the source, the type byte of a packet is one a reader accepts. -/
theorem coded_typeValid : ∀ f ∈ sourceFlags, ∀ x2 bigram lzp : Bool,
    TypeValid (compactTypeEncode (codedFlags f x2 bigram) (pctxAlg lzp)) ∧
    ∀ idx < 16, TypeValid (compactTypeEncode (codedFlags f x2 bigram) (singleAlg lzp idx)) ∧
      TypeValid (compactTypeEncode (codedFlags f x2 bigram) (alg10 idx)) := by
  simp only [forall_sourceFlags]
  decide +kernel

theorem lz77_typeValid : ∀ f ∈ sourceFlags,
    TypeValid (compactTypeEncode (f ||| PktFlag.lz77 ||| PktFlag.passthru) Alg.passthru) := by
  simp only [forall_sourceFlags]
  decide +kernel

theorem passthru_typeValid : TypeValid (compactTypeEncode (PktFlag.passthru ||| PktFlag.dictId) Alg.passthru) := by
  decide

theorem Format.typeValid {ctx : Ctx} {src : List UInt8} {dstCap : ℕ} {p : Packet} (h : Format ctx src dstCap p) :
    TypeValid (compactTypeEncode p.flags p.algorithm) := by
  cases h with
  | lz77 hs hl horder h => exact lz77_typeValid _ hs.pktFlags_mem
  | lz77x passthru hring hsize h =>
    simp only
    decide
  | @tans d s w hd hs hm hfirst =>
    have hmem := hs.pktFlags_mem
    cases h10 : w.used10 with
    | true =>
      obtain ⟨hf, ha⟩ := hm.ten_packet h10
      rw [hf, ha]
      exact ((coded_typeValid _ hmem false false false).2 _ (hm.coded10 h10).2.2.2.1).2
    | false =>
      have hc := hm.coded h10
      cases hi : w.info with
      | mk mreg x2 idx =>
        rw [hi] at hc
        cases hc with
        | single hidx hshort h =>
          obtain ⟨hf, ha⟩ := hm.single_packet h10 (by rw [hi])
          rw [hf, ha, hi]
          exact ((coded_typeValid _ hmem _ _ _).2 _ hidx).1
        | pctx h =>
          obtain ⟨hf, ha⟩ := hm.pctx_packet h10 (by rw [hi]) (by rw [hi])
          rw [hf, ha]
          exact (coded_typeValid _ hmem _ _ _).1
        | pctxBigram hbigram hvalid h =>
          obtain ⟨hf, ha⟩ := hm.bigram_packet h10 (by rw [hi]) (by rw [hi])
          rw [hf, ha]
          exact (coded_typeValid _ hmem _ _ _).1

end Netc
