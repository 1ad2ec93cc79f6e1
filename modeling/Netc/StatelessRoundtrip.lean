/-
# The stateless path

`netc_compress_stateless` and `netc_decompress_stateless` with one dictionary.
Every packet is compressed. It comes back unless it left with two states
in a format that does not keep its bytes: the packet's size is odd, and the
filtered bytes behind the first do not come in pairs of equal ones
(`stateless_roundtrip`).

A trained dictionary and a packet for which that happens are at the end.

Key definitions: `StatelessDelivered`, `StatelessReturns`, `SentWithX2`, `lostPacket`.
Key theorems: `decompressStateless_received`, `stateless_roundtrip`, `stateless_loses`.
-/
import Netc.Delivery
import Netc.Stateless

namespace Netc

/-! ### Receiving -/

/-- The stateless decoder gets `src` from the payload of a packet with this header. -/
def StatelessDelivered (d : Dict) (hdr : PktHeader) (payload src : List UInt8) : Prop :=
  ∃ bytes, bytes.length = src.length ∧ (∀ dst, statelessPayload d hdr payload dst = .ok (dst.write 0 bytes, .ok)) ∧
    undoStateless d hdr bytes = src

section Receive

variable {d : Dict} {h : PktHeader} {payload src : List UInt8} {cap : ℕ}

/-- What `netc_decompress_stateless` does behind a good header. -/
theorem decompressStateless_payload (hsize : h.originalSize = src.length) (hlen : src.length ≤ maxPacketSize)
    (hcap : src.length ≤ cap) (hc : h.compressedSize = payload.length) (hc16 : payload.length < 2 ^ 16)
    (hmodel : h.modelId = d.modelId) (hdelta : PktFlag.has h.flags PktFlag.delta = false) {bytes : List UInt8}
    {code : Result} {dst : Out} (hdec : statelessPayload d h payload dst = .ok (dst.write 0 bytes, code))
    (dstSize : ℕ) :
    ∃ dst', statelessUndo d h (dst.write 0 bytes) = .ok dst' ∧
      dst'.read src.length = undoStateless d h ((dst.write 0 bytes).read src.length) ∧
      decompressStateless d (hdrWrite h ++ payload) dst cap dstSize
        = .ok (if code = .ok then ⟨.ok, dst', src.length⟩ else ⟨code, dst.write 0 bytes, dstSize⟩) := by
  have hv := @validateHeader_hdrWrite h payload cap (by omega) (by omega) hc hc16
  have hsub := sub_payload (n := headerSize) (length_hdrWrite h) hc.symm
  obtain ⟨dst', hu, hread, -⟩ := statelessUndo_spec d h (dst.write 0 bytes)
  rw [hsize] at hread
  refine ⟨dst', hu, hread, ?_⟩
  rw [decompressStateless, hv, Exc.ok_bind]
  simp only [statelessBody, hmodel, bne_self_eq_false, Bool.and_false, Bool.false_eq_true, if_false, hdelta, hsub,
    Exc.ok_bind, hdec]
  by_cases hcode : code = .ok
  · simp only [hcode, ne_eq, not_true_eq_false, if_false, hu, Exc.ok_bind, Exc.pure_eq, if_true, hsize]
  · simp only [ne_eq, hcode, not_false_eq_true, if_true, Exc.pure_eq, if_false]

/-- **A packet is received** if its payload is delivered. -/
theorem decompressStateless_received (hsize : h.originalSize = src.length) (hlen : src.length ≤ maxPacketSize)
    (hcap : src.length ≤ cap) (hc : h.compressedSize = payload.length) (hc16 : payload.length < 2 ^ 16)
    (hmodel : h.modelId = d.modelId) (hdelta : PktFlag.has h.flags PktFlag.delta = false)
    (hdel : StatelessDelivered d h payload src) (dst : Out) (dstSize : ℕ) :
    ∃ dst', decompressStateless d (hdrWrite h ++ payload) dst cap dstSize = .ok ⟨.ok, dst', src.length⟩ ∧
      dst'.read src.length = src := by
  obtain ⟨bytes, hblen, hdec, hundo⟩ := hdel
  obtain ⟨dst', -, hread, hrun⟩ := decompressStateless_payload hsize hlen hcap hc hc16 hmodel hdelta (hdec dst) dstSize
  exact ⟨dst', hrun, by rw [hread, Out.read_write _ hblen, hundo]⟩

/-- A packet sent as it is comes back as it is. -/
theorem passthru_statelessDelivered (hsize : h.originalSize = src.length) (hc : h.compressedSize = src.length)
    (hflags : h.flags = PktFlag.passthru ||| PktFlag.dictId) (halg : h.algorithm = Alg.passthru) :
    StatelessDelivered d h src src := by
  have hid : algId h.algorithm = Alg.passthru := (congrArg algId halg).trans algId_passthru
  have h1 : PktFlag.has h.flags PktFlag.lz77 = false := by rw [hflags]; decide
  have h2 : PktFlag.has h.flags PktFlag.rle = false := by rw [hflags]; decide
  have h3 : ¬LzpAnnounced h.algorithm := by rw [halg]; decide
  refine ⟨src, rfl, fun dst => ?_, by rw [undoStateless, if_neg h3]⟩
  simp only [statelessPayload, if_pos hid, decodePassthru, h1, h2, Bool.false_eq_true, if_false, hc, hsize, ne_eq,
    not_true_eq_false]
  rfl

/-- An LZ77 packet comes back. -/
theorem lz77_statelessDelivered {lzCap : ℕ} (hlz : lz77Encode src lzCap = .ok payload)
    (hsize : h.originalSize = src.length) (hflags : PktFlag.has h.flags PktFlag.lz77 = true)
    (halg : h.algorithm = Alg.passthru) : StatelessDelivered d h payload src := by
  have hid : algId h.algorithm = Alg.passthru := (congrArg algId halg).trans algId_passthru
  have h3 : ¬LzpAnnounced h.algorithm := by rw [halg]; decide
  refine ⟨src, rfl, fun dst => ?_, by rw [undoStateless, if_neg h3]⟩
  simp only [statelessPayload, if_pos hid, decodePassthru, hflags, if_true, hsize, lz77_roundtrip hlz]
  rfl

end Receive

/-! ### Packets of the stateless compressor -/

section Format

variable {d : Dict} {src payload : List UInt8} {info : TansInfo} {hdr : PktHeader}

/-- The flags and the algorithm of a stateless tANS packet, as the stateful path has them. -/
theorem stateless_packet (h : Coded d d.tables (statelessSrc d src) 0 false payload info) (lzp : Bool) :
    statelessTansFlags info = codedFlags PktFlag.dictId info.x2 (codedBigram 0 info) ∧
      statelessAlgorithm lzp info = codedAlg lzp info := by
  have h0 : CfgFlag.has 0 CfgFlag.bigram = false := by decide
  cases h with
  | single hidx hshort h =>
    simp only [statelessTansFlags, codedFlags, codedBigram, h0, statelessAlgorithm, codedAlg, singleAlg]
    refine ⟨by simp, ?_⟩
    cases lzp <;> rfl
  | pctx h =>
    refine ⟨rfl, ?_⟩
    cases lzp <;> rfl
  | pctxBigram hbigram hvalid h =>
    rw [h0] at hbigram
    cases hbigram

theorem dictId_mem : PktFlag.dictId ∈ sourceFlags := by simp [sourceFlags]

/-- What is undone is what was done. -/
theorem undoStateless_src (hl : LzpAnnounced hdr.algorithm ↔ (statelessLzp d src.length).isSome = true) :
    undoStateless d hdr (statelessSrc d src) = src := by
  rw [undoStateless]
  rcases hlzp : statelessLzp d src.length with _ | lzp
  · rw [if_neg (by rw [hl, hlzp]; simp), statelessSrc, hlzp]
  · have hd : d.lzpTable = some lzp := by
      rw [statelessLzp] at hlzp
      split at hlzp
      · exact hlzp
      · cases hlzp
    rw [if_pos (by rw [hl, hlzp]; simp), statelessSrc, hlzp, hd]
    exact unfiltered_filter lzp src

/-- **Every format of the stateless compressor is delivered**, if two states keep the bytes they are given. -/
theorem StatelessFormat.delivered {p : Packet} (hs : d.Sound) (h : StatelessFormat d src p)
    (hx2 : PktFlag.has p.flags PktFlag.x2 = true → X2Keeps (statelessSrc d src)) (hsize : hdr.originalSize = src.length)
    (hflags : hdr.flags = p.flags) (halg : hdr.algorithm = p.algorithm) :
    StatelessDelivered d hdr p.payload src ∧ PktFlag.has hdr.flags PktFlag.delta = false := by
  cases h with
  | lz77 h =>
    have hflags : hdr.flags = statelessLz77Flags := hflags
    exact ⟨lz77_statelessDelivered h hsize (by rw [hflags]; decide) halg, by rw [hflags]; decide⟩
  | @tans payload info hne hlt h =>
    obtain ⟨hf, ha⟩ := stateless_packet h (statelessLzp d src.length).isSome
    obtain ⟨h1, -, -, -, h2, -⟩ := codedFlags_has _ dictId_mem info.x2 (codedBigram 0 info)
    have hflags : hdr.flags = codedFlags PktFlag.dictId info.x2 (codedBigram 0 info) := hflags.trans hf
    have hlen := length_statelessSrc d src
    have hkeep : info.x2 = true → X2Keeps (statelessSrc d src) := by
      intro hx
      rw [← hf] at h1
      exact hx2 (h1.trans hx)
    obtain ⟨hdec, hl⟩ := h.decodes ⟨hs, hs.table⟩ (by omega) dictId_mem hflags (halg.trans ha) (by omega) hkeep
    refine ⟨⟨statelessSrc d src, hlen, fun dst => hdec.stateless hs dst, undoStateless_src hl⟩, ?_⟩
    rw [hflags, h2]
    exact dictId_delta

end Format

/-! ### Round trips -/

/-- Both calls return `NETC_OK` and the packet comes back. -/
def StatelessReturns (d : Dict) (src : List UInt8) (dst : Out) (dstCap dstSize : ℕ) (out : Out) (outCap outSize : ℕ) :
    Prop :=
  let c := compressStateless d src dst dstCap dstSize
  c.code = .ok ∧ ∃ r, decompressStateless d (c.dst.read c.dstSize) out outCap outSize = .ok r ∧ r.code = .ok ∧
    r.dstSize = src.length ∧ r.dst.read r.dstSize = src

/-- The packet leaves with two states: `try_tans_compress` ends with them, and LZ77 does not beat that. -/
def SentWithX2 (d : Dict) (src : List UInt8) (dstCap : ℕ) : Prop :=
  ∃ payload info, statelessTans d src dstCap = some (payload, info) ∧ info.x2 = true ∧
    statelessLz77 src dstCap payload.length = none

section Roundtrip

variable {d : Dict} {src : List UInt8} {dstCap : ℕ}

theorem statelessTansFlags_x2 (info : TansInfo) : PktFlag.has (statelessTansFlags info) PktFlag.x2 = info.x2 := by
  have h : ∀ m x : Bool, PktFlag.has (PktFlag.dictId ||| ((if m then PktFlag.mreg else 0) |||
      (if x then PktFlag.x2 else 0))) PktFlag.x2 = x := by decide
  have := h (decide (info.mreg = 1)) info.x2
  simpa only [statelessTansFlags, decide_eq_true_eq] using this

theorem sentWithX2_of_plan {p : Packet} (h : statelessPlan d src dstCap = some p)
    (hx2 : PktFlag.has p.flags PktFlag.x2 = true) : SentWithX2 d src dstCap := by
  have hlz : PktFlag.has statelessLz77Flags PktFlag.x2 = false := by decide
  rw [statelessPlan] at h
  split at h
  · split at h
    · next payload info ht =>
      split at h
      · obtain rfl := Option.some.inj h
        exact absurd (hlz.symm.trans hx2) (by decide)
      · next hnone =>
        obtain rfl := Option.some.inj h
        exact ⟨payload, info, ht, (statelessTansFlags_x2 info).symm.trans hx2, hnone⟩
    · split at h
      · split at h
        · obtain rfl := Option.some.inj h
          exact absurd (hlz.symm.trans hx2) (by decide)
        · cases h
      · cases h
  · cases h

/-- The header on the wire. -/
def statelessWireHeader (d : Dict) (src : List UInt8) : Option Packet → PktHeader
  | some p => statelessHeader d src.length p
  | none => passthruHeader d.modelId 0 src.length

theorem statelessWire_eq (d : Dict) (src : List UInt8) (o : Option Packet) :
    statelessWire d src o = hdrWrite (statelessWireHeader d src o) ++ wirePayload src o := by
  cases o <;> rfl

/-- What the header on the wire says. -/
theorem statelessWireHeader_fields (hlen : src.length ≤ maxPacketSize) {o : Option Packet}
    (ho : statelessPlan d src dstCap = o) : (statelessWireHeader d src o).originalSize = src.length ∧
      (statelessWireHeader d src o).compressedSize = (wirePayload src o).length ∧ (wirePayload src o).length < 2 ^ 16 ∧
      (statelessWireHeader d src o).modelId = d.modelId := by
  have hle : (wirePayload src o).length ≤ src.length := by
    rcases o with _ | p
    · exact Nat.le_refl _
    · exact (statelessPlan_format ho).lt.le
  have hlt := lt_of_le_of_lt hlen maxPacketSize_lt
  have h1 := Nat.mod_eq_of_lt hlt
  have h2 := Nat.mod_eq_of_lt (lt_of_le_of_lt hle hlt)
  rcases o with _ | p
  · exact ⟨h1, h2, lt_of_le_of_lt hle hlt, rfl⟩
  · exact ⟨h1, h2, lt_of_le_of_lt hle hlt, rfl⟩

/-- **What is sent is received**, if two states kept the packet. -/
theorem statelessWire_received (hs : d.Sound) (hlen : src.length ≤ maxPacketSize) {cap : ℕ} (hcap : src.length ≤ cap)
    (hx2 : SentWithX2 d src dstCap → X2Keeps (statelessSrc d src)) (dst : Out) (dstSize : ℕ) :
    ∃ dst', decompressStateless d (statelessWire d src (statelessPlan d src dstCap)) dst cap dstSize
        = .ok ⟨.ok, dst', src.length⟩ ∧ dst'.read src.length = src := by
  obtain ⟨o, ho⟩ : ∃ o, statelessPlan d src dstCap = o := ⟨_, rfl⟩
  obtain ⟨hsize, hc, hc16, hmodel⟩ := statelessWireHeader_fields hlen ho
  rw [ho, statelessWire_eq]
  rcases o with _ | p
  · have hdelta : PktFlag.has (PktFlag.passthru ||| PktFlag.dictId) PktFlag.delta = false := by decide
    exact decompressStateless_received hsize hlen hcap hc hc16 hmodel hdelta
      (passthru_statelessDelivered hsize hc rfl rfl) dst dstSize
  · obtain ⟨hdel, hdelta⟩ := (statelessPlan_format ho).delivered hs (fun h => hx2 (sentWithX2_of_plan ho h))
      hsize rfl rfl
    exact decompressStateless_received hsize hlen hcap hc hc16 hmodel hdelta hdel dst dstSize

/-- The decoder runs the dual-state decoder on a payload with two states. -/
theorem decodeSingle_x2 {tables : ℕ → Table} (h : TablesOk d tables) {idx : ℕ} (hidx : idx < ctxCount)
    {ctxFlags : UInt32} {hdr : PktHeader} (hbucket : packetBucket hdr.algorithm = idx)
    (hbigram : PktFlag.has hdr.flags PktFlag.bigram = CfgFlag.has ctxFlags CfgFlag.bigram)
    (hx2 : PktFlag.has hdr.flags PktFlag.x2 = true) (payload : List UInt8) (compact : Bool) :
    decodeSingle d tables hdr payload compact
      = decodeX2 (selectTansTable d tables idx 0 ctxFlags) payload hdr.originalSize compact := by
  rw [decodeSingle, hbucket, decompSelectTbl_eq h hidx hbigram, Exc.ok_bind]
  simp only [(selectTansTable_full h hidx 0 ctxFlags).valid, Bool.not_true, Bool.false_eq_true, if_false, hx2, if_true]

/-- The stateless decoder with a single table. -/
theorem statelessPayload_single (hs : d.Sound) {hdr : PktHeader} {lzp : Bool}
    (halg : algId hdr.algorithm = if lzp then Alg.lzp else Alg.tans)
    (hmreg : PktFlag.has hdr.flags PktFlag.mreg = false)
    {payload bytes : List UInt8} {code : Result} (h : decodeSingle d d.tables hdr payload false = .ok (bytes, code))
    (dst : Out) : statelessPayload d hdr payload dst = .ok (dst.write 0 bytes, code) := by
  obtain ⟨table, htable⟩ := Option.isSome_iff_exists.mp hs.lzp
  rw [statelessPayload]
  cases lzp with
  | true =>
    simp only [halg, htable, decodeTans_single hmreg, h, Out.commit_ok]
    rfl
  | false =>
    simp only [halg, decodeTans_single hmreg, h, Out.commit_ok]
    rfl

/-- From two states and an odd number of bytes the stateless decoder gets the third byte behind the first. -/
theorem statelessPayload_swapped (hs : d.Sound) {payload : List UInt8} {info : TansInfo} {a b c : UInt8}
    {l : List UInt8} (hsrc : statelessSrc d src = a :: b :: c :: l) (hodd : l.length % 2 = 0)
    (hc : Coded d d.tables (statelessSrc d src) 0 false payload info) (hx2 : info.x2 = true) {hdr : PktHeader}
    (hflags : hdr.flags = statelessTansFlags info)
    (halg : hdr.algorithm = statelessAlgorithm (statelessLzp d src.length).isSome info)
    (hsize : hdr.originalSize = src.length) :
    (LzpAnnounced hdr.algorithm ↔ (statelessLzp d src.length).isSome = true) ∧
      ∃ rest code, ∀ dst, statelessPayload d hdr payload dst = .ok (dst.write 0 (a :: c :: rest), code) := by
  have ht : TablesOk d d.tables := ⟨hs, hs.table⟩
  have hlen := length_statelessSrc d src
  obtain ⟨hf, ha⟩ := stateless_packet hc (statelessLzp d src.length).isSome
  obtain ⟨h1, h2, h3, -⟩ := codedFlags_has _ dictId_mem info.x2 (codedBigram 0 info)
  rw [← hf, ← hflags] at h1 h2 h3
  cases hc with
  | pctx h => cases hx2
  | pctxBigram hbigram hvalid h => cases hx2
  | @single cap idx p x2 hidx hshort h =>
    obtain rfl : x2 = true := hx2
    have halg : hdr.algorithm = singleAlg (statelessLzp d src.length).isSome idx := halg.trans ha
    have h2 : PktFlag.has hdr.flags PktFlag.bigram = CfgFlag.has 0 CfgFlag.bigram := h2
    obtain ⟨hid, hbucket, hl⟩ := singleAlg_reads idx hidx (statelessLzp d src.length).isSome
    rw [← halg] at hid hbucket hl
    have hfull := selectTansTable_full ht hidx 0 0
    obtain ⟨bs, code, hdec, -⟩ := decodeX2_safe hfull.sound payload hdr.originalSize false
    have hrun := (decodeSingle_x2 ht hidx hbucket h2 h1 payload false).trans hdec
    rw [hsrc] at h hlen
    rw [hsize, ← hlen] at hdec
    obtain ⟨rest, rfl⟩ := decodeX2_swapped hfull.sound hfull.freq_pos hodd (tansSingleWithTable_x2 h).2 hdec
    exact ⟨hl, rest, code, statelessPayload_single hs hid h3 hrun⟩

/-- The packet on the wire, if it leaves with two states. -/
theorem statelessPlan_x2 {payload : List UInt8} {info : TansInfo} (h0 : 0 < src.length)
    (ht : statelessTans d src dstCap = some (payload, info)) (hlz : statelessLz77 src dstCap payload.length = none) :
    statelessPlan d src dstCap = some (statelessTansPacket (statelessLzp d src.length).isSome payload info) := by
  simp only [statelessPlan, if_pos h0, ht, hlz]

/-- **Two states and an odd size.** A packet whose second and third filtered bytes differ does not come back. -/
theorem statelessWire_lost (hs : d.Sound) (hlen : src.length ≤ maxPacketSize) {cap : ℕ} (hcap : src.length ≤ cap)
    (hx2 : SentWithX2 d src dstCap) {a b c : UInt8} {l : List UInt8} (hsrc : statelessSrc d src = a :: b :: c :: l)
    (hodd : l.length % 2 = 0) (hne : b ≠ c) (dst : Out) (dstSize : ℕ) (r : StatelessRet)
    (hr : decompressStateless d (statelessWire d src (statelessPlan d src dstCap)) dst cap dstSize = .ok r)
    (hcode : r.code = .ok) : r.dst.read src.length ≠ src := by
  obtain ⟨payload, info, ht, hx2, hlz⟩ := hx2
  have hl := length_statelessSrc d src
  have h3 : 3 ≤ src.length := by
    rw [← hl, hsrc]
    simp
  have hplan := statelessPlan_x2 (by omega) ht hlz
  obtain ⟨hsize, hc, hc16, hmodel⟩ := statelessWireHeader_fields hlen hplan
  have hcoded := (tryTansCompress_coded (statelessTans_eq ht).1).1
  obtain ⟨hlzp, rest, code, hpay⟩ := statelessPayload_swapped hs hsrc hodd hcoded hx2 rfl rfl hsize
  obtain ⟨hf, ha⟩ := stateless_packet hcoded (statelessLzp d src.length).isSome
  have hdelta : PktFlag.has (statelessTansFlags info) PktFlag.delta = false := by
    rw [hf, (codedFlags_has _ dictId_mem info.x2 (codedBigram 0 info)).2.2.2.2.1]
    exact dictId_delta
  obtain ⟨dst', -, hread, hrun⟩ := decompressStateless_payload hsize hlen hcap hc hc16 hmodel hdelta (hpay dst) dstSize
  rw [hplan, statelessWire_eq, hrun, Except.ok.injEq] at hr
  subst hr
  by_cases hok : code = .ok
  · rw [if_pos hok, hread]
    intro heq
    have hbytes := undoStateless_injective d _ (heq.trans (undoStateless_src hlzp).symm)
    have htwo := congrArg (List.take 2) hbytes
    rw [hsrc, Out.read, ByteMem.take_slice _ _ (by omega), Out.write_byte,
      ByteMem.slice_write_prefix _ _ (by simp)] at htwo
    simp only [List.take_succ_cons, List.take_zero, List.cons.injEq, true_and, and_true] at htwo
    exact hne htwo.symm
  · rw [if_neg hok] at hcode
    exact absurd hcode hok

/-- **A packet comes back**, if two states kept it. -/
theorem statelessReturns_of_keeps (hs : d.Sound) (hlen : src.length ≤ maxPacketSize)
    (hcap : src.length + headerSize ≤ dstCap) {outCap : ℕ} (hout : src.length ≤ outCap)
    (hx2 : SentWithX2 d src dstCap → X2Keeps (statelessSrc d src)) (dst out : Out) (dstSize outSize : ℕ) :
    StatelessReturns d src dst dstCap dstSize out outCap outSize := by
  obtain ⟨hcode, hwire⟩ := @compressStateless_sent d _ _ hlen hcap dst dstSize
  obtain ⟨dst', hrun, hread⟩ := @statelessWire_received d _ dstCap hs hlen _ hout hx2 out outSize
  rw [← hwire] at hrun
  exact ⟨hcode, _, hrun, rfl, rfl, hread⟩

/-- **A packet is lost**, if it leaves with two states, has an odd size and a second byte other than the third. -/
theorem not_statelessReturns (hs : d.Sound) (hlen : src.length ≤ maxPacketSize)
    (hcap : src.length + headerSize ≤ dstCap) {outCap : ℕ} (hout : src.length ≤ outCap) (hx2 : SentWithX2 d src dstCap)
    (hodd : src.length % 2 = 1) (hne : (statelessSrc d src).getD 1 0 ≠ (statelessSrc d src).getD 2 0) (dst out : Out)
    (dstSize outSize : ℕ) : ¬StatelessReturns d src dst dstCap dstSize out outCap outSize := by
  obtain ⟨-, hwire⟩ := @compressStateless_sent d _ _ hlen hcap dst dstSize
  rintro ⟨-, r, hrun, hrcode, hsize, hread⟩
  have hl := length_statelessSrc d src
  rw [hwire] at hrun
  rw [hsize] at hread
  rcases hsrc : statelessSrc d src with _ | ⟨a, _ | ⟨b, _ | ⟨c, l⟩⟩⟩
  all_goals rw [hsrc] at hl hne; simp only [List.length_cons, List.length_nil] at hl
  · omega
  · simp at hne
  · omega
  · exact statelessWire_lost hs hlen hout hx2 hsrc (by omega) hne out outSize r hrun hrcode hread

/-- **The stateless round trip.** Every packet is compressed. It comes back, unless it leaves with two
states that do not keep its filtered bytes; with two states, an odd size and a second byte other than the
third it never comes back. -/
theorem stateless_roundtrip (htrained : Trained d) (hlen : src.length ≤ maxPacketSize)
    (hcap : src.length + headerSize ≤ dstCap) {outCap : ℕ} (hout : src.length ≤ outCap) (dst out : Out)
    (dstSize outSize : ℕ) :
    (¬(SentWithX2 d src dstCap ∧ ¬X2Keeps (statelessSrc d src)) →
        StatelessReturns d src dst dstCap dstSize out outCap outSize) ∧
      (SentWithX2 d src dstCap ∧ src.length % 2 = 1 ∧ (statelessSrc d src).getD 1 0 ≠ (statelessSrc d src).getD 2 0 →
        ¬StatelessReturns d src dst dstCap dstSize out outCap outSize) := by
  have hs := htrained.sound
  constructor
  · intro hx2
    exact statelessReturns_of_keeps hs hlen hcap hout (fun h => by_contra fun hkeep => hx2 ⟨h, hkeep⟩) dst out _ _
  · rintro ⟨hx2, hodd, hne⟩
    exact not_statelessReturns hs hlen hcap hout hx2 hodd hne dst out _ _

/-- Two states are for packets of 256 bytes and more. -/
theorem SentWithX2.long (h : SentWithX2 d src dstCap) : 256 ≤ src.length := by
  obtain ⟨payload, info, ht, hx2, -⟩ := h
  rw [← length_statelessSrc d src]
  exact ((tryTansCompress_coded (statelessTans_eq ht).1).1.x2 hx2).2.1

end Roundtrip

/-! ### A packet that is lost -/

section Sizes

variable {d : Dict} {tables : ℕ → Table} {src : List UInt8} {cap : ℕ} {compact : Bool}

/-- Where no byte takes fewer than eight bits, the tables of the positions do not fit in the packet's own size. -/
theorem pctxAttempt_none (h : TablesOk d tables) (hcap : cap ≤ src.length + stateSz compact)
    (hnb : ∀ j b, src[j]? = some b → ∀ X, tans12.InRange X → 8 ≤ (tables (ctxBucket j)).nb b.toNat X) :
    (pctxAttempt tables src cap compact).result = none := by
  have hbits : ∀ j b, src[j]? = some b → ∀ prev t, pctxSelect tables (0 + j) prev = some t →
      0 < (t.encode b.toNat).freq ∧ ∀ X, tans12.InRange X → 8 ≤ t.nb b.toNat X := by
    intro j b hb prev t ht
    have hfull := h.full _ (ctxBucket_lt j)
    rw [pctxSelect, Table.ifValid, Nat.zero_add, hfull.valid, if_pos rfl] at ht
    obtain rfl := Option.some.inj ht
    exact ⟨hfull.freq_pos b, hnb j b hb⟩
  rw [pctxAttempt, tansEncodePctx, startState_size]
  split
  · rfl
  · rcases hrun : encodeRun true (pctxSelect tables) 0 0 src tans12.size (bswInit (cap - stateSz compact))
      with w | ⟨X, w⟩
    · rfl
    · obtain ⟨hX, hw, T, V, hholds, hT⟩ := encodeRun_bits (selOk_pctx h).sound tans12.inRange_size
        (bswInit_holds (cap - stateSz compact)) src 0 0 X w hbits hrun
      have hw : w.cap = cap - stateSz compact := hw
      have h0 : X ≠ 0 := by
        have := hX.1
        have := tans12.size_pos
        omega
      rw [encodeReturn, closeStream, if_neg h0]
      rcases hflush : bswFlush w with w' | w'
      · rfl
      · obtain ⟨-, h1, h2⟩ := bswFlush_holds hholds hflush
        omega

/-- The encoder with two states succeeds with room for its bits. -/
theorem tansX2Attempt_some {t : Table} (ht : FullTable t) {cost : UInt8 → ℕ} (hlen : 2 ≤ src.length)
    (hcost : ∀ b ∈ src, ∀ X, tans12.InRange X → t.nb b.toNat X ≤ cost b)
    (hcap : 2 * stateSz compact + (src.map cost).sum / 8 + 1 ≤ cap) :
    ∃ p, (tansX2Attempt t src cap compact).result = some (p, ()) ∧
      p.length ≤ 2 * stateSz compact + (src.map cost).sum / 8 + 1 := by
  obtain ⟨X0, X1, w, T, V, hrun, -, -, hw, hholds, hT, -⟩ := encodeX2Run_cost ht.sound
    (bswInit_holds (cap - 2 * stateSz compact)) src (fun b _ => ht.freq_pos b) hcost (by simp only [bswInit]; omega)
  have hw : w.cap = cap - 2 * stateSz compact := hw
  obtain ⟨w', hflush⟩ := bswFlush_ok hholds (by omega)
  obtain ⟨-, hout, -⟩ := bswFlush_holds hholds hflush
  have henc : tansEncodeX2 t src (bswInit (cap - 2 * stateSz compact)) = .ok (X0, X1, w) := by
    rw [tansEncodeX2_eq ht.valid hlen, hrun]
  refine ⟨writeState compact X0 ++ (writeState compact X1 ++ w'.out), ?_, ?_⟩
  · simp only [tansX2Attempt, henc, hflush]
  · simp only [List.length_append, length_writeState]
    omega

/-- Where the tables of the positions do not fit, a single table is tried. -/
theorem tryTansCompress_single (h : TablesOk d tables) {ctxFlags : UInt32} (h0 : ctxBucket (src.length - 1) ≠ 0)
    (hskip : CfgFlag.has ctxFlags CfgFlag.skipSr = false) (hpctx : (pctxAttempt tables src cap compact).result = none) :
    (tryTansCompress d tables src cap ctxFlags compact).result
      = (tansSingleRegion d tables src cap ctxFlags compact).result := by
  have hlen : src.length ≠ 0 := fun hlen => h0 (by rw [hlen]; rfl)
  have hall : ((List.range (ctxBucket (src.length - 1) + 1)).any fun b => !(tables b).valid) = false := by
    rw [List.any_eq_false]
    intro b hb
    have hb := List.mem_range.mp hb
    have hlt := ctxBucket_lt (src.length - 1)
    rw [(h.full b (by omega)).valid]
    decide
  have hnone : (if stateSz compact ≤ cap then pctxAttempt tables src cap compact else ⟨[], none⟩).result = none := by
    split
    · exact hpctx
    · rfl
  simp only [tryTansCompress, if_neg hlen, if_neg h0, hall, Bool.false_eq_true, if_false, hnone, hskip]

end Sizes

/-- A slot that was met once has no prediction. -/
theorem trainLzp_once (b : UInt8) : trainLzp [[b]] = fun _ => ⟨0, 0⟩ := by
  funext h
  have hpos : positions [[b]] = [(0, 0, b)] := rfl
  have hmet : (lzpHits (lzpVotes [[b]]) [[b]]).1 h ≤ 1 := by
    simp only [lzpHits, hpos, List.foldl_cons, List.foldl_nil, bumpSat, bump, Nat.zero_lt_succ, if_true,
      Function.update_apply]
    split <;> omega
  simp only [trainLzp]
  rw [if_neg (by omega)]

/-- The frequencies from one zero byte. -/
def onceFreq : Freq := fun s => if s = 0 then 3841 else 1

theorem freqNormalize_once : freqNormalize (bump (fun _ => 0) 0) 1 = onceFreq := by
  have hbonus : ∀ s, bonus (bump (fun _ => 0) 0) 1 s = Function.update (fun _ => 0) 0 (0 + 3840) s := by
    intro s
    by_cases hs : s = 0
    · subst hs
      simp [bonus, bump]
    · simp [bonus, bump, hs]
  obtain ⟨hout, hsum, -⟩ := normLoop_inv (bump (fun _ => 0) 0) 1
  rw [cumul_congr fun s _ => hbonus s, cumul_update_add (fun _ => 0) 3840 (show 0 < 256 by norm_num),
    cumul_const] at hsum
  rw [freqNormalize, if_neg (by norm_num), normCorrect, if_neg (by omega), if_neg (by omega)]
  funext s
  rw [hout, hbonus, onceFreq]
  by_cases hs : s = 0
  · subst hs
    rfl
  · simp [hs]

/-- After one zero byte the first bucket expects zeros, the others anything. -/
theorem dictTrain_once {d : Dict} (h : dictTrain [[0]] 1 = .ok d) :
    tansBuild onceFreq = some (d.tables 0) ∧ ∀ b < ctxCount, 0 < b → tansBuild (fun _ => 16) = some (d.tables b) := by
  have hcorpus : ([[0]] : List (List UInt8)).map (List.take maxPacketSize) = [[0]] := rfl
  have hfilter : ([[0]] : List (List UInt8)).map (lzpXorFilter (trainLzp [[0]])) = [[0]] := by
    rw [trainLzp_once]
    rfl
  have htables := fun b (hb : b < ctxCount) => hfilter ▸ dictTrain_tables h hcorpus hb
  have hcounts : bucketCounts [[0]] = (Counts.zero ℕ).add 0 0 := rfl
  refine ⟨?_, fun b hb h0 => ?_⟩
  · rw [← htables 0 (by decide), hcounts, buildFrom]
    simp only [Counts.add, Function.update_self, Counts.zero]
    rw [← freqNormalize_once]
    rfl
  · rw [← htables b hb, hcounts, buildFrom]
    simp only [Counts.add, Function.update_of_ne h0.ne', Counts.zero]
    rfl

/-- The bytes of `lostPacket` in the first bucket. -/
def lostHead : List UInt8 := [1, 2, 1, 1, 1, 1, 1, 1]

/-- Eight bytes the first bucket does not expect, and then zeros. -/
def lostPacket : List UInt8 := lostHead ++ List.replicate 1017 0

theorem length_lostPacket : lostPacket.length = 1025 := by
  rw [lostPacket, List.length_append, List.length_replicate]
  rfl

theorem lostHead_ne : ∀ b ∈ lostHead, b ≠ 0 := by simp [lostHead]

theorem lostPacket_ne : lostPacket.getD 1 0 ≠ lostPacket.getD 2 0 := by
  rw [lostPacket, List.getD_append _ _ _ _ (by decide), List.getD_append _ _ _ _ (by decide)]
  decide

/-- The packet is too long for the filter. -/
theorem lostPacket_src (d : Dict) : statelessSrc d lostPacket = lostPacket := by
  simp only [statelessSrc, statelessLzp, length_lostPacket]
  rfl

section Lost

variable {d : Dict} (h : dictTrain [[0]] 1 = .ok d)
include h

/-- With the tables of the positions no byte takes fewer than eight bits. -/
theorem lostPacket_le_nb {j : ℕ} {b : UInt8} (hb : lostPacket[j]? = some b) {X : ℕ} (hX : tans12.InRange X) :
    8 ≤ (d.tables (ctxBucket j)).nb b.toNat X := by
  obtain ⟨hfirst, hflat⟩ := dictTrain_once h
  have hlog : tans12.tableLog = 12 := rfl
  have hlt := UInt8.toNat_lt b
  by_cases hj : j < 8
  · have hb0 : b ≠ 0 := by
      rw [lostPacket, List.getElem?_append_left (show j < lostHead.length from hj)] at hb
      exact lostHead_ne b (List.mem_of_getElem? hb)
    have hb1 : onceFreq b.toNat = 1 := if_neg fun h0 => hb0 (UInt8.toNat_inj.mp h0)
    have hnb := @le_nb_of_le_two_pow tans12 _ _ hfirst _ hlt (by omega) 0 hb1.le (Nat.zero_le _) _ hX
    rw [ctxBucket, if_pos hj]
    omega
  · have hne : 0 < ctxBucket j := Nat.pos_of_ne_zero fun h0 => hj (ctxBucket_eq_zero h0)
    have hnb := @le_nb_of_le_two_pow tans12 _ _ (hflat _ (ctxBucket_lt j) hne) _ hlt (by norm_num) 4 (by norm_num)
      (by omega) _ hX
    omega

/-- With the first table and two states the packet takes 148 bytes. -/
theorem lostPacket_x2 : ∃ p, (tansX2Attempt (d.tables 0) lostPacket 1025 false).result = some (p, ()) ∧
    p.length ≤ 148 := by
  obtain ⟨hfirst, -⟩ := dictTrain_once h
  have hfull := (dictTrain_sound h).table 0 (by decide)
  have hlen := length_lostPacket
  -- a zero takes one bit, another byte at most twelve
  have hcost : ∀ b ∈ lostPacket, ∀ X, tans12.InRange X →
      (d.tables 0).nb b.toNat X ≤ if b = 0 then 1 else 12 := by
    intro b _ X _
    by_cases hb : b = 0
    · subst hb
      exact @nb_le_of_log2 tans12 _ _ hfirst 0 (by norm_num) (by decide) X
    · rw [if_neg hb]
      exact hfull.sound.nb_le b.toNat X
  have hsum : (lostPacket.map fun b => if b = 0 then 1 else 12).sum = 1113 := by
    rw [lostPacket, List.map_append, List.map_replicate, List.sum_append, List.sum_replicate]
    rfl
  have hst : 2 * stateSz false = 8 := rfl
  obtain ⟨p, hp, hle⟩ := @tansX2Attempt_some lostPacket 1025 false _ hfull _ (by omega) hcost
    (by rw [hsum, hst]; norm_num)
  rw [hsum, hst] at hle
  exact ⟨p, hp, by omega⟩

/-- The packet leaves with two states. -/
theorem lostPacket_sentWithX2 : SentWithX2 d lostPacket 1033 := by
  have hs := dictTrain_sound h
  have ht : TablesOk d d.tables := ⟨hs, hs.table⟩
  have hlen := length_lostPacket
  obtain ⟨p, hp, hle⟩ := lostPacket_x2 h
  have hpctx := @pctxAttempt_none d d.tables lostPacket 1025 false ht (by rw [hlen]; decide)
    fun j b hb X hX => lostPacket_le_nb h hb hX
  have hsingle : (tansSingleRegion d d.tables lostPacket 1025 0 false).result = some (p, ⟨0, true, 0⟩) := by
    have htable : singleRegionTable d d.tables lostPacket 0 false = some (d.tables 0, 0) := by
      rw [singleRegionTable, if_neg (by simp [hlen])]
      rfl
    have hw : wantsX2 lostPacket.length 1025 0 false = true := by
      rw [hlen]
      decide
    simp only [tansSingleRegion, htable, tansSingleWithTable, (hs.table 0 (by decide)).valid, Bool.not_true,
      Bool.false_eq_true, if_false, hw, if_true, hp, Option.map_some]
  have htry := @tryTansCompress_single d d.tables lostPacket 1025 false ht 0 (by rw [hlen]; decide) (by decide) hpctx
  refine ⟨p, ⟨0, true, 0⟩, ?_, rfl, ?_⟩
  · rw [statelessTans, lostPacket_src, show 1033 - headerSize = 1025 from rfl, htry, hsingle]
    exact if_pos (by omega)
  · rw [statelessLz77, if_neg (by omega)]

end Lost

/-- Both calls for a short packet, and for the packet that is lost. -/
theorem stateless_roundtrip_once : ∃ d, dictTrain [[0]] 1 = .ok d ∧
    StatelessReturns d [1, 2, 3] .empty 64 0 .empty 64 0 ∧
    ¬StatelessReturns d lostPacket .empty 1033 0 .empty 1025 0 := by
  obtain ⟨d, hd⟩ := @dictTrain_ok [[0]] 1 (by decide)
  have hlen := length_lostPacket
  refine ⟨d, hd, ?_, ?_⟩
  · refine (stateless_roundtrip ⟨_, _, hd⟩ (by decide) (by decide) (by decide) .empty .empty 0 0).1 ?_
    rintro ⟨hx2, -⟩
    exact absurd hx2.long (by decide)
  · have hmax : maxPacketSize = 65535 := rfl
    have h8 : headerSize = 8 := rfl
    refine (stateless_roundtrip ⟨_, _, hd⟩ (by omega) (by omega) (by omega) .empty .empty 0 0).2 ?_
    refine ⟨lostPacket_sentWithX2 hd, by omega, ?_⟩
    rw [lostPacket_src]
    exact lostPacket_ne

/-- **A packet of 1025 bytes is lost**: a dictionary trained on one zero byte, and room for packet and header. -/
theorem stateless_loses : ∃ d, dictTrain [[0]] 1 = .ok d ∧ lostPacket.length ≤ maxPacketSize ∧
    lostPacket.length + headerSize ≤ 1033 ∧ lostPacket.length ≤ 1025 ∧
    ¬StatelessReturns d lostPacket .empty 1033 0 .empty 1025 0 := by
  obtain ⟨d, hd⟩ := @dictTrain_ok [[0]] 1 (by decide)
  have hlen := length_lostPacket
  have hmax : maxPacketSize = 65535 := rfl
  have h8 : headerSize = 8 := rfl
  refine ⟨d, hd, by omega, by omega, by omega, ?_⟩
  refine not_statelessReturns (dictTrain_sound hd) (by omega) (by omega) (by omega) (lostPacket_sentWithX2 hd)
    (by omega)
    ?_ .empty .empty 0 0
  rw [lostPacket_src]
  exact lostPacket_ne

end Netc
