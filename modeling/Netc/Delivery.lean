/-
# What is sent is what is received

A packet in any format of the plan, decoded by a context that holds the same
model and history as the sender's: the payload gives the coded bytes back and
the post-passes undo what the pre-passes did (`Format.delivered`). Two formats
do not keep this by themselves. Two states give back the bytes that `X2Keeps`
describes; and the type byte of a compact header has to carry what it stands for.

Key definitions: `Agree`, `TansDecodes`, `Delivered`.
Key theorems: `SourceFor.undone`, `Made.decodes`, `Format.delivered`, `wire_received`.
-/
import Netc.CompressSpec

namespace Netc

/-! ### The two sides of a connection -/

/-- Sender and receiver hold the same model and the same history. -/
structure Agree (enc dec : Ctx) : Prop where
  dict : dec.dict = enc.dict
  compact : dec.compactMode = enc.compactMode
  ring : dec.ring = enc.ring
  ringPos : dec.ringPos = enc.ringPos
  prevPkt : dec.prevPkt = enc.prevPkt
  prevPktSize : dec.prevPktSize = enc.prevPktSize
  prev2Pkt : dec.prev2Pkt = enc.prev2Pkt
  prev2PktSize : dec.prev2PktSize = enc.prev2PktSize
  adapt : dec.adapt = enc.adapt
  adaptLzp : dec.adaptLzp = enc.adaptLzp
  adaptPktCount : dec.adaptPktCount = enc.adaptPktCount

section Agree

variable {enc dec : Ctx}

theorem Agree.prediction (h : Agree enc dec) (flags : UInt8) (n : ℕ) :
    decompPrediction dec flags n = decompPrediction enc flags n := by
  simp only [decompPrediction, h.prevPkt, h.prevPktSize, h.prev2Pkt, h.prev2PktSize]

theorem Agree.getTables (h : Agree enc dec) (d : Dict) : dec.getTables d = enc.getTables d := by
  simp only [Ctx.getTables, h.adapt]

theorem Agree.getLzpTable (h : Agree enc dec) : dec.getLzpTable = enc.getLzpTable := by
  simp only [Ctx.getLzpTable, h.adaptLzp, h.dict]

theorem Agree.hasRing (h : Agree enc dec) : dec.hasRing = enc.hasRing := by
  simp only [Ctx.hasRing, h.ring]

theorem Agree.modelId (h : Agree enc dec) : dec.modelId = enc.modelId := by
  simp only [Ctx.modelId, h.dict]

theorem Agree.undo (h : Agree enc dec) (hdr : PktHeader) (l : List UInt8) : undo dec hdr l = undo enc hdr l := by
  simp only [Netc.undo, h.prediction, h.getLzpTable]

end Agree

/-! ### Sources -/

/-- What the post-passes make of a source's bytes, given flags of a header. -/
def unsourced (ctx : Ctx) (flags : UInt8) (didLzp : Bool) (l : List UInt8) : List UInt8 :=
  restored (decompPrediction ctx flags l.length) (if didLzp then unfiltered ctx.getLzpTable l else l)

section Sources

variable {ctx : Ctx} {src : List UInt8} {s : Source} {flags : UInt8}

/-- A packet is recorded as the previous one only where there is room for it. -/
theorem wantsDelta_prev (hwf : ctx.Wf) (h : wantsDelta ctx src.length = true) :
    ∃ prev, ctx.prevPkt = some prev ∧ ctx.prevPktSize = src.length := by
  obtain ⟨hsize, hmin, -⟩ := wantsDelta_room h
  rcases hp : ctx.prevPkt with _ | prev
  · have h0 := hwf.prev_none hp
    have h8 : deltaMinSize = 8 := rfl
    omega
  · exact ⟨prev, rfl, hsize⟩

theorem order2Trial_eq {o2 : List UInt8} (h : order2Trial ctx src = some o2) :
    ∃ prev2, ctx.prev2Pkt = some prev2 ∧ ctx.prev2PktSize = src.length ∧
      o2 = deltaEncodeOrder2 prev2.byte ctx.prevByte src ∧ zeros (deltaEncode ctx.prevByte src) < zeros o2 := by
  rw [order2Trial] at h
  rcases hp : ctx.prev2Pkt with _ | prev2
  · simp [hp] at h
  · simp only [hp] at h
    split at h
    · next hsize =>
      split at h
      · next hz =>
        obtain rfl := Option.some.inj h
        exact ⟨prev2, rfl, hsize, rfl, hz⟩
      · cases h
    · cases h

theorem unfiltered_filter (lzp : LzpTable) (l : List UInt8) : unfiltered (some lzp) (lzpXorFilter lzp l) = l := by
  rw [unfiltered, lzpXorUnfilter_lzpXorFilter]

theorem dictId_delta : PktFlag.has PktFlag.dictId PktFlag.delta = false := by decide

theorem order1_flags : PktFlag.has (PktFlag.dictId ||| PktFlag.delta) PktFlag.delta = true ∧
    PktFlag.has (PktFlag.dictId ||| PktFlag.delta) PktFlag.rle = false := by decide

theorem order2_flags : PktFlag.has (PktFlag.dictId ||| PktFlag.delta ||| PktFlag.rle) PktFlag.delta = true ∧
    PktFlag.has (PktFlag.dictId ||| PktFlag.delta ||| PktFlag.rle) PktFlag.rle = true := by decide

/-- **The post-passes undo the pre-passes**, if the header tells the order of the residuals. -/
theorem SourceFor.undone (hwf : ctx.Wf) (h : SourceFor ctx src s)
    (hdelta : PktFlag.has flags PktFlag.delta = PktFlag.has s.pktFlags PktFlag.delta)
    (hrle : PktFlag.has flags PktFlag.rle = PktFlag.has s.pktFlags PktFlag.rle) :
    unsourced ctx flags s.didLzp s.bytes = src := by
  have hlen := h.length
  rw [unsourced, hlen]
  cases h with
  | plain =>
    rw [decompPrediction_none (hdelta.trans dictId_delta)]
    rfl
  | lzp hl =>
    rw [decompPrediction_none (hdelta.trans dictId_delta), restored]
    simp only [if_true, hl]
    exact unfiltered_filter _ _
  | order1 hw =>
    obtain ⟨prev, hp, hn⟩ := wantsDelta_prev hwf hw
    rw [decompPrediction_order1 (hdelta.trans order1_flags.1) (hrle.trans order1_flags.2) hp hn]
    simp only [Bool.false_eq_true, if_false, restored, Ctx.prevByte, hp]
    exact deltaDecode_deltaEncode _ _
  | order2 hw ho =>
    obtain ⟨prev, hp, hn⟩ := wantsDelta_prev hwf hw
    obtain ⟨prev2, hp2, hn2, rfl, -⟩ := order2Trial_eq ho
    rw [decompPrediction_order2 (hdelta.trans order2_flags.1) (hrle.trans order2_flags.2) hp hn hp2 hn2]
    simp only [Bool.false_eq_true, if_false, restored, Ctx.prevByte, hp]
    exact deltaDecodeOrder2_deltaEncodeOrder2 _ _ _

end Sources

/-! ### tANS payloads -/

/-- The tANS branches of the two decompressors give `bytes`. -/
inductive TansDecodes (d : Dict) (tables : ℕ → Table) (hdr : PktHeader) (compact : Bool) (payload : List UInt8)
    (bytes : List UInt8) : Prop
  | table (halg : algId hdr.algorithm = Alg.tans ∨ algId hdr.algorithm = Alg.lzp)
      (hmreg : PktFlag.has hdr.flags PktFlag.mreg = false)
      (h : decodeSingle d tables hdr payload compact = .ok (bytes, .ok))
  | pctx (halg : algId hdr.algorithm = Alg.tansPctx) (h : decodePctx d tables hdr payload compact = .ok (bytes, .ok))
  | ten (halg : algId hdr.algorithm = Alg.tans10) (h : decode10 tables hdr payload = .ok (bytes, .ok))

section Tans

variable {d : Dict} {tables : ℕ → Table} {hdr : PktHeader} {payload bytes : List UInt8}

theorem Out.commit_ok (dst : Out) {bs : List UInt8} {code : Result} :
    dst.commit (.ok (bs, code)) = .ok (dst.write 0 bs, code) := rfl

theorem decodeTans_single (hmreg : PktFlag.has hdr.flags PktFlag.mreg = false) (dst : Out) (compact : Bool) :
    decodeTans d tables hdr payload dst compact = dst.commit (decodeSingle d tables hdr payload compact) := by
  rw [decodeTans, hmreg, if_neg (by simp)]

/-- The branch of `netc_decompress` for them. -/
theorem TansDecodes.stateful {ctx : Ctx} (hwf : ctx.Wf) (hd : ctx.dict = some d)
    (h : TansDecodes d (ctx.getTables d) hdr ctx.compactMode payload bytes) (dst : Out) :
    decodePayload ctx hdr payload dst = .ok (dst.write 0 bytes, .ok) := by
  obtain ⟨lzp, hl⟩ := Option.isSome_iff_exists.mp (hwf.getLzpTable_isSome hd)
  rw [decodePayload]
  cases h with
  | table halg hmreg h =>
    rcases halg with halg | halg
    · simp only [halg, hd, decodeTans_single hmreg, h, Out.commit_ok]
      rfl
    · simp only [halg, hd, hl, decodeTans_single hmreg, h, Out.commit_ok]
      rfl
  | pctx halg h =>
    simp only [halg, hd, h, Out.commit_ok]
    rfl
  | ten halg h =>
    simp only [halg, hd, h, Out.commit_ok]
    rfl

/-- The branch of `netc_decompress_stateless` for them. -/
theorem TansDecodes.stateless (hs : d.Sound) (h : TansDecodes d d.tables hdr false payload bytes) (dst : Out) :
    statelessPayload d hdr payload dst = .ok (dst.write 0 bytes, .ok) := by
  obtain ⟨lzp, hl⟩ := Option.isSome_iff_exists.mp hs.lzp
  rw [statelessPayload]
  cases h with
  | table halg hmreg h =>
    rcases halg with halg | halg
    · simp only [halg, decodeTans_single hmreg, h, Out.commit_ok]
      rfl
    · simp only [halg, hl, decodeTans_single hmreg, h, Out.commit_ok]
      rfl
  | pctx halg h =>
    simp only [halg, h, Out.commit_ok]
    rfl
  | ten halg h =>
    simp only [halg, h, Out.commit_ok]
    rfl

end Tans

/-- Whether a payload was coded with the tables of byte classes. -/
def codedBigram (ctxFlags : UInt32) (info : TansInfo) : Bool :=
  decide (info.mreg = 3) || (decide (info.mreg ≤ 1) && CfgFlag.has ctxFlags CfgFlag.bigram)

/-- The algorithm of a packet coded with 12-bit tables. -/
def codedAlg (lzp : Bool) (info : TansInfo) : UInt8 :=
  if info.mreg = 0 then singleAlg lzp info.tblIdx else pctxAlg lzp

section Coded

variable {d : Dict} {tables : ℕ → Table} {bytes p : List UInt8} {ctxFlags : UInt32} {compact : Bool} {info : TansInfo}

/-- Two states go with neither bigrams nor short packets, and not where they are turned off. -/
theorem Coded.x2 (hc : Coded d tables bytes ctxFlags compact p info) (hx2 : info.x2 = true) :
    info.mreg = 0 ∧ 256 ≤ bytes.length ∧ CfgFlag.has ctxFlags CfgFlag.bigram = false ∧
      CfgFlag.has ctxFlags CfgFlag.noX2 = false := by
  cases hc with
  | pctx h => cases hx2
  | pctxBigram hbigram hvalid h => cases hx2
  | @single cap idx p x2 hidx hshort h =>
    obtain rfl : x2 = true := hx2
    obtain ⟨hw, -⟩ := tansSingleWithTable_x2 h
    simp only [wantsX2, Bool.and_eq_true, Bool.not_eq_true', decide_eq_true_eq] at hw
    exact ⟨rfl, hw.1.2, hw.1.1⟩

/-- **From a coded payload the decoders restore the bytes**, if two states kept them. -/
theorem Coded.decodes (h : TablesOk d tables) (hc : Coded d tables bytes ctxFlags compact p info)
    (hne : bytes.length ≠ 0) {f : UInt8} (hf : f ∈ sourceFlags) {hdr : PktHeader} {lzp : Bool}
    (hflags : hdr.flags = codedFlags f info.x2 (codedBigram ctxFlags info)) (halg : hdr.algorithm = codedAlg lzp info)
    (hsize : hdr.originalSize = bytes.length) (hkeep : info.x2 = true → X2Keeps bytes) :
    TansDecodes d tables hdr compact p bytes ∧ (LzpAnnounced hdr.algorithm ↔ lzp = true) := by
  obtain ⟨hx2, hbigram, hmreg, -⟩ := codedFlags_has f hf info.x2 (codedBigram ctxFlags info)
  rw [← hflags] at hx2 hbigram hmreg
  cases hc with
  | @single cap idx p x2 hidx hshort h' =>
    have halg : hdr.algorithm = singleAlg lzp idx := halg
    obtain ⟨h1, h2, h3⟩ := singleAlg_reads idx hidx lzp
    rw [← halg] at h1 h2 h3
    refine ⟨.table ?_ hmreg (decodeSingle_coded h hne hidx h' hsize h2 hbigram hx2 hkeep), h3⟩
    rw [h1]
    cases lzp with
    | true => exact .inr rfl
    | false => exact .inl rfl
  | pctx h' =>
    have halg : hdr.algorithm = pctxAlg lzp := halg
    obtain ⟨h1, h2⟩ := pctxAlg_reads lzp
    rw [← halg] at h1 h2
    exact ⟨.pctx h1 (decodePctx_coded h hne h' hsize hbigram), h2⟩
  | pctxBigram hb hvalid h' =>
    have halg : hdr.algorithm = pctxAlg lzp := halg
    obtain ⟨h1, h2⟩ := pctxAlg_reads lzp
    rw [← halg] at h1 h2
    exact ⟨.pctx h1 (decodePctx_coded_bigram h hne hvalid h' hsize hbigram), h2⟩

end Coded

/-- The post-passes of the tANS branches. -/
theorem TansDecodes.undo {d : Dict} {tables : ℕ → Table} {hdr : PktHeader} {compact : Bool} {payload bytes : List UInt8}
    (h : TansDecodes d tables hdr compact payload bytes) (ctx : Ctx) {lzp : Bool}
    (hl : LzpAnnounced hdr.algorithm ↔ lzp = true) (l : List UInt8) :
    undo ctx hdr l = unsourced ctx hdr.flags lzp l := by
  have halg : algId hdr.algorithm ≠ Alg.passthru ∧ algId hdr.algorithm ≠ Alg.lz77x := by
    rcases h with ⟨halg | halg, -, -⟩ | ⟨halg, -⟩ | ⟨halg, -⟩ <;> rw [halg] <;> decide
  simp only [Netc.undo, if_neg halg.1, if_neg halg.2, unsourced, hl]
  cases lzp <;> rfl

/-! ### Packets of the plan -/

/-- The receiver gets `src` from the payload of a packet with this header. -/
def Delivered (dec : Ctx) (hdr : PktHeader) (payload src : List UInt8) : Prop :=
  ∃ bytes, bytes.length = src.length ∧ (∀ dst, decodePayload dec hdr payload dst = .ok (dst.write 0 bytes, .ok)) ∧
    undo dec hdr bytes = src

/-- Two states keep what they can be given: the packet, or in front of an eight-byte header its filtered bytes. -/
def X2Safe (ctx : Ctx) (src : List UInt8) : Prop :=
  ∀ s, SourceFor ctx src s → s.didDelta = false → (ctx.compactMode = true → s.didLzp = false) → X2Keeps s.bytes

section Made

variable {j : Job} {s : Source} {w : Draft}

theorem Made.coded_packet (h : Made j s w) (h10 : w.used10 = false) :
    w.packet.flags = codedFlags s.pktFlags w.info.x2 (codedBigram w.tansFlags w.info) ∧
      w.packet.algorithm = codedAlg s.didLzp w.info := by
  have hc := h.coded h10
  rcases hi : w.info with ⟨mreg, x2, idx⟩
  rw [hi] at hc
  cases hc with
  | single hidx hshort hp =>
    obtain ⟨h1, h2⟩ := h.single_packet h10 (by rw [hi])
    rw [hi] at h1 h2
    rw [h1, h2, codedBigram, h.bigram]
    exact ⟨rfl, rfl⟩
  | pctx hp => exact h.pctx_packet h10 (by rw [hi]) (by rw [hi])
  | pctxBigram hb hvalid hp => exact h.bigram_packet h10 (by rw [hi]) (by rw [hi])

/-- What two states were given. -/
theorem Made.x2_source (h : Made j s w) (h10 : w.used10 = false) (hx2 : w.info.x2 = true) :
    s.didDelta = false ∧ (j.compact = true → s.didLzp = false) := by
  have hc := h.coded h10
  obtain ⟨hmreg, hlen, -, hno⟩ := hc.x2 hx2
  constructor
  · rw [← h.didDelta, ← Bool.not_eq_true]
    intro hd
    have := Job.short_of_coded hc (h.skipSr hd) hmreg
    omega
  · intro hcompact
    rw [← h.didLzp, ← Bool.not_eq_true]
    intro hl
    rw [h.noX2 hl hcompact] at hno
    cases hno

end Made

/-- What the flags of an LZ77 packet tell. -/
theorem lz77Flags_has : ∀ f ∈ sourceFlags, PktFlag.has (f ||| PktFlag.lz77 ||| PktFlag.passthru) PktFlag.lz77 = true ∧
    PktFlag.has (f ||| PktFlag.lz77 ||| PktFlag.passthru) PktFlag.passthru = true ∧
    PktFlag.has (f ||| PktFlag.lz77 ||| PktFlag.passthru) PktFlag.delta = PktFlag.has f PktFlag.delta ∧
    PktFlag.has (f ||| PktFlag.lz77 ||| PktFlag.passthru) PktFlag.rle = PktFlag.has f PktFlag.rle ∧
    PktFlag.has (f ||| PktFlag.lz77 ||| PktFlag.passthru) PktFlag.x2 = false := by
  simp only [forall_sourceFlags]
  decide

theorem algId_passthru : algId Alg.passthru = Alg.passthru := by decide

theorem algId_lz77x : algId Alg.lz77x = Alg.lz77x := by decide

section Format

variable {enc dec : Ctx} {src : List UInt8} {dstCap : ℕ} {p : Packet} {hdr : PktHeader}

/-- **From a tANS packet of a source the decoders restore its bytes**, and its header tells what to undo. -/
theorem Made.decodes {d : Dict} {s : Source} {w : Draft} (hwf : enc.Wf) (hd : enc.dict = some d)
    (hs : SourceFor enc src s) (hne : src.length ≠ 0) (hm : Made ⟨enc, d, src, dstCap⟩ s w)
    (hx2 : PktFlag.has w.packet.flags PktFlag.x2 = true → X2Safe enc src) (hsize : hdr.originalSize = src.length)
    (hflags : hdr.flags = w.packet.flags) (halg : hdr.algorithm = w.packet.algorithm) :
    TansDecodes d (enc.getTables d) hdr enc.compactMode w.payload s.bytes ∧
      (LzpAnnounced hdr.algorithm ↔ s.didLzp = true) ∧
      PktFlag.has hdr.flags PktFlag.delta = PktFlag.has s.pktFlags PktFlag.delta ∧
      PktFlag.has hdr.flags PktFlag.rle = PktFlag.has s.pktFlags PktFlag.rle := by
  have ht := hwf.tablesOk hd
  have hne' : s.bytes.length ≠ 0 := by rwa [hs.length]
  have hsize' : hdr.originalSize = s.bytes.length := hsize.trans hs.length.symm
  cases h10 : w.used10 with
  | true =>
    obtain ⟨hf, hb⟩ := hm.ten_packet h10
    obtain ⟨-, -, hlzp, hidx, -, -, t10, cap, ht10, hp⟩ := hm.coded10 h10
    obtain ⟨h1, h2, h3⟩ := alg10_reads _ hidx
    obtain ⟨-, -, -, -, h4, h5⟩ := codedFlags_has _ hs.pktFlags_mem false false
    rw [← hb, ← halg] at h1 h2 h3
    rw [← hf, ← hflags] at h4 h5
    rw [← hm.didLzp, hlzp]
    exact ⟨.ten h1 (decode10_coded ht hne' hidx ht10 hp hsize' h2), by simpa using h3, h4, h5⟩
  | false =>
    obtain ⟨hf, hb⟩ := hm.coded_packet h10
    obtain ⟨h1, -, -, -, h4, h5⟩ := codedFlags_has _ hs.pktFlags_mem w.info.x2 (codedBigram w.tansFlags w.info)
    rw [← hf] at h1
    rw [← hf, ← hflags] at h4 h5
    have hc := hm.coded h10
    have hkeep : w.info.x2 = true → X2Keeps s.bytes := by
      intro h
      obtain ⟨hdelta, hlzp⟩ := hm.x2_source h10 h
      exact hx2 (h1.trans h) s hs hdelta hlzp
    obtain ⟨hdec, hl⟩ := hc.decodes ht hne' hs.pktFlags_mem (hflags.trans hf) (halg.trans hb) hsize' hkeep
    exact ⟨hdec, hl, h4, h5⟩

/-- **Every format of the plan is delivered.** -/
theorem Format.delivered (hwf : enc.Wf) (hwf' : dec.Wf) (ha : Agree enc dec) (h : Format enc src dstCap p)
    (hx2 : PktFlag.has p.flags PktFlag.x2 = true → X2Safe enc src) (hsize : hdr.originalSize = src.length)
    (hflags : hdr.flags = p.flags) (halg : hdr.algorithm = p.algorithm) : Delivered dec hdr p.payload src := by
  have hlt := h.lt
  cases h with
  | @lz77 s cap lz hs hl horder h =>
    obtain ⟨h1, -, h2, h3, -⟩ := lz77Flags_has _ hs.pktFlags_mem
    have hflags : hdr.flags = s.pktFlags ||| PktFlag.lz77 ||| PktFlag.passthru := hflags
    have halg : algId hdr.algorithm = Alg.passthru := (congrArg algId halg).trans algId_passthru
    rw [← hflags] at h1 h2 h3
    refine ⟨s.bytes, hs.length, fun dst => ?_, ?_⟩
    · have hdec := lz77_roundtrip h
      rw [hs.length] at hdec
      simp only [decodePayload, if_pos halg, decodePassthru, h1, if_true, hsize, lz77Packet, hdec]
      rfl
    · have := hs.undone hwf h2 h3
      rw [ha.undo, undo]
      simp only [unsourced, hl, Bool.false_eq_true, if_false] at this
      simp only [if_pos halg, h1, if_true, this]
  | @lz77x ring cap lz passthru hring hpos h =>
    have halg : algId hdr.algorithm = Alg.lz77x := (congrArg algId halg).trans algId_lz77x
    have hne : ¬Alg.lz77x = Alg.passthru := by decide
    refine ⟨src, rfl, fun dst => ?_, ?_⟩
    · rw [hring] at h
      have hdec := lz77x_roundtrip hpos h
      have hr : dec.hasRing = true := by
        rw [ha.hasRing, Ctx.hasRing, hring]
        exact decide_eq_true hpos
      simp only [decodePayload, halg, if_neg hne, if_true, hr, Bool.not_true, Bool.false_eq_true, if_false, hsize,
        ha.ring, ha.ringPos, hring, hdec]
      rfl
    · simp only [undo, halg, if_neg hne, if_true]
  | @tans d s w hd hs hm hfirst =>
    have hd' : dec.dict = some d := ha.dict.trans hd
    obtain ⟨hdec, hl, h2, h3⟩ := hm.decodes hwf hd hs (by omega) hx2 hsize hflags halg
    refine ⟨s.bytes, hs.length, fun dst => ?_, ?_⟩
    · rw [← ha.getTables, ← ha.compact] at hdec
      exact hdec.stateful hwf' hd' dst
    · rw [ha.undo, hdec.undo enc hl]
      exact hs.undone hwf h2 h3

end Format

/-! ### Headers -/

theorem maxPacketSize_lt : maxPacketSize < 2 ^ 16 := by
  have : maxPacketSize = 65535 := rfl
  omega

/-- The payload behind a header. -/
theorem sub_payload {hdr payload : List UInt8} {n m : ℕ} (hn : hdr.length = n) (hm : payload.length = m) :
    Chk.sub (hdr ++ payload) n m = .ok payload := by
  rw [Chk.sub_of_le (by rw [List.length_append]; omega), List.drop_left' hn, List.take_of_length_le (by omega)]

section Header

variable {h : PktHeader} {payload : List UInt8} {cap : ℕ}

/-- An eight-byte header is accepted as it is. -/
theorem validateHeader_hdrWrite (hsize : h.originalSize ≤ maxPacketSize) (hcap : h.originalSize ≤ cap)
    (hc : h.compressedSize = payload.length) (hc16 : payload.length < 2 ^ 16) :
    validateHeader (hdrWrite h ++ payload) cap false = .ok (.ok (h, headerSize)) := by
  have h8 : headerSize = 8 := rfl
  have hlen : (hdrWrite h ++ payload).length = 8 + payload.length := by rw [List.length_append, length_hdrWrite]
  have hread := hdrRead_hdrWrite h payload (lt_of_le_of_lt hsize maxPacketSize_lt) (by omega)
  rw [validateHeader, if_neg (by simp), if_neg (by omega), hread, Exc.ok_bind, if_neg (by omega), if_neg (by omega),
    if_neg (by omega)]
  rfl

/-- A compact header is accepted and gives what the type byte carries. -/
theorem validateHeader_hdrWriteCompact (hsize : h.originalSize ≤ maxPacketSize) (hcap : h.originalSize ≤ cap)
    (hc : h.compressedSize = payload.length) (hc16 : payload.length < 2 ^ 16) (hcarried : Carried h.flags h.algorithm) :
    validateHeader (hdrEmit h true ++ payload) cap true
      = .ok (.ok ({ h with modelId := 0, contextSeq := 0 }, hdrSz true h.originalSize)) := by
  obtain ⟨h1, h2, h3⟩ := hcarried
  have hlen : (hdrEmit h true ++ payload).length - hdrSz true h.originalSize = payload.length := by
    rw [List.length_append, length_hdrEmit, Nat.add_sub_cancel_left]
  have hread := @hdrReadCompact_hdrWriteCompact (compactTypeEncode h.flags h.algorithm) h.originalSize payload
    (lt_of_le_of_lt hsize maxPacketSize_lt) (by rw [h1]; simp only [h2, false_or]; exact h3)
  rw [show hdrWriteCompact (compactTypeEncode h.flags h.algorithm) h.originalSize = hdrEmit h true from rfl] at hread
  rw [validateHeader, if_pos rfl, hread, Exc.ok_bind]
  simp only [h1, hlen, Nat.mod_eq_of_lt hc16, if_neg (not_lt.mpr hsize), if_neg (not_lt.mpr hcap), Exc.pure_eq, hc]

/-- **A header is read back**: on the wire or, in compact mode, from the receiver's own state. -/
theorem validateHeader_hdrEmit {dec : Ctx} (hsize : h.originalSize ≤ maxPacketSize) (hcap : h.originalSize ≤ cap)
    (hc : h.compressedSize = payload.length) (hc16 : payload.length < 2 ^ 16)
    (hcompact : dec.compactMode = true →
      Carried h.flags h.algorithm ∧ h.modelId = dec.modelId ∧ h.contextSeq = dec.contextSeq) :
    ∃ h₀, validateHeader (hdrEmit h dec.compactMode ++ payload) cap dec.compactMode
        = .ok (.ok (h₀, hdrSz dec.compactMode h.originalSize)) ∧ fillHeader dec h₀ = h := by
  cases hm : dec.compactMode with
  | false => exact ⟨h, validateHeader_hdrWrite hsize hcap hc hc16, by rw [fillHeader, hm, if_neg (by simp)]⟩
  | true =>
    obtain ⟨hcarried, h1, h2⟩ := hcompact hm
    refine ⟨_, validateHeader_hdrWriteCompact hsize hcap hc hc16 hcarried, ?_⟩
    rw [fillHeader, hm, if_pos rfl, ← h1, ← h2]

end Header

/-! ### Calls of netc_decompress -/

/-- **A packet is received** if its payload is delivered. -/
theorem decompress_received {dec : Ctx} (hwf : dec.Wf) {h : PktHeader} {payload src : List UInt8} {cap : ℕ}
    (hsize : h.originalSize = src.length) (hlen : src.length ≤ maxPacketSize) (hcap : src.length ≤ cap)
    (hc : h.compressedSize = payload.length) (hc16 : payload.length < 2 ^ 16) (hmodel : h.modelId = dec.modelId)
    (hcompact : dec.compactMode = true → Carried h.flags h.algorithm ∧ h.contextSeq = dec.contextSeq)
    (hdel : Delivered dec h payload src) (dst : Out) (dstSize : ℕ) :
    ∃ dst', decompress dec (hdrEmit h dec.compactMode ++ payload) dst cap dstSize
        = .ok ⟨.ok, dst', src.length, decompFinish dec h (hdrEmit h dec.compactMode ++ payload).length src⟩ ∧
      dst'.read src.length = src := by
  obtain ⟨bytes, hblen, hdec, hundo⟩ := hdel
  obtain ⟨h₀, hv, hfill⟩ := @validateHeader_hdrEmit h payload cap dec (by omega) (by omega) hc hc16
    fun hm => ⟨(hcompact hm).1, hmodel, (hcompact hm).2⟩
  have hsub := sub_payload (length_hdrEmit h dec.compactMode) hc.symm
  have hmm : modelMismatch dec h = false := by
    rw [modelMismatch]
    split
    · rfl
    · next d hd =>
      rw [Ctx.modelId, hd] at hmodel
      simp only [hmodel, bne_self_eq_false, Bool.and_false]
  have hn : h.originalSize ≤ maxPacketSize := by omega
  obtain ⟨dst', hu, hread, -⟩ := undoTransforms_spec hwf hn (dst.write 0 bytes)
  rw [hsize] at hv hsub hread
  have hdata : dst'.read src.length = src := by rw [hread, Out.read_write _ hblen, hundo]
  refine ⟨dst', ?_, hdata⟩
  rw [decompress, hv, Exc.ok_bind]
  simp only [hfill, decompressBody, hmm, Bool.false_eq_true, if_false, hsub, Exc.ok_bind, hdec, ne_eq,
    not_true_eq_false, hu, hsize, hwf.checkHistory hlen, Exc.pure_eq, hdata]

/-- The header of the packet on the wire. -/
def wireHeader (ctx : Ctx) (src : List UInt8) : Option Packet → PktHeader
  | some p => exitHeader ctx src.length p.exit
  | none => passthruHeader ctx.modelId ctx.contextSeq src.length

/-- The payload of the packet on the wire. -/
def wirePayload (src : List UInt8) : Option Packet → List UInt8
  | some p => p.payload
  | none => src

theorem wire_eq (ctx : Ctx) (src : List UInt8) (o : Option Packet) :
    wire ctx src o = hdrEmit (wireHeader ctx src o) ctx.compactMode ++ wirePayload src o := by
  cases o <;> rfl

section Wire

variable {enc dec : Ctx} {src : List UInt8} {dstCap cap : ℕ} {o : Option Packet}

theorem wireHeader_modelId : (wireHeader enc src o).modelId = enc.modelId := by cases o <;> rfl

theorem wireHeader_contextSeq : (wireHeader enc src o).contextSeq = enc.contextSeq := by cases o <;> rfl

theorem wireHeader_originalSize (hlen : src.length ≤ maxPacketSize) :
    (wireHeader enc src o).originalSize = src.length := by
  have h : src.length % 2 ^ 16 = src.length := Nat.mod_eq_of_lt (lt_of_le_of_lt hlen maxPacketSize_lt)
  cases o <;> exact h

/-- A packet sent as it is comes back as it is. -/
theorem passthru_delivered {hdr : PktHeader} (hsize : hdr.originalSize = src.length)
    (hc : hdr.compressedSize = src.length) (hflags : hdr.flags = PktFlag.passthru ||| PktFlag.dictId)
    (halg : hdr.algorithm = Alg.passthru) : Delivered dec hdr src src := by
  have halg : algId hdr.algorithm = Alg.passthru := (congrArg algId halg).trans algId_passthru
  have h1 : PktFlag.has hdr.flags PktFlag.lz77 = false := by rw [hflags]; decide
  have h2 : PktFlag.has hdr.flags PktFlag.rle = false := by rw [hflags]; decide
  refine ⟨src, rfl, fun dst => ?_, ?_⟩
  · simp only [decodePayload, if_pos halg, decodePassthru, h1, h2, Bool.false_eq_true, if_false, hc, hsize, ne_eq,
      not_true_eq_false]
    rfl
  · simp only [undo, if_pos halg, h1, Bool.false_eq_true, if_false]

/-- A payload is no longer than the packet. -/
theorem length_wirePayload_le (hwf : enc.Wf) (hp : plan enc src dstCap = o) :
    (wirePayload src o).length ≤ src.length := by
  rcases o with _ | p
  · exact Nat.le_refl _
  · exact (plan_format hwf hp).lt.le

theorem wireHeader_compressedSize (hwf : enc.Wf) (hlen : src.length ≤ maxPacketSize) (hp : plan enc src dstCap = o) :
    (wireHeader enc src o).compressedSize = (wirePayload src o).length := by
  have hle := length_wirePayload_le hwf hp
  have h : (wirePayload src o).length % 2 ^ 16 = (wirePayload src o).length :=
    Nat.mod_eq_of_lt (lt_of_le_of_lt (hle.trans hlen) maxPacketSize_lt)
  cases o <;> exact h

/-- **What is sent is received**: by a context that agrees with the sender's, if two states kept the packet and
the compact header carries its flags and its algorithm. -/
theorem wire_received (hwf : enc.Wf) (hwf' : dec.Wf) (ha : Agree enc dec) (hlen : src.length ≤ maxPacketSize)
    (hcap : src.length ≤ cap) (hx2 : ∀ p, plan enc src dstCap = some p → PktFlag.has p.flags PktFlag.x2 = true →
      X2Safe enc src)
    (hcompact : enc.compactMode = true → dec.contextSeq = enc.contextSeq ∧
      ∀ p, plan enc src dstCap = some p → Carried p.flags p.algorithm) (dst : Out) (dstSize : ℕ) :
    ∃ dst', decompress dec (wire enc src (plan enc src dstCap)) dst cap dstSize = .ok ⟨.ok, dst', src.length,
        decompFinish dec (wireHeader enc src (plan enc src dstCap)) (wire enc src (plan enc src dstCap)).length src⟩ ∧
      dst'.read src.length = src := by
  obtain ⟨o, hp⟩ : ∃ o, plan enc src dstCap = o := ⟨_, rfl⟩
  have hsize := @wireHeader_originalSize enc src o hlen
  have hc := wireHeader_compressedSize hwf hlen hp
  have hc16 : (wirePayload src o).length < 2 ^ 16 :=
    lt_of_le_of_lt ((length_wirePayload_le hwf hp).trans hlen) maxPacketSize_lt
  have hdel : Delivered dec (wireHeader enc src o) (wirePayload src o) src := by
    rcases o with _ | p
    · exact passthru_delivered hsize hc rfl rfl
    · exact (plan_format hwf hp).delivered hwf hwf' ha (hx2 p hp) hsize rfl rfl
  have hcarried : dec.compactMode = true → Carried (wireHeader enc src o).flags (wireHeader enc src o).algorithm ∧
      (wireHeader enc src o).contextSeq = dec.contextSeq := by
    intro hm
    obtain ⟨hseq, hcar⟩ := hcompact (ha.compact.symm.trans hm)
    refine ⟨?_, wireHeader_contextSeq.trans hseq.symm⟩
    rcases o with _ | p
    · exact passthru_carried
    · exact hcar p hp
  have hrec := decompress_received hwf' hsize hlen hcap hc hc16 (wireHeader_modelId.trans ha.modelId.symm) hcarried hdel
    dst dstSize
  rw [hp, wire_eq, ← ha.compact]
  exact hrec

end Wire

end Netc
