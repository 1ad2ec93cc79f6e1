/-
# Sessions with the compact header

The compact header has one byte for flags and algorithm, which
`netc_compact_type_encode` writes and `netc_pkt_type_table` reads. It carries
what every packet needs except in two places (`Format.carried`): without a dictionary
the residuals of order 2 leave by LZ77, and with one the residuals of an
8-byte packet leave with a single table; neither type tells the order, and
the receiver takes them for residuals of order 1 (`order2_lost`). The format
with two states loses packets here as it does elsewhere.

Key definitions: `LosesOrder2`, `LosesX2`.
Key theorems: `Format.carried`, `compact_session_roundtrip`, `order2_lost`.
-/
import Netc.Session

namespace Netc

/-! ### What the type byte does not carry -/

/-- Residuals of order 2 leave by LZ77, or with a single table. -/
def LosesOrder2 (ctx : Ctx) (src : List UInt8) (dstCap : ℕ) : Prop :=
  wantsDelta ctx src.length = true ∧ ∃ o2, order2Trial ctx src = some o2 ∧
    ((ctx.dict = none ∧ hdrSz ctx.compactMode src.length < dstCap ∧
        ∃ lz, lz77Encode o2 (dstCap - hdrSz ctx.compactMode src.length) = .ok lz) ∨
      ∃ d w, ctx.dict = some d ∧ src.length = 8 ∧ Job.firstDraft ⟨ctx, d, src, dstCap⟩ = some w ∧
        Job.planLzp ⟨ctx, d, src, dstCap⟩ w = w)

/-- Two states are given bytes that they do not keep. -/
def LosesX2 (ctx : Ctx) (src : List UInt8) (dstCap : ℕ) : Prop :=
  ∃ d w, ctx.dict = some d ∧ Job.firstDraft ⟨ctx, d, src, dstCap⟩ = some w ∧ w.info.x2 = true ∧ ¬X2Keeps src

section Carried

variable {ctx : Ctx} {src : List UInt8} {dstCap : ℕ} {p : Packet}

/-- The order-2 flag stands for residuals of order 2. -/
theorem SourceFor.rle {s : Source} (h : SourceFor ctx src s) (hr : PktFlag.has s.pktFlags PktFlag.rle = true) :
    Netc.wantsDelta ctx src.length = true ∧ order2Trial ctx src = some s.bytes ∧ s.didDelta = true ∧
      s.didLzp = false := by
  cases h with
  | plain => exact absurd hr dictId_rle
  | lzp h => exact absurd hr dictId_rle
  | order1 h => exact absurd (order1_flags.2.symm.trans hr) (by decide)
  | order2 h ho => exact ⟨h, ho, rfl, rfl⟩

/-- Residuals of order 2 that a single table codes are those of 8 bytes. -/
theorem losesOrder2_of_single {d : Dict} {s : Source} {w₀ : Draft} (hd : ctx.dict = some d) (hs : SourceFor ctx src s)
    (hr : PktFlag.has s.pktFlags PktFlag.rle = true) (hshort : s.bytes.length ≤ 8)
    (hw₀ : Job.firstDraft ⟨ctx, d, src, dstCap⟩ = some w₀) (hkeep : Job.planLzp ⟨ctx, d, src, dstCap⟩ w₀ = w₀) :
    LosesOrder2 ctx src dstCap := by
  obtain ⟨hw, ho, -⟩ := hs.rle hr
  obtain ⟨-, hmin, -⟩ := wantsDelta_room hw
  have h8 : deltaMinSize = 8 := rfl
  have hlen := hs.length
  exact ⟨hw, s.bytes, ho, .inr ⟨d, w₀, hd, by omega, hw₀, hkeep⟩⟩

/-- Where the order is not lost, residuals that a single table codes are not of order 2. -/
theorem SourceFor.not_rle {d : Dict} {s : Source} (hs : SourceFor ctx src s) (hd : ctx.dict = some d)
    (hlose : ¬LosesOrder2 ctx src dstCap) (hfirst : s.didLzp = false → ∃ w₀,
      Job.firstDraft ⟨ctx, d, src, dstCap⟩ = some w₀ ∧ Job.planLzp ⟨ctx, d, src, dstCap⟩ w₀ = w₀)
    (hshort : s.didDelta = true → s.bytes.length ≤ 8) : PktFlag.has s.pktFlags PktFlag.rle = false := by
  rw [← Bool.not_eq_true]
  intro hr
  obtain ⟨-, -, hdelta, hl⟩ := hs.rle hr
  obtain ⟨w₀, hw₀, hkeep⟩ := hfirst hl
  exact hlose (losesOrder2_of_single hd hs hr (hshort hdelta) hw₀ hkeep)

/-- **The type byte carries every packet** but those. -/
theorem Format.carried (hm : ctx.compactMode = true) (h : Format ctx src dstCap p)
    (hlose : ¬LosesOrder2 ctx src dstCap) :
    Carried p.flags p.algorithm := by
  cases h with
  | @lz77 s cap lz hs hl horder h =>
    refine lz77_carried _ hs.pktFlags_mem ?_
    rw [← Bool.not_eq_true]
    intro hr
    obtain ⟨hw, ho, -⟩ := hs.rle hr
    obtain ⟨hd, hcap, rfl⟩ := horder hr
    exact hlose ⟨hw, s.bytes, ho, .inl ⟨hd, hcap, lz, h⟩⟩
  | lz77x passthru hring hsize h => exact lz77x_carried
  | @tans d s w hd hs hmade hfirst =>
    have hmem := hs.pktFlags_mem
    -- residuals that are coded with a single table are short
    have hrle := hs.not_rle hd hlose fun hl => by
      obtain ⟨-, w₀, hw₀, hkeep, -⟩ := hfirst hl
      exact ⟨w₀, hw₀, hkeep⟩
    cases h10 : w.used10 with
    | true =>
      obtain ⟨hf, ha⟩ := hmade.ten_packet h10
      obtain ⟨-, -, -, hidx, -, hshort, -⟩ := hmade.coded10 h10
      rw [hf, ha]
      exact alg10_carried _ hidx _ hmem (hrle fun hdelta => hshort (hmade.didDelta.trans hdelta))
    | false =>
      obtain ⟨hf, ha⟩ := hmade.coded_packet h10
      have hc := hmade.coded h10
      have hx2 := hc.x2
      have hsource := hmade.x2_source h10
      have hshort := fun hmreg hdelta => Job.short_of_coded hc (hmade.skipSr (hmade.didDelta.trans hdelta)) hmreg
      rw [hf, ha]
      rcases hi : w.info with ⟨mreg, x2, idx⟩
      rw [hi] at hc hx2 hsource hshort
      cases hc with
      | single hidx _ _ =>
        refine single_carried _ hidx _ hmem (hrle (hshort rfl)) _ _ _ fun h => ?_
        obtain ⟨-, -, hbigram, -⟩ := hx2 h
        exact ⟨by rw [codedBigram, hbigram]; rfl, (hsource h).2 hm⟩
      | pctx _ => exact pctx_carried _ hmem _ _
      | pctxBigram _ _ _ => exact pctx_carried _ hmem _ _

theorem plan10_x2 {j : Job} {bytes : List UInt8} {w : Draft} (h : (j.plan10 bytes w).info.x2 = true) :
    w.info.x2 = true := by
  rw [Job.plan10] at h
  split at h
  · split at h
    · cases h
    · exact h
  · exact h

/-- In compact mode two states are given the packet itself. -/
theorem Format.x2Safe (hm : ctx.compactMode = true) (h : Format ctx src dstCap p)
    (hx2 : PktFlag.has p.flags PktFlag.x2 = true) (hlose : ¬LosesX2 ctx src dstCap) : X2Safe ctx src := by
  intro s' hs' hdelta' hlzp'
  have hbytes : s'.bytes = src := by
    cases hs' with
    | plain => rfl
    | lzp h => cases hlzp' hm
    | order1 h => cases hdelta'
    | order2 h ho => cases hdelta'
  rw [hbytes]
  by_contra hkeep
  refine hlose ?_
  cases h with
  | lz77 hs hl horder h =>
    obtain ⟨-, -, -, -, hno⟩ := lz77Flags_has _ hs.pktFlags_mem
    exact absurd (hno.symm.trans hx2) (by decide)
  | lz77x passthru hring hsize h =>
    have hno : PktFlag.has PktFlag.dictId PktFlag.x2 = false := by decide
    exact absurd (hno.symm.trans hx2) (by decide)
  | @tans d s w hd hs hmade hfirst =>
    have hmem := hs.pktFlags_mem
    cases h10 : w.used10 with
    | true =>
      obtain ⟨hf, -⟩ := hmade.ten_packet h10
      rw [hf, (codedFlags_has _ hmem false false).1] at hx2
      cases hx2
    | false =>
      obtain ⟨hf, -⟩ := hmade.coded_packet h10
      rw [hf, (codedFlags_has _ hmem _ _).1] at hx2
      obtain ⟨-, hlzp⟩ := hmade.x2_source h10 hx2
      obtain ⟨-, w₀, hw₀, -, rfl⟩ := hfirst (hlzp hm)
      exact ⟨d, w₀, hd, hw₀, plan10_x2 hx2, hkeep⟩

end Carried

/-! ### Sessions -/

/-- The packet does not leave by one of those formats. -/
def CompactSafe (ctx : Ctx) (src : List UInt8) (dstCap : ℕ) : Prop :=
  ¬LosesOrder2 ctx src dstCap ∧ ¬LosesX2 ctx src dstCap

theorem throughout_of_compactSafe : ∀ (ts : List Transfer) {enc : Ctx}, enc.Wf → enc.compactMode = true →
    Throughout CompactSafe enc ts → Throughout Sendable enc ts
  | [], _, _, _, _ => trivial
  | t :: ts, enc, hwf, hm, ⟨⟨horder, hx2⟩, hsafe⟩ =>
    ⟨fun _ hp => ⟨fun h => (plan_format hwf hp).x2Safe hm h hx2, fun _ => (plan_format hwf hp).carried hm horder⟩,
      throughout_of_compactSafe ts (compress_wf hwf ..) ((t.send_compactMode enc).trans hm) hsafe⟩

/-- **Sessions with the compact header.** Between two contexts of one configuration every packet comes back as long as
no residuals of order 2 leave by LZ77 or with a single table and two states are given bytes they keep. -/
theorem compact_session_roundtrip {pf pf' : Platform} {dict : Option Dict} {cfg : Cfg} {junk junk' : ℕ → UInt8}
    {enc dec : Ctx} (hd : ∀ d, dict = some d → Trained d) (henc : ctxCreate pf dict cfg junk = some enc)
    (hdec : ctxCreate pf' dict cfg junk' = some dec) (hc : CfgFlag.has cfg.flags CfgFlag.compactHdr = true)
    (ts : List Transfer) (hfits : ∀ t ∈ ts, t.Fits) (hsafe : Throughout CompactSafe enc ts) : Arrives enc dec ts := by
  have hwf := ctxCreate_wf (fun d h => (hd d h).sound) henc
  have hwf' := ctxCreate_wf (fun d h => (hd d h).sound) hdec
  have hm : enc.compactMode = true := by rw [Ctx.compactMode, ctxCreate_flags henc, hc]
  exact (delivers_of_sendable ts hwf hwf' (ctxCreate_inStep henc hdec rfl rfl rfl rfl) hfits
    (throughout_of_compactSafe ts hwf hm hsafe)).arrives

/-- With a dictionary, packets of an even size other than eight keep their order and their bytes. -/
theorem compactSafe_of_even {ctx : Ctx} {d : Dict} (hd : ctx.dict = some d) {src : List UInt8} (h8 : src.length ≠ 8)
    (heven : src.length % 2 = 0) (dstCap : ℕ) : CompactSafe ctx src dstCap := by
  constructor
  · rintro ⟨-, o2, -, ⟨hno, -⟩ | ⟨d', w, -, hlen, -⟩⟩
    · rw [hd] at hno
      cases hno
    · exact h8 hlen
  · rintro ⟨d', w, -, -, -, hno⟩
    exact hno (.inl heven)

/-- Three packets of ten bytes, over a dictionary trained on two packets, with residuals of both orders. -/
theorem compact_session_roundtrip_trained : ∃ d, dictTrain [[1, 2, 3, 1, 2, 3, 1, 2], [1, 2, 9]] 1 = .ok d ∧
    Arrives (newCtx (some d) (CfgFlag.stateful ||| CfgFlag.delta ||| CfgFlag.adaptive ||| CfgFlag.compactHdr))
      (newCtx (some d) (CfgFlag.stateful ||| CfgFlag.delta ||| CfgFlag.adaptive ||| CfgFlag.compactHdr))
      [smallTransfer [1, 2, 3, 1, 2, 3, 1, 2, 3, 1], smallTransfer [1, 2, 3, 1, 2, 3, 1, 2, 3, 2],
        smallTransfer [1, 2, 3, 1, 2, 3, 1, 2, 3, 3]] := by
  obtain ⟨d, hd⟩ := @dictTrain_ok [[1, 2, 3, 1, 2, 3, 1, 2], [1, 2, 9]] 1 (by decide)
  have hcreate := newCtx_create (some d) (show CfgFlag.has (CfgFlag.stateful ||| CfgFlag.delta ||| CfgFlag.adaptive
    ||| CfgFlag.compactHdr) CfgFlag.stateful = true by decide)
  have hdict : ∀ (t : Transfer) {enc : Ctx}, enc.dict = some d → (t.send enc).ctx.dict = some d := fun t enc h =>
    (kin_compress enc t.src t.dst t.dstCap t.dstSize).dict.trans h
  refine ⟨d, hd, compact_session_roundtrip (fun _ h => Option.some.inj h ▸ ⟨_, _, hd⟩) hcreate hcreate (by decide) _ ?_
    ⟨compactSafe_of_even rfl (by decide) (by decide) _,
      compactSafe_of_even (hdict _ rfl) (by decide) (by decide) _,
      compactSafe_of_even (hdict _ (hdict _ rfl)) (by decide) (by decide) _, trivial⟩⟩
  simp only [List.forall_mem_cons, List.not_mem_nil, false_imp_iff, implies_true, and_true]
  exact ⟨smallTransfer_fits (by decide), smallTransfer_fits (by decide), smallTransfer_fits (by decide)⟩

/-! ### The lost order -/

/-- The type byte of an LZ77 packet of residuals is that of order 1, which it carries. -/
theorem lz77_type :
    compactTypeEncode (PktFlag.dictId ||| PktFlag.delta ||| PktFlag.rle ||| PktFlag.lz77 ||| PktFlag.passthru)
      Alg.passthru
    = compactTypeEncode (PktFlag.dictId ||| PktFlag.delta ||| PktFlag.lz77 ||| PktFlag.passthru) Alg.passthru := by
  decide

/-- Only the type byte and the size are on the wire. -/
theorem hdrEmit_congr {h h' : PktHeader} (hsize : h.originalSize = h'.originalSize)
    (htype : compactTypeEncode h.flags h.algorithm = compactTypeEncode h'.flags h'.algorithm) :
    hdrEmit h true = hdrEmit h' true := by
  simp only [hdrEmit, if_true, htype, hsize]

section Lost

variable {enc dec : Ctx} {t : Transfer} {o2 lz : List UInt8} {n : ℕ}

/-- Without a dictionary the residuals leave by LZ77. -/
theorem plan_order2 (hd : enc.dict = none) (hw : wantsDelta enc t.src.length = true)
    (ho : order2Trial enc t.src = some o2) (hcap : hdrSz enc.compactMode t.src.length < t.dstCap)
    (hlz : lz77Encode o2 (t.dstCap - hdrSz enc.compactMode t.src.length) = .ok lz) :
    plan enc t.src t.dstCap = some (lz77Packet (PktFlag.dictId ||| PktFlag.delta ||| PktFlag.rle) lz) := by
  obtain ⟨-, hmin, -⟩ := wantsDelta_room hw
  have h8 : deltaMinSize = 8 := rfl
  have hsource : lz77Source enc t.src = ⟨o2, PktFlag.dictId ||| PktFlag.delta ||| PktFlag.rle, true, false⟩ := by
    simp only [lz77Source, sourceOf, hw, if_true, deltaSource, ho, hd, Option.isSome_none, Bool.false_and,
      Bool.false_eq_true, if_false]
  have hdict : planDict enc t.src t.dstCap = none := by rw [planDict, hd]
  simp only [plan, hdict, planLz77, if_pos (show 0 < t.src.length ∧ _ from ⟨by omega, hcap⟩), hsource, hlz]

/-- The header the receiver reads: the compact one has no mark for the order. -/
def order1Header (enc : Ctx) (n : ℕ) (lz : List UInt8) : PktHeader :=
  ⟨n, lz.length, PktFlag.dictId ||| PktFlag.delta ||| PktFlag.lz77 ||| PktFlag.passthru, Alg.passthru, enc.modelId,
    enc.contextSeq⟩

theorem order1Header_flags (enc : Ctx) (n : ℕ) (lz : List UInt8) :
    PktFlag.has (order1Header enc n lz).flags PktFlag.lz77 = true ∧
    PktFlag.has (order1Header enc n lz).flags PktFlag.delta = true ∧
    PktFlag.has (order1Header enc n lz).flags PktFlag.rle = false ∧
    Carried (order1Header enc n lz).flags (order1Header enc n lz).algorithm ∧
    algId (order1Header enc n lz).algorithm = Alg.passthru := by
  simp only [order1Header]
  decide

/-- Residuals of order 2 leave under the header of order 1. -/
theorem sent_order2 (hm : enc.compactMode = true) (hfits : t.Fits) (hd : enc.dict = none)
    (hw : wantsDelta enc t.src.length = true) (ho : order2Trial enc t.src = some o2)
    (hlz : lz77Encode o2 (t.dstCap - hdrSz enc.compactMode t.src.length) = .ok lz) :
    t.sent enc = hdrEmit (order1Header enc t.src.length lz) true ++ lz := by
  have h8 : headerSize = 8 := rfl
  have hmax : maxPacketSize = 65535 := rfl
  have hle := hdrSz_le enc.compactMode t.src.length
  obtain ⟨hlen, hroom, hout⟩ := id hfits
  obtain ⟨-, hmin, -⟩ := wantsDelta_room hw
  have hmin : 8 ≤ t.src.length := hmin
  have hmod : t.src.length % 2 ^ 16 = t.src.length := Nat.mod_eq_of_lt (by omega)
  rw [hfits.sent_eq, plan_order2 hd hw ho (by omega) hlz, wire, hm, order1Header]
  exact congrArg (· ++ lz) (hdrEmit_congr hmod lz77_type)

/-- Under that header the receiver undoes them as residuals of order 1. -/
theorem delivered_order1 {prev : Block} (hp : dec.prevPkt = some prev) (hn : dec.prevPktSize = o2.length)
    (hlz : lz77Encode o2 n = .ok lz) :
    Delivered dec (order1Header enc o2.length lz) lz (deltaDecode prev.byte o2) := by
  obtain ⟨hf1, hf2, hf3, -, halg⟩ := order1Header_flags enc o2.length lz
  refine ⟨o2, by simp, fun dst => ?_, ?_⟩
  · have hsize : (order1Header enc o2.length lz).originalSize = o2.length := rfl
    simp only [decodePayload, if_pos halg, decodePassthru, hf1, if_true, hsize, lz77_roundtrip hlz]
    rfl
  · have hpred := @decompPrediction_order1 dec (order1Header enc o2.length lz).flags o2.length prev hf2 hf3 hp hn
    simp only [undo, if_pos halg, hf1, if_true, hpred, restored]

/-- **The order is lost**: the receiver takes the residuals for those of order 1, and gives out another packet. -/
theorem order2_lost (hwf : enc.Wf) (hwf' : dec.Wf) (h : InStep enc dec) (hm : enc.compactMode = true) (hfits : t.Fits)
    (hd : enc.dict = none) (hw : wantsDelta enc t.src.length = true) (ho : order2Trial enc t.src = some o2)
    (hlz : lz77Encode o2 (t.dstCap - hdrSz enc.compactMode t.src.length) = .ok lz) :
    ∃ r, t.receive enc dec = .ok r ∧ r.code = .ok ∧ r.dst.read r.dstSize ≠ t.src := by
  obtain ⟨hlen, -, hout⟩ := id hfits
  have hmax : maxPacketSize = 65535 := rfl
  obtain ⟨prev, hp, hn⟩ := wantsDelta_prev hwf hw
  obtain ⟨prev2, -, -, -, hz⟩ := order2Trial_eq ho
  have holen := length_order2Trial ho
  have hlzlen := lz77Encode_lt hlz
  have hm' : dec.compactMode = true := h.compact.trans hm
  have hwire : t.sent enc = hdrEmit (order1Header enc o2.length lz) dec.compactMode ++ lz := by
    rw [sent_order2 hm hfits hd hw ho hlz, holen, hm']
  obtain ⟨-, -, -, hcarried, -⟩ := order1Header_flags enc o2.length lz
  have hdel := @delivered_order1 enc dec o2 lz _ prev (h.prevPkt.trans hp) (by rw [h.prevPktSize, hn, holen]) hlz
  have hlen' : (deltaDecode prev.byte o2).length = o2.length := length_deltaDecode ..
  obtain ⟨dst', hrun, hread⟩ := @decompress_received dec hwf' _ lz _ t.outCap hlen'.symm (by omega) (by omega) rfl
    (by omega) (by rw [h.modelId]; rfl)
    (fun _ => ⟨hcarried, by rw [h.contextSeq]; rfl⟩) hdel t.out t.outSize
  refine ⟨_, by rw [Transfer.receive, hwire]; exact hrun, rfl, ?_⟩
  rw [hread]
  intro heq
  -- then the residuals would have been those of order 1
  have : o2 = deltaEncode prev.byte t.src := by rw [← heq, deltaEncode_deltaDecode]
  rw [Ctx.prevByte, hp, this] at hz
  exact absurd hz (lt_irrefl _)

end Lost

/-! ### Three packets -/

/-- The history after a packet was sent, where two packets are kept. -/
theorem sentCtx_history {ctx : Ctx} {prev prev2 : Block} (hp : ctx.prevPkt = some prev)
    (hp2 : ctx.prev2Pkt = some prev2) (src : List UInt8) (arena : Block) (n : ℕ) (passthru : Bool) :
    (sentCtx ctx src arena n passthru).prevPkt = some (prev.write 0 src) ∧
    (sentCtx ctx src arena n passthru).prevPktSize = src.length ∧
    (sentCtx ctx src arena n passthru).prev2Pkt
      = some (prev2.write 0 (ByteMem.slice prev.byte 0 ctx.prevPktSize)) ∧
    (sentCtx ctx src arena n passthru).prev2PktSize = ctx.prevPktSize := by
  have hlearn : ∀ c : Ctx, (c.learn src).prevPkt = c.prevPkt ∧ (c.learn src).prevPktSize = c.prevPktSize ∧
      (c.learn src).prev2Pkt = c.prev2Pkt ∧ (c.learn src).prev2PktSize = c.prev2PktSize := by
    intro c
    simp only [Ctx.learn, Ctx.adaptiveUpdate]
    rcases c.adapt with _ | a
    · exact ⟨rfl, rfl, rfl, rfl⟩
    · simp only
      split <;> exact ⟨rfl, rfl, rfl, rfl⟩
  have htally : ∀ (c : Ctx) (f : Stats → Stats), (c.tally f).prevPkt = c.prevPkt ∧
      (c.tally f).prevPktSize = c.prevPktSize ∧ (c.tally f).prev2Pkt = c.prev2Pkt ∧
      (c.tally f).prev2PktSize = c.prev2PktSize := by
    intro c f
    rw [Ctx.tally]
    split <;> exact ⟨rfl, rfl, rfl, rfl⟩
  obtain ⟨h1, h2, h3, h4⟩ := hlearn ((takenIn ctx src arena).tally (countCompressed src.length n passthru))
  obtain ⟨g1, g2, g3, g4⟩ := htally (takenIn ctx src arena) (countCompressed src.length n passthru)
  rw [sentCtx, h1, h2, h3, h4, g1, g2, g3, g4, takenIn, ← updatePrev_appendRing]
  simp only [Ctx.updatePrev, hp, hp2, Ctx.appendRing]
  rcases ctx.ring with _ | ring <;> exact ⟨rfl, rfl, rfl, rfl⟩

/-- Without a dictionary, a packet that is not sent as residuals of order 2 leaves in a format that keeps it. -/
theorem sendable_plain {enc : Ctx} {src : List UInt8} (hwf : enc.Wf) (hm : enc.compactMode = true)
    (hd : enc.dict = none)
    (h : wantsDelta enc src.length = false ∨ order2Trial enc src = none) (dstCap : ℕ) : Sendable enc src dstCap := by
  have hlose : ¬LosesOrder2 enc src dstCap := by
    rintro ⟨hw, o2, ho, -⟩
    rcases h with h | h
    · rw [h] at hw
      cases hw
    · rw [h] at ho
      cases ho
  intro p hp
  refine ⟨fun hx2 => ?_, fun _ => (plan_format hwf hp).carried hm hlose⟩
  have := (plan_format hwf hp).x2_dict hx2
  rw [hd] at this
  cases this

/-- A connection with residuals of order 2 and the compact header. -/
def order2Flags : UInt32 := CfgFlag.stateful ||| CfgFlag.compactHdr ||| CfgFlag.delta ||| CfgFlag.adaptive

/-- A packet of eight equal bytes. -/
def evenPacket (b : UInt8) : Transfer := smallTransfer (List.replicate 8 b)

theorem length_evenPacket (b : UInt8) : (evenPacket b).src.length = 8 := List.length_replicate

theorem evenPacket_fits (b : UInt8) : (evenPacket b).Fits := by
  rw [Transfer.Fits, length_evenPacket, evenPacket, smallTransfer]
  dsimp only
  decide

theorem evenPacket_write (m : ℕ → UInt8) (b : UInt8) {i : ℕ} (hi : i < 8) :
    ByteMem.write m 0 (evenPacket b).src i = b := by
  have hlen := length_evenPacket b
  rw [ByteMem.write_of_mem (Nat.zero_le i) (by omega), Nat.sub_zero, List.getD_eq_getElem _ _ (by omega)]
  exact List.getElem_replicate _

/-- A context without a dictionary that has room for residuals of two packets. -/
structure Order2Ready (ctx : Ctx) : Prop where
  wf : ctx.Wf
  compact : ctx.compactMode = true
  dict : ctx.dict = none
  delta : CfgFlag.has ctx.flags CfgFlag.delta = true
  arena : 8 ≤ ctx.arena.size
  prev : ∃ prev prev2, ctx.prevPkt = some prev ∧ ctx.prev2Pkt = some prev2

theorem Order2Ready.send {ctx : Ctx} (h : Order2Ready ctx) (t : Transfer) (ht : t.Fits) :
    Order2Ready (t.send ctx).ctx := by
  have hk := kin_compress ctx t.src t.dst t.dstCap t.dstSize
  obtain ⟨prev, prev2, hp, hp2⟩ := h.prev
  obtain ⟨arena, -, hctx⟩ := (ht.sent ctx).ctx
  obtain ⟨h1, -, h3, -⟩ := sentCtx_history hp hp2 t.src arena (t.send ctx).dstSize
    (sentPassthru (plan ctx t.src t.dstCap))
  rw [← hctx] at h1 h3
  exact ⟨compress_wf h.wf .., (t.send_compactMode ctx).trans h.compact, hk.dict.trans h.dict,
    (congrArg (CfgFlag.has · CfgFlag.delta) hk.flags).trans h.delta, hk.arena ▸ h.arena, _, _, h1, h3⟩

/-- The history of the context that sent `t`. -/
theorem Order2Ready.history {ctx : Ctx} (h : Order2Ready ctx) {t : Transfer} (ht : t.Fits) :
    ∃ prev prev2 prev', ctx.prevPkt = some prev' ∧ (t.send ctx).ctx.prevPkt = some prev ∧
      (t.send ctx).ctx.prevPktSize = t.src.length ∧ (t.send ctx).ctx.prev2Pkt = some prev2 ∧
      (t.send ctx).ctx.prev2PktSize = ctx.prevPktSize ∧ (∃ m, prev.byte = ByteMem.write m 0 t.src) ∧
      ∀ i < ctx.prevPktSize, prev2.byte i = prev'.byte i := by
  obtain ⟨prev, prev2, hp, hp2⟩ := h.prev
  obtain ⟨arena, -, hctx⟩ := (ht.sent ctx).ctx
  obtain ⟨h1, h2, h3, h4⟩ := sentCtx_history hp hp2 t.src arena (t.send ctx).dstSize
    (sentPassthru (plan ctx t.src t.dstCap))
  rw [← hctx] at h1 h2 h3 h4
  refine ⟨_, _, prev, hp, h1, h2, h3, h4, ⟨prev.byte, rfl⟩, fun i hi => ?_⟩
  simp only [Block.write]
  rw [ByteMem.write_of_mem (Nat.zero_le i) (by simpa using hi), Nat.sub_zero, ByteMem.getD_slice _ _ hi, Nat.zero_add]

/-- A packet that is not sent as residuals of order 2 leaves the two ends in step. -/
theorem Order2Ready.receive {enc dec : Ctx} (h : Order2Ready enc) (hwf' : dec.Wf) (hstep : InStep enc dec)
    {t : Transfer}
    (ht : t.Fits) (hplain : wantsDelta enc t.src.length = false ∨ order2Trial enc t.src = none) {r : DecompressRet}
    (hr : t.receive enc dec = .ok r) : InStep (t.send enc).ctx r.ctx ∧ r.ctx.Wf := by
  have hs := sendable_plain h.wf h.compact h.dict hplain t.dstCap
  obtain ⟨r', hr', -, -, -, hstep', -, hwf''⟩ := transfer_inStep h.wf hwf' hstep ht hs
  obtain rfl := Except.ok.inj (hr.symm.trans hr')
  exact ⟨hstep', hwf''⟩

theorem newCtx_order2Ready : Order2Ready (newCtx none order2Flags) := by
  refine ⟨(plain_reachable (by decide)).wf, by decide, rfl, by decide, ?_, .zero maxPacketSize, .zero maxPacketSize,
    rfl, ?_⟩
  · have : maxPacketSize = 65535 := rfl
    simp only [newCtx, defaultArenaSize]
    omega
  · simp only [newCtx, show CfgFlag.has order2Flags CfgFlag.adaptive = true by decide, if_true]

/-- After zeros and ones, the residuals of order 2 of twos are zeros. -/
theorem order2Trial_twos {ctx : Ctx} {prev prev2 : Block} (hp : ctx.prevPkt = some prev)
    (hp2 : ctx.prev2Pkt = some prev2)
    (hn : ctx.prev2PktSize = 8) (h1 : ∀ i < 8, prev.byte i = 1) (h0 : ∀ i < 8, prev2.byte i = 0) :
    order2Trial ctx (evenPacket 2).src = some (List.replicate 8 0) := by
  have hlen := length_evenPacket 2
  have hprev : ctx.prevByte = prev.byte := by rw [Ctx.prevByte, hp]
  have ho1 : deltaEncode prev.byte (evenPacket 2).src = deltaEncode (fun _ => 1) (evenPacket 2).src :=
    deltaEncode_congr _ fun i hi => h1 i (by omega)
  have ho2 : deltaEncodeOrder2 prev2.byte prev.byte (evenPacket 2).src
      = deltaEncode (fun _ => 2 * 1 - 0) (evenPacket 2).src :=
    deltaEncode_congr _ fun i hi => by rw [predicted, h1 i (by omega), h0 i (by omega)]
  simp only [order2Trial, hp2, hn, hlen, if_true, hprev, ho1, ho2]
  decide

/-- Packets of zeros, ones and twos: the residuals of order 2 of the third are zeros, and it comes back as ones. -/
theorem compact_session_loses : ∃ enc dec,
    ctxCreate scalarPlatform none ⟨order2Flags, 0, 0, 0⟩ (fun _ => 0) = some enc ∧
    ctxCreate scalarPlatform none ⟨order2Flags, 0, 0, 0⟩ (fun _ => 0) = some dec ∧
    CfgFlag.has order2Flags CfgFlag.stateful = true ∧ CfgFlag.has order2Flags CfgFlag.compactHdr = true ∧
    (∀ t ∈ [evenPacket 0, evenPacket 1, evenPacket 2], t.Fits) ∧
    ¬Arrives enc dec [evenPacket 0, evenPacket 1, evenPacket 2] := by
  have hcreate := newCtx_create none (show CfgFlag.has order2Flags CfgFlag.stateful = true by decide)
  refine ⟨_, _, hcreate, hcreate, by decide, by decide, ?_, ?_⟩
  · intro t ht
    simp only [List.mem_cons, List.not_mem_nil, or_false] at ht
    rcases ht with rfl | rfl | rfl <;> exact evenPacket_fits _
  have hready := newCtx_order2Ready
  have hn : (newCtx none order2Flags).prevPktSize = 0 := rfl
  have hstep : InStep (newCtx none order2Flags) (newCtx none order2Flags) :=
    ctxCreate_inStep hcreate hcreate rfl rfl rfl rfl
  generalize newCtx none order2Flags = e0 at hready hn hstep
  rintro ⟨-, r0, hr0, -, -, -, -, r1, hr1, -, -, -, -, r2, hr2, -, -, hread, -⟩
  -- the first packet finds no history
  obtain ⟨prev, prev2, -, -, hp1, hn1, hp1', hn1', ⟨m0, hm0⟩, -⟩ := hready.history (evenPacket_fits 0)
  have hplain0 : wantsDelta e0 (evenPacket 0).src.length = false := by
    simp only [wantsDelta, hn, length_evenPacket]
    simp
  obtain ⟨hstep1, hwf1'⟩ := hready.receive hready.wf hstep (evenPacket_fits 0) (.inl hplain0) hr0
  have hready1 := hready.send _ (evenPacket_fits 0)
  generalize ((evenPacket 0).send e0).ctx = e1 at hready1 hp1 hn1 hp1' hn1' hstep1 hr1 hr2
  -- the second one finds one packet
  obtain ⟨q, q2, prev', hq', hq, hqn, hq2, hqn2, ⟨m1, hm1⟩, hsame⟩ := hready1.history (evenPacket_fits 1)
  have hplain1 : order2Trial e1 (evenPacket 1).src = none := by
    simp only [order2Trial, hp1', hn1', hn, length_evenPacket]
    rfl
  obtain ⟨hstep2, hwf2'⟩ := hready1.receive hwf1' hstep1 (evenPacket_fits 1) (.inr hplain1) hr1
  have hready2 := hready1.send _ (evenPacket_fits 1)
  generalize ((evenPacket 1).send e1).ctx = e2 at hready2 hq hqn hq2 hqn2 hstep2 hr2
  -- the third one is sent as residuals of order 2
  obtain rfl : prev = prev' := Option.some.inj (hp1.symm.trans hq')
  rw [hn1, length_evenPacket] at hqn2 hsame
  rw [length_evenPacket] at hqn
  have ho := @order2Trial_twos e2 q q2 hq hq2 hqn2 (fun i hi => by rw [hm1, evenPacket_write _ _ hi])
    (fun i hi => by rw [hsame i hi, hm0, evenPacket_write _ _ hi])
  have hw : wantsDelta e2 (evenPacket 2).src.length = true := by
    have hroom := decide_eq_true hready2.arena
    rw [wantsDelta, length_evenPacket, hready2.delta, hqn, hroom]
    decide
  have hlz : lz77Encode (List.replicate 8 0) ((evenPacket 2).dstCap - hdrSz e2.compactMode (evenPacket 2).src.length)
      = .ok [0, 0, 132, 0] := by
    rw [hready2.compact, length_evenPacket]
    decide
  obtain ⟨r2', hr2', -, hne⟩ := order2_lost hready2.wf hwf2' hstep2 hready2.compact
    (evenPacket_fits 2) hready2.dict hw ho
    hlz
  obtain rfl := Except.ok.inj (hr2.symm.trans hr2')
  exact hne hread

end Netc
