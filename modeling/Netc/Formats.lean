/-
# The formats a packet can leave in

What the plan of the compressor can come to: an LZ77 packet of the packet or its
residuals, a cross-packet LZ77 packet, or a tANS packet of the packet, its
residuals or its filtered bytes (`plan_format`). Each is shorter than
the packet (`Format.lt`).

Key definitions: `SourceFor`, `Made`, `Format`.
Key theorems: `plan_format`, `Format.lt`.
-/
import Netc.Plan

namespace Netc

/-! ### Sources -/

/-- The bytes a packet can be coded from. -/
inductive SourceFor (ctx : Ctx) (src : List UInt8) : Source → Prop
  | plain : SourceFor ctx src (plainSource src)
  | lzp {lzp : LzpTable} (h : ctx.getLzpTable = some lzp) :
      SourceFor ctx src ⟨lzpXorFilter lzp src, PktFlag.dictId, false, true⟩
  | order1 (h : wantsDelta ctx src.length = true) :
      SourceFor ctx src ⟨deltaEncode ctx.prevByte src, PktFlag.dictId ||| PktFlag.delta, true, false⟩
  | order2 {o2 : List UInt8} (h : wantsDelta ctx src.length = true) (ho : order2Trial ctx src = some o2) :
      SourceFor ctx src ⟨o2, PktFlag.dictId ||| PktFlag.delta ||| PktFlag.rle, true, false⟩

section Sources

variable {ctx : Ctx} {src : List UInt8}

theorem Ctx.roomyLzp_eq_some {n : ℕ} {lzp : LzpTable} (h : ctx.roomyLzp n = some lzp) :
    n ≤ ctx.arena.size ∧ ctx.getLzpTable = some lzp := by
  rw [Ctx.roomyLzp] at h
  split at h
  · exact ⟨‹_›, h⟩
  · cases h

theorem lzpSource_for (ctx : Ctx) (src : List UInt8) :
    SourceFor ctx src (lzpSource (ctx.roomyLzp src.length) src) := by
  cases hl : ctx.roomyLzp src.length with
  | none => exact .plain
  | some lzp => exact .lzp (Ctx.roomyLzp_eq_some hl).2

theorem sourceOf_for (ctx : Ctx) (src : List UInt8) : SourceFor ctx src (sourceOf ctx src) := by
  rw [sourceOf]
  split
  · next h =>
    rw [deltaSource]
    split
    · next ho => exact .order2 h ho
    · exact .order1 h
  · split
    · exact lzpSource_for ctx src
    · exact .plain

theorem SourceFor.length {s : Source} (h : SourceFor ctx src s) : s.bytes.length = src.length := by
  cases h with
  | plain => rfl
  | lzp h => simp
  | order1 h => simp
  | order2 h ho => exact length_order2Trial ho

/-- Without its delta flags, a source's flags are those of the packet itself. -/
theorem SourceFor.cleared {s : Source} (h : SourceFor ctx src s) :
    s.pktFlags &&& ~~~(PktFlag.delta ||| PktFlag.rle) = PktFlag.dictId := by
  cases h <;> simp only [plainSource] <;> decide

theorem SourceFor.pktFlags_of_not_delta {s : Source} (h : SourceFor ctx src s) (hd : s.didDelta = false) :
    s.pktFlags = PktFlag.dictId := by
  cases h with
  | plain => rfl
  | lzp h => rfl
  | order1 h => cases hd
  | order2 h ho => cases hd

theorem SourceFor.didLzp_of_delta {s : Source} (h : SourceFor ctx src s) (hd : s.didDelta = true) :
    s.didLzp = false := by
  cases h with
  | plain => rfl
  | lzp h => cases hd
  | order1 h => rfl
  | order2 h ho => rfl

theorem SourceFor.wantsDelta {s : Source} (h : SourceFor ctx src s) (hd : s.didDelta = true) :
    Netc.wantsDelta ctx src.length = true := by
  cases h with
  | plain => cases hd
  | lzp h => cases hd
  | order1 h => exact h
  | order2 h ho => exact h

theorem wantsDelta_room {n : ℕ} (h : wantsDelta ctx n = true) :
    ctx.prevPktSize = n ∧ deltaMinSize ≤ n ∧ n ≤ ctx.arena.size := by
  simp only [Netc.wantsDelta, Bool.and_eq_true, decide_eq_true_eq] at h
  exact ⟨h.1.1.2, h.1.2, h.2⟩

/-- With a dictionary, residuals leave room for the LZP filter. -/
theorem Ctx.Wf.roomyLzp (h : ctx.Wf) {d : Dict} (hd : ctx.dict = some d) {n : ℕ} (hn : n ≤ ctx.arena.size) :
    ∃ lzp, ctx.roomyLzp n = some lzp := by
  obtain ⟨lzp, hl⟩ := Option.isSome_iff_exists.mp (h.getLzpTable_isSome hd)
  exact ⟨lzp, by rw [Ctx.roomyLzp, if_pos hn, hl]⟩

end Sources

/-! ### Formats -/

/-- A draft was made from the source: by one of the three encoders, or by the
10-bit one with a table of the same bucket. The flags of the call agree with the
context's where the header tells the decoder of them. -/
structure Made (j : Job) (s : Source) (d : Draft) : Prop where
  pktFlags : d.pktFlags = s.pktFlags
  didDelta : d.didDelta = s.didDelta
  didLzp : d.didLzp = s.didLzp
  bigram : CfgFlag.has d.tansFlags CfgFlag.bigram = CfgFlag.has j.ctx.flags CfgFlag.bigram
  noX2 : d.didLzp = true → j.compact = true → CfgFlag.has d.tansFlags CfgFlag.noX2 = true
  skipSr : d.didDelta = true → CfgFlag.has d.tansFlags CfgFlag.skipSr = true
  lt : d.payload.length < j.src.length
  coded : d.used10 = false → Coded j.dict j.tables s.bytes d.tansFlags j.compact d.payload d.info
  coded10 : d.used10 = true → d.info.mreg = 0 ∧ d.info.x2 = false ∧ d.didLzp = false ∧ d.info.tblIdx < ctxCount ∧
    CfgFlag.has d.tansFlags CfgFlag.bigram = false ∧ (d.didDelta = true → s.bytes.length ≤ 8) ∧
    ∃ t10 cap, table10 (j.tables d.info.tblIdx) = some t10 ∧
      (tans10bitWithTable t10 s.bytes cap).result = some (d.payload, ())

namespace Job

variable {j : Job} {s : Source} {d : Draft}

theorem tansDraft_made {flags : UInt32}
    (hbigram : CfgFlag.has flags CfgFlag.bigram = CfgFlag.has j.ctx.flags CfgFlag.bigram)
    (hnoX2 : s.didLzp = true → j.compact = true → CfgFlag.has flags CfgFlag.noX2 = true)
    (hskip : s.didDelta = true → CfgFlag.has flags CfgFlag.skipSr = true)
    (h : j.tansDraft s flags = some d) : Made j s d ∧ d.used10 = false := by
  rw [tansDraft] at h
  split at h
  · next payload info ha =>
    split at h
    · next hlt =>
      have h := Option.some.inj h
      subst h
      exact ⟨⟨rfl, rfl, rfl, hbigram, hnoX2, hskip, hlt, fun _ => (tryTansCompress_coded ha).1, by simp⟩, rfl⟩
    · cases h
  · cases h

theorem tansCtxFlags_bigram (didDelta didLzp : Bool) :
    CfgFlag.has (j.tansCtxFlags didDelta didLzp) CfgFlag.bigram = CfgFlag.has j.ctx.flags CfgFlag.bigram := by
  have h1 : ∀ b : Bool, CfgFlag.has (if b = true then CfgFlag.noX2 else 0) CfgFlag.bigram = false := by decide
  have h2 : ∀ b : Bool, CfgFlag.has (if b = true then CfgFlag.skipSr else 0) CfgFlag.bigram = false := by decide
  rw [tansCtxFlags, CfgFlag.has_or, CfgFlag.has_or, h1, h2, Bool.or_false, Bool.or_false]

theorem tansCtxFlags_noX2 (didDelta : Bool) (hc : j.compact = true) :
    CfgFlag.has (j.tansCtxFlags didDelta true) CfgFlag.noX2 = true := by
  rw [tansCtxFlags, CfgFlag.has_or, CfgFlag.has_or, hc]
  rw [show CfgFlag.has (if (true && true) = true then CfgFlag.noX2 else 0) CfgFlag.noX2 = true by decide,
    Bool.or_true, Bool.true_or]

theorem rawFlags_bigram (didLzp : Bool) :
    CfgFlag.has (j.rawFlags didLzp) CfgFlag.bigram = CfgFlag.has j.ctx.flags CfgFlag.bigram := by
  have h1 : ∀ b : Bool, CfgFlag.has (if b = true then CfgFlag.noX2 else 0) CfgFlag.bigram = false := by decide
  rw [rawFlags, CfgFlag.has_or, h1, Bool.or_false, CfgFlag.has_and]
  rfl

theorem rawFlags_noX2 (hc : j.compact = true) : CfgFlag.has (j.rawFlags true) CfgFlag.noX2 = true := by
  rw [rawFlags, CfgFlag.has_or, hc]
  rw [show CfgFlag.has (if (true && true) = true then CfgFlag.noX2 else 0) CfgFlag.noX2 = true by decide,
    Bool.or_true]

theorem lzpFlags_bigram : CfgFlag.has j.lzpFlags CfgFlag.bigram = CfgFlag.has j.ctx.flags CfgFlag.bigram := by
  have h1 : ∀ b : Bool, CfgFlag.has (if b = true then CfgFlag.noX2 else 0) CfgFlag.bigram = false := by decide
  rw [lzpFlags, CfgFlag.has_or, CfgFlag.has_or, h1, Bool.or_false, CfgFlag.has_and,
    show CfgFlag.has CfgFlag.skipSr CfgFlag.bigram = false by decide, Bool.or_false]
  rfl

theorem lzpFlags_noX2 (hc : j.compact = true) : CfgFlag.has j.lzpFlags CfgFlag.noX2 = true := by
  rw [lzpFlags, CfgFlag.has_or, CfgFlag.has_or, hc]
  rw [show CfgFlag.has (if true = true then CfgFlag.noX2 else 0) CfgFlag.noX2 = true by decide, Bool.or_true,
    Bool.true_or]

/-- The draft of the packet's source. -/
def firstDraft (j : Job) : Option Draft :=
  j.tansDraft (sourceOf j.ctx j.src)
    (j.tansCtxFlags (sourceOf j.ctx j.src).didDelta (sourceOf j.ctx j.src).didLzp)

theorem firstDraft_made (h : j.firstDraft = some d) : Made j (sourceOf j.ctx j.src) d ∧ d.used10 = false := by
  refine tansDraft_made (tansCtxFlags_bigram _ _) (fun hl hc => ?_) (fun hd => ?_) h
  · rw [hl]
    exact tansCtxFlags_noX2 _ hc
  · rw [hd]
    exact tansCtxFlags_skipSr _

/-- The LZP trial keeps the draft, or wins with one of the filtered packet. -/
theorem planLzp_made (hs : SourceFor j.ctx j.src s) (h : Made j s d) (h10 : d.used10 = false) :
    j.planLzp d = d ∨ ∃ lzp, j.ctx.getLzpTable = some lzp ∧ (j.planLzp d).used10 = false ∧
      (j.planLzp d).didDelta = false ∧
      Made j ⟨lzpXorFilter lzp j.src, PktFlag.dictId, false, true⟩ (j.planLzp d) := by
  rw [planLzp]
  cases hl : j.ctx.getLzpTable with
  | none => exact .inl rfl
  | some lzp =>
    simp only
    cases j.triesLzp d.didDelta d.payload.length with
    | false => exact .inl rfl
    | true =>
      simp only [if_true]
      rcases ha : (tryTansCompress j.dict j.tables (lzpXorFilter lzp j.src) trialBufSize j.lzpFlags
        j.compact).result with _ | ⟨p, info⟩
      · exact .inl rfl
      · simp only
        by_cases hlt : p.length < d.payload.length
        · simp only [if_pos hlt]
          refine .inr ⟨lzp, rfl, h10, rfl, ⟨?_, rfl, rfl, lzpFlags_bigram, fun _ hc => lzpFlags_noX2 hc,
            by simp [lzpChoice], hlt.trans h.lt, fun _ => (tryTansCompress_coded ha).1, by simp [lzpChoice, h10]⟩⟩
          simp only [lzpChoice, h.pktFlags]
          exact hs.cleared
        · simp only [if_neg hlt]
          exact .inl trivial

/-- A draft with one table uses one of a bucket. -/
theorem Coded.tblIdx_lt {bytes p : List UInt8} {info : TansInfo} {flags : UInt32}
    (h : Coded j.dict j.tables bytes flags j.compact p info) : info.tblIdx < ctxCount := by
  cases h with
  | single hidx hshort h => exact hidx
  | pctx h => simp [ctxCount]
  | pctxBigram hbigram hvalid h => simp [ctxCount]

/-- The 10-bit trial keeps the draft, or wins with one of the same source. -/
theorem plan10_made (h : Made j s d) (h10 : d.used10 = false) : Made j s (j.plan10 s.bytes d) := by
  rw [plan10]
  cases hw : j.wants10 d.toChoice with
  | false =>
    simp only [Bool.false_eq_true, if_false]
    exact h
  | true =>
    simp only [if_true]
    cases ht : j.tans10Trial d.info.tblIdx s.bytes d.payload.length with
    | none =>
      simp only
      exact h
    | some p =>
      simp only
      simp only [wants10, Bool.and_eq_true, Bool.not_eq_true', decide_eq_true_eq] at hw
      obtain ⟨⟨⟨⟨-, hmreg⟩, hlzp⟩, hbigram⟩, -⟩ := hw
      obtain ⟨t10, ht10, hp, hlt⟩ := tans10Trial_eq ht
      have hcoded := h.coded h10
      have hidx := Coded.tblIdx_lt hcoded
      refine ⟨h.pktFlags, h.didDelta, h.didLzp, h.bigram, h.noX2, h.skipSr, hlt.trans h.lt, by simp, fun _ => ?_⟩
      exact ⟨hmreg, rfl, hlzp, hidx, hbigram,
        fun hd => short_of_coded hcoded (h.skipSr hd) hmreg, t10, 136, ht10, hp⟩

end Job

/-- The formats a packet can leave in. Residuals of order 2 are coded with LZ77 only
where there is no dictionary, and what is not filtered is coded with tANS as it was
at first. -/
inductive Format (ctx : Ctx) (src : List UInt8) (dstCap : ℕ) : Packet → Prop
  | lz77 {s : Source} {cap : ℕ} {lz : List UInt8} (hs : SourceFor ctx src s) (hl : s.didLzp = false)
      (horder : PktFlag.has s.pktFlags PktFlag.rle = true → ctx.dict = none ∧
        hdrSz ctx.compactMode src.length < dstCap ∧ cap = dstCap - hdrSz ctx.compactMode src.length)
      (h : lz77Encode s.bytes cap = .ok lz) : Format ctx src dstCap (lz77Packet s.pktFlags lz)
  | lz77x {ring : Block} {cap : ℕ} {lz : List UInt8} (passthru : Bool) (hring : ctx.ring = some ring)
      (hsize : 0 < ring.size) (h : lz77xEncode src ctx.ring ctx.ringPos ctx.prevPktSize cap = .ok lz) :
      Format ctx src dstCap ⟨PktFlag.dictId, Alg.lz77x, lz, passthru⟩
  | tans {d : Dict} {s : Source} {w : Draft} (hd : ctx.dict = some d) (hs : SourceFor ctx src s)
      (hm : Made ⟨ctx, d, src, dstCap⟩ s w)
      (hfirst : s.didLzp = false → s = sourceOf ctx src ∧ ∃ w₀, Job.firstDraft ⟨ctx, d, src, dstCap⟩ = some w₀ ∧
        Job.planLzp ⟨ctx, d, src, dstCap⟩ w₀ = w₀ ∧ w = Job.plan10 ⟨ctx, d, src, dstCap⟩ s.bytes w₀) :
      Format ctx src dstCap w.packet

theorem Ctx.hasRing_eq_true {ctx : Ctx} (h : ctx.hasRing = true) : ∃ ring, ctx.ring = some ring ∧ 0 < ring.size := by
  rw [Ctx.hasRing] at h
  split at h
  · next ring hr => exact ⟨ring, hr, by simpa using h⟩
  · cases h

theorem dictId_rle : ¬PktFlag.has PktFlag.dictId PktFlag.rle = true := by decide

section Plan

variable {ctx : Ctx} {d : Dict} {src : List UInt8} {dstCap : ℕ}

theorem planLzx_format {w : Draft} {p : Packet} (h : Job.planLzx ⟨ctx, d, src, dstCap⟩ w = some p) :
    Format ctx src dstCap p := by
  rw [Job.planLzx] at h
  split at h
  · next hw =>
    simp only [Job.wantsLzx, Bool.and_eq_true] at hw
    obtain ⟨ring, hring, hsize⟩ := Ctx.hasRing_eq_true hw.1.1.1.1
    obtain ⟨lz, hlz, rfl⟩ := Option.map_eq_some_iff.mp h
    exact .lz77x false hring hsize (Job.lz77Wins_eq_some.mp hlz).1
  · cases h

/-- A filtered packet is not tried with a 10-bit table. -/
theorem plan10_of_lzp {j : Job} {w : Draft} (h : w.didLzp = true) (bytes : List UInt8) : j.plan10 bytes w = w := by
  have hw : j.wants10 w.toChoice = false := by simp [Job.wants10, h]
  rw [Job.plan10, hw, if_neg (by simp)]

/-- From cross-packet LZ77 on, a draft of filtered bytes leaves. -/
theorem planLzxEnd_format_lzp (hd : ctx.dict = some d) {lzp : LzpTable} (hl : ctx.getLzpTable = some lzp)
    {w : Draft} (hm : Made ⟨ctx, d, src, dstCap⟩ ⟨lzpXorFilter lzp src, PktFlag.dictId, false, true⟩ w)
    (bytes : List UInt8) : Format ctx src dstCap (Job.planLzxEnd ⟨ctx, d, src, dstCap⟩ bytes w) := by
  rw [Job.planLzxEnd]
  cases hx : Job.planLzx ⟨ctx, d, src, dstCap⟩ w with
  | some p => exact planLzx_format hx
  | none =>
    rw [Option.getD_none, plan10_of_lzp hm.didLzp]
    exact .tans hd (.lzp hl) hm (by simp)

theorem planLz77_format {w : Draft} {s : Source} (hs : SourceFor ctx src s)
    (hm : Made ⟨ctx, d, src, dstCap⟩ s w) {p : Packet} {bytes : List UInt8}
    (hbytes : s.didDelta = true → bytes = s.bytes)
    (h : Job.planLz77 ⟨ctx, d, src, dstCap⟩ bytes w = some p) : Format ctx src dstCap p := by
  rw [Job.planLz77] at h
  split at h
  · split at h
    · next hA =>
      simp only [Bool.and_eq_true, Bool.not_eq_true', hm.didDelta] at hA
      obtain ⟨lz, hlz, rfl⟩ := Option.map_eq_some_iff.mp h
      rw [hm.pktFlags, hs.pktFlags_of_not_delta hA.1]
      exact .lz77 (s := plainSource src) .plain rfl (fun hr => absurd hr dictId_rle) (Job.lz77Wins_eq_some.mp hlz).1
    · split at h
      · next hB =>
        simp only [Bool.and_eq_true, Bool.not_eq_true', hm.didDelta, hm.pktFlags] at hB
        split at h
        · cases h
        · obtain ⟨lz, hlz, rfl⟩ := Option.map_eq_some_iff.mp h
          rw [hbytes hB.1.1] at hlz
          rw [hm.pktFlags]
          exact .lz77 hs (hs.didLzp_of_delta hB.1.1) (fun hr => by rw [hB.2] at hr; cases hr)
            (Job.lz77Wins_eq_some.mp hlz).1
      · cases h
  · cases h

theorem planTans_format (hd : ctx.dict = some d) {p : Packet}
    (h : Job.planTans ⟨ctx, d, src, dstCap⟩ (sourceOf ctx src) = some p) : Format ctx src dstCap p := by
  have hsource := sourceOf_for ctx src
  obtain ⟨w₀, hw₀, rfl⟩ := Option.map_eq_some_iff.mp h
  have hw₀ : Job.firstDraft ⟨ctx, d, src, dstCap⟩ = some w₀ := hw₀
  obtain ⟨hm, h10⟩ := Job.firstDraft_made hw₀
  rw [Job.planCompetition]
  rcases Job.planLzp_made hsource hm h10 with hkeep | ⟨lzp, hl, -, -, hm'⟩
  · rw [hkeep]
    cases hz : Job.planLz77 ⟨ctx, d, src, dstCap⟩ (sourceOf ctx src).bytes w₀ with
    | some q => exact planLz77_format hsource hm (fun _ => rfl) hz
    | none =>
      rw [Option.getD_none, Job.planLzxEnd]
      cases hx : Job.planLzx ⟨ctx, d, src, dstCap⟩ w₀ with
      | some q => exact planLzx_format hx
      | none =>
        rw [Option.getD_none]
        exact .tans hd hsource (Job.plan10_made hm h10) fun _ => ⟨rfl, w₀, hw₀, hkeep, rfl⟩
  · cases hz : Job.planLz77 ⟨ctx, d, src, dstCap⟩ (sourceOf ctx src).bytes
        (Job.planLzp ⟨ctx, d, src, dstCap⟩ w₀) with
    | some q => exact planLz77_format (.lzp hl) hm' (by simp) hz
    | none =>
      rw [Option.getD_none]
      exact planLzxEnd_format_lzp hd hl hm' _

/-- Residuals leave room for the filter, so that the raw fallback codes filtered bytes. -/
theorem planRaw_format (hwf : ctx.Wf) (hd : ctx.dict = some d) (hdelta : (sourceOf ctx src).didDelta = true)
    {p : Packet} (h : Job.planRaw ⟨ctx, d, src, dstCap⟩ = some p) : Format ctx src dstCap p := by
  obtain ⟨-, -, hroom⟩ := wantsDelta_room ((sourceOf_for ctx src).wantsDelta hdelta)
  obtain ⟨lzp, hl⟩ := hwf.roomyLzp hd hroom
  have hraw : Job.rawSource ⟨ctx, d, src, dstCap⟩ = ⟨lzpXorFilter lzp src, PktFlag.dictId, false, true⟩ := by
    simp only [Job.rawSource, hl, lzpSource]
  obtain ⟨w₀, hw₀, rfl⟩ := Option.map_eq_some_iff.mp h
  rw [hraw] at hw₀ ⊢
  obtain ⟨hm, -⟩ := Job.tansDraft_made (Job.rawFlags_bigram true) (fun _ hc => Job.rawFlags_noX2 hc) (by simp) hw₀
  exact planLzxEnd_format_lzp hd (Ctx.roomyLzp_eq_some hl).2 hm _

theorem planDict_format (hwf : ctx.Wf) {p : Packet} (h : planDict ctx src dstCap = some p) :
    Format ctx src dstCap p := by
  rw [planDict] at h
  split at h
  · next d hd =>
    split at h
    · rw [Job.planTansBlocks] at h
      split at h
      · next q hq =>
        obtain rfl := Option.some.inj h
        exact planTans_format hd hq
      · split at h
        · next hdelta => exact planRaw_format hwf hd hdelta h
        · cases h
    · cases h
  · cases h

/-- LZ77 codes the packet, or residuals that are still in the arena. -/
theorem lz77Source_for (hwf : ctx.Wf) (src : List UInt8) : ∃ s, SourceFor ctx src s ∧ s.didLzp = false ∧
    s.bytes = (lz77Source ctx src).bytes ∧ s.pktFlags = (lz77Source ctx src).pktFlags ∧
    (PktFlag.has s.pktFlags PktFlag.rle = true → ctx.dict = none) := by
  have hsource := sourceOf_for ctx src
  simp only [lz77Source]
  cases hdelta : (sourceOf ctx src).didDelta with
  | false =>
    simp only [Bool.false_eq_true, if_false, hsource.pktFlags_of_not_delta hdelta]
    exact ⟨_, .plain, rfl, rfl, rfl, fun hr => absurd hr dictId_rle⟩
  | true =>
    simp only [if_true, hsource.cleared]
    obtain ⟨-, -, hroom⟩ := wantsDelta_room (hsource.wantsDelta hdelta)
    cases hd : ctx.dict with
    | none =>
      simp only [Option.isSome_none, Bool.false_and, Bool.false_eq_true, if_false]
      exact ⟨_, hsource, hsource.didLzp_of_delta hdelta, rfl, rfl, fun _ => trivial⟩
    | some d =>
      obtain ⟨lzp, hl⟩ := hwf.roomyLzp hd hroom
      simp only [hl, Option.isSome_some, Bool.and_self, if_true]
      exact ⟨_, .plain, rfl, rfl, rfl, fun hr => absurd hr dictId_rle⟩

/-- **The formats of the plan.** -/
theorem plan_format (hwf : ctx.Wf) {p : Packet} (h : plan ctx src dstCap = some p) : Format ctx src dstCap p := by
  rw [plan] at h
  split at h
  · next q hq =>
    obtain rfl := Option.some.inj h
    exact planDict_format hwf hq
  · rw [planLz77] at h
    split at h
    · next hc =>
      split at h
      · next lz hlz =>
        obtain rfl := Option.some.inj h
        obtain ⟨s, hs, hl, hbytes, hflags, horder⟩ := lz77Source_for hwf src
        rw [← hbytes] at hlz
        rw [← hflags]
        exact .lz77 hs hl (fun hr => ⟨horder hr, hc.2, rfl⟩) hlz
      · split at h
        · next hx =>
          simp only [Bool.and_eq_true] at hx
          obtain ⟨ring, hring, hsize⟩ := Ctx.hasRing_eq_true hx.1.2
          split at h
          · next lz hlz =>
            obtain rfl := Option.some.inj h
            exact .lz77x true hring hsize hlz
          · cases h
        · cases h
    · cases h

/-- An LZ77 stream is shorter than what it codes. -/
theorem lz77Encode_lt {l lz : List UInt8} {cap : ℕ} (h : lz77Encode l cap = .ok lz) : lz.length < l.length := by
  have := lz77Encode_spec l cap
  rw [h] at this
  exact this.2.1

/-- **Every format is shorter than the packet.** -/
theorem Format.lt {p : Packet} (h : Format ctx src dstCap p) : p.payload.length < src.length := by
  cases h with
  | lz77 hs hl horder h => exact (lz77Encode_lt h).trans_eq hs.length
  | @lz77x _ cap _ passthru hring hsize h =>
    have := lz77xEncode_spec hsize src ctx.ringPos ctx.prevPktSize cap
    rw [← hring, h] at this
    exact this.2.1
  | tans hd hs hm hfirst => exact hm.lt

end Plan

end Netc
