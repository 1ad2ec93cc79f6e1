/-
# Packets that stand alone

Contexts that are not stateful have no history: no previous packet, no ring, no
adaptive model. Whatever calls were made on them, any two with one
dictionary agree, and what one of them sends the others receive, in any
order and as often as they like (`receives_any_order`). With the default arena
every packet is filtered before it is coded, which rules out the format with
two states (`plan_noX2`); and the stateless decoder knows every format that is left.

Key definitions: `Historyless`, `outbox`, `Receipt`, `GivesBack`.
Key theorems: `Historyless.agree`, `plan_noX2`, `receives_any_order`.
-/
import Netc.Session
import Netc.StatelessRoundtrip

namespace Netc

/-! ### Contexts without a history -/

/-- A context with dictionary `d`, the eight-byte header and no history. -/
structure Historyless (d : Dict) (ctx : Ctx) : Prop where
  wf : ctx.Wf
  dict : ctx.dict = some d
  compact : ctx.compactMode = false
  ring : ctx.ring = none
  ringPos : ctx.ringPos = 0
  prevPkt : ctx.prevPkt = none
  prev2Pkt : ctx.prev2Pkt = none
  prev2PktSize : ctx.prev2PktSize = 0
  adapt : ctx.adapt = none
  adaptLzp : ctx.adaptLzp = none
  adaptPktCount : ctx.adaptPktCount = 0

section Historyless

variable {d : Dict} {enc dec ctx ctx' : Ctx}

theorem Historyless.prevPktSize (h : Historyless d ctx) : ctx.prevPktSize = 0 := h.wf.prev_none h.prevPkt

/-- Any two of them agree. -/
theorem Historyless.agree (h : Historyless d enc) (h' : Historyless d dec) : Agree enc dec where
  dict := h'.dict.trans h.dict.symm
  compact := h'.compact.trans h.compact.symm
  ring := h'.ring.trans h.ring.symm
  ringPos := h'.ringPos.trans h.ringPos.symm
  prevPkt := h'.prevPkt.trans h.prevPkt.symm
  prevPktSize := h'.prevPktSize.trans h.prevPktSize.symm
  prev2Pkt := h'.prev2Pkt.trans h.prev2Pkt.symm
  prev2PktSize := h'.prev2PktSize.trans h.prev2PktSize.symm
  adapt := h'.adapt.trans h.adapt.symm
  adaptLzp := h'.adaptLzp.trans h.adaptLzp.symm
  adaptPktCount := h'.adaptPktCount.trans h.adaptPktCount.symm

/-- A context of the same make has no history either. -/
theorem Historyless.kin (h : Historyless d ctx) (hk : Kin ctx ctx') (hwf : ctx'.Wf) : Historyless d ctx' where
  wf := hwf
  dict := hk.dict.trans h.dict
  compact := (congrArg (CfgFlag.has · CfgFlag.compactHdr) hk.flags).trans h.compact
  ring := hk.ring_none.mpr h.ring
  ringPos := (hk.ringPos h.ring).trans h.ringPos
  prevPkt := (isNone_of_isSome_eq hk.prevPkt).mpr h.prevPkt
  prev2Pkt := (isNone_of_isSome_eq hk.prev2Pkt).mpr h.prev2Pkt
  prev2PktSize := (hk.prev2PktSize h.prev2Pkt).trans h.prev2PktSize
  adapt := (isNone_of_isSome_eq hk.adapt).mpr h.adapt
  adaptLzp := (isNone_of_isSome_eq hk.adaptLzp).mpr h.adaptLzp
  adaptPktCount := (hk.adaptPktCount h.adapt).trans h.adaptPktCount

/-- A context that is not stateful has no history at first. -/
theorem ctxCreate_historyless {pf : Platform} {cfg : Cfg} {junk : ℕ → UInt8} (hd : d.Sound)
    (h : ctxCreate pf (some d) cfg junk = some ctx) (hs : CfgFlag.has cfg.flags CfgFlag.stateful = false)
    (hc : CfgFlag.has cfg.flags CfgFlag.compactHdr = false) : Historyless d ctx := by
  have hwf : ctx.Wf := ctxCreate_wf (fun d' hd' => by rwa [← Option.some.inj hd']) h
  have hcompact : ctx.compactMode = false := by rw [Ctx.compactMode, ctxCreate_flags h, hc]
  simp only [ctxCreate, hs] at h
  cases ha : CfgFlag.has cfg.flags CfgFlag.adaptive with
  | true =>
    rw [ha] at h
    cases h
  | false =>
    rw [ha] at h
    have h := Option.some.inj h
    rw [← h] at hwf hcompact ⊢
    exact ⟨hwf, rfl, hcompact, rfl, rfl, rfl, rfl, rfl, rfl, rfl, rfl⟩

/-- **It never has one**, whatever calls are made. -/
theorem Historyless.run (h : Historyless d ctx) {calls : List Call} {replies : List Reply}
    (hrun : run ctx calls = .ok (replies, ctx')) : Historyless d ctx' :=
  h.kin (kin_run hrun) (h.wf.run hrun)

theorem Historyless.hasRing (h : Historyless d ctx) : ctx.hasRing = false := by rw [Ctx.hasRing, h.ring]

theorem Historyless.wantsDelta (h : Historyless d ctx) (n : ℕ) : wantsDelta ctx n = false := by
  rw [← Bool.not_eq_true]
  intro hw
  obtain ⟨h1, h2, -⟩ := wantsDelta_room hw
  have h8 : deltaMinSize = 8 := rfl
  have h0 := h.prevPktSize
  omega

theorem Historyless.didDelta (h : Historyless d ctx) {src : List UInt8} {s : Source} (hs : SourceFor ctx src s) :
    s.didDelta = false := by
  rw [← Bool.not_eq_true]
  intro hd
  exact absurd ((h.wantsDelta _).symm.trans (hs.wantsDelta hd)) (by decide)

/-- The packet itself is coded, or filtered with the dictionary's table. -/
theorem Historyless.source (h : Historyless d ctx) {src : List UInt8} {s : Source} (hs : SourceFor ctx src s) :
    s = plainSource src ∨ ∃ lzp, d.lzpTable = some lzp ∧ s = ⟨lzpXorFilter lzp src, PktFlag.dictId, false, true⟩ := by
  have hdelta := h.didDelta hs
  cases hs with
  | plain => exact .inl rfl
  | @lzp lzp hl =>
    rw [Ctx.getLzpTable, h.adaptLzp, h.dict] at hl
    exact .inr ⟨lzp, hl, rfl⟩
  | order1 hw => cases hdelta
  | order2 hw ho => cases hdelta

end Historyless

/-! ### Formats without two states -/

section Formats

variable {d : Dict} {ctx : Ctx} {src : List UInt8} {dstCap : ℕ} {p : Packet}

/-- Filtered bytes are not tried with a single table. -/
theorem tansCtxFlags_skipSr_lzp (j : Job) : CfgFlag.has (j.tansCtxFlags false true) CfgFlag.skipSr = true := by
  rw [Job.tansCtxFlags, CfgFlag.has_or]
  simp only [Bool.false_or, Bool.true_or, if_true]
  rw [show CfgFlag.has CfgFlag.skipSr CfgFlag.skipSr = true by decide, Bool.or_true]

/-- With room in the arena the packet is filtered. -/
theorem Historyless.sourceOf (h : Historyless d ctx) (hroom : src.length ≤ ctx.arena.size) :
    ∃ lzp, ctx.getLzpTable = some lzp ∧
      Netc.sourceOf ctx src = ⟨lzpXorFilter lzp src, PktFlag.dictId, false, true⟩ := by
  obtain ⟨lzp, hl⟩ := h.wf.roomyLzp h.dict hroom
  refine ⟨lzp, (Ctx.roomyLzp_eq_some hl).2, ?_⟩
  rw [Netc.sourceOf, h.wantsDelta, if_neg (by simp), h.dict, hl]
  rfl

/-- The draft of a filtered packet has one state. -/
theorem Historyless.firstDraft (h : Historyless d ctx) (hroom : src.length ≤ ctx.arena.size) {w : Draft}
    (hw : Job.firstDraft ⟨ctx, d, src, dstCap⟩ = some w) :
    w.info.x2 = false ∧ w.used10 = false ∧ w.didLzp = true ∧ w.didDelta = false := by
  obtain ⟨lzp, hl, hsource⟩ := h.sourceOf hroom
  obtain ⟨hm, h10⟩ := Job.firstDraft_made hw
  rw [hsource] at hm
  have hskip : CfgFlag.has w.tansFlags CfgFlag.skipSr = true := by
    rw [Job.firstDraft, hsource, Job.tansDraft] at hw
    split at hw
    · split at hw
      · rw [← Option.some.inj hw]
        exact tansCtxFlags_skipSr_lzp _
      · cases hw
    · cases hw
  refine ⟨?_, h10, hm.didLzp, hm.didDelta⟩
  rw [← Bool.not_eq_true]
  intro hx2
  obtain ⟨hmreg, hlong, -⟩ := (hm.coded h10).x2 hx2
  have hshort := Job.short_of_coded (hm.coded h10) hskip hmreg
  omega

theorem planLz77_eq {j : Job} {bytes : List UInt8} {w : Draft} (h : j.planLz77 bytes w = some p) :
    ∃ lz, p = lz77Packet w.pktFlags lz := by
  rw [Job.planLz77] at h
  split at h
  · split at h
    · obtain ⟨lz, -, rfl⟩ := Option.map_eq_some_iff.mp h
      exact ⟨lz, rfl⟩
    · split at h
      · split at h
        · cases h
        · obtain ⟨lz, -, rfl⟩ := Option.map_eq_some_iff.mp h
          exact ⟨lz, rfl⟩
      · cases h
  · cases h

theorem Historyless.planLzx (h : Historyless d ctx) (w : Draft) : Job.planLzx ⟨ctx, d, src, dstCap⟩ w = none := by
  rw [Job.planLzx, Job.wantsLzx, h.hasRing]
  rfl

/-- With a dictionary no packet leaves with two states. -/
theorem Historyless.planDict_noX2 (h : Historyless d ctx) (hroom : src.length ≤ ctx.arena.size)
    (hp : planDict ctx src dstCap = some p) : PktFlag.has p.flags PktFlag.x2 = false := by
  have hsource := sourceOf_for ctx src
  rw [planDict, h.dict] at hp
  simp only at hp
  split at hp
  · rw [Job.planTansBlocks] at hp
    split at hp
    · next q hq =>
      obtain rfl := Option.some.inj hp
      obtain ⟨w, hw, rfl⟩ := Option.map_eq_some_iff.mp hq
      have hw : Job.firstDraft ⟨ctx, d, src, dstCap⟩ = some w := hw
      obtain ⟨hm, -⟩ := Job.firstDraft_made hw
      obtain ⟨hx2, h10, hlzp, hdelta⟩ := h.firstDraft hroom hw
      have hmem := hsource.pktFlags_mem
      -- residuals alone compete with the filter
      have hkeep : Job.planLzp ⟨ctx, d, src, dstCap⟩ w = w := by
        rw [Job.planLzp, Job.triesLzp, hdelta]
        split <;> rfl
      rw [Job.planCompetition, hkeep]
      rcases hz : Job.planLz77 ⟨ctx, d, src, dstCap⟩ (Netc.sourceOf ctx src).bytes w with _ | q
      · rw [Option.getD_none, Job.planLzxEnd, h.planLzx, Option.getD_none, plan10_of_lzp hlzp, (hm.coded_packet h10).1,
          (codedFlags_has _ hmem _ _).1, hx2]
      · obtain ⟨lz, rfl⟩ := planLz77_eq hz
        rw [Option.getD_some, hm.pktFlags]
        exact (lz77Flags_has _ hmem).2.2.2.2
    · rw [h.didDelta hsource] at hp
      cases hp
  · cases hp

/-- **No packet leaves with two states.** -/
theorem Historyless.plan_noX2 (h : Historyless d ctx) (hroom : src.length ≤ ctx.arena.size)
    (hp : plan ctx src dstCap = some p) : PktFlag.has p.flags PktFlag.x2 = false := by
  rw [plan] at hp
  split at hp
  · next q hq =>
    obtain rfl := Option.some.inj hp
    exact h.planDict_noX2 hroom hq
  · rw [planLz77] at hp
    split at hp
    · split at hp
      · obtain rfl := Option.some.inj hp
        obtain ⟨s, hs, -, -, hflags, -⟩ := lz77Source_for h.wf src
        rw [← hflags]
        exact (lz77Flags_has _ hs.pktFlags_mem).2.2.2.2
      · rw [h.hasRing, Bool.and_false, Bool.false_and] at hp
        cases hp
    · cases hp

/-- **The stateless decoder knows every format of the plan.** -/
theorem Historyless.delivered (h : Historyless d ctx) (hroom : src.length ≤ ctx.arena.size)
    (hp : plan ctx src dstCap = some p) {hdr : PktHeader} (hsize : hdr.originalSize = src.length)
    (hflags : hdr.flags = p.flags) (halg : hdr.algorithm = p.algorithm) :
    StatelessDelivered d hdr p.payload src ∧ PktFlag.has hdr.flags PktFlag.delta = false := by
  have hx2 := h.plan_noX2 hroom hp
  have hformat := plan_format h.wf hp
  have hne : src.length ≠ 0 := by
    have := hformat.lt
    omega
  cases hformat with
  | @lz77 s cap lz hs hl horder hlz =>
    obtain ⟨h1, -, h2, -⟩ := lz77Flags_has _ hs.pktFlags_mem
    have hflags : hdr.flags = s.pktFlags ||| PktFlag.lz77 ||| PktFlag.passthru := hflags
    rw [← hflags] at h1 h2
    rcases h.source hs with rfl | ⟨lzp, -, rfl⟩
    · exact ⟨lz77_statelessDelivered hlz hsize h1 halg, h2.trans dictId_delta⟩
    · cases hl
  | lz77x passthru hring hsize' hlz => exact absurd (h.ring.symm.trans hring) (by simp)
  | @tans d' s w hd hs hm hfirst =>
    obtain rfl : d = d' := Option.some.inj (h.dict.symm.trans hd)
    obtain ⟨hdec, hl, hdelta, -⟩ := hm.decodes h.wf hd hs hne (fun hx => by rw [hx2] at hx; cases hx) hsize hflags halg
    have htables : ctx.getTables d = d.tables := by rw [Ctx.getTables, h.adapt]
    rw [htables, h.compact] at hdec
    rw [hs.pktFlags_of_not_delta (h.didDelta hs)] at hdelta
    refine ⟨⟨s.bytes, hs.length, fun dst => hdec.stateless (h.wf.dict d hd) dst, ?_⟩, hdelta.trans dictId_delta⟩
    rcases h.source hs with rfl | ⟨lzp, hlzp, rfl⟩
    · rw [undoStateless, if_neg (by rw [hl]; simp [plainSource])]
      rfl
    · rw [undoStateless, if_pos (hl.mpr rfl), hlzp]
      exact unfiltered_filter lzp src

end Formats

/-! ### Sending and receiving -/

/-- The packets of the calls of `netc_compress` that return `NETC_OK`, each with its bytes on the wire. -/
def outbox : Ctx → List Transfer → List (List UInt8 × List UInt8)
  | _, [] => []
  | enc, t :: ts =>
    if (t.send enc).code = .ok then (t.src, t.sent enc) :: outbox (t.send enc).ctx ts else outbox (t.send enc).ctx ts

/-- A packet that is received: what was sent, its bytes on the wire, and the buffer of the call. -/
structure Receipt where
  src : List UInt8
  pkt : List UInt8
  out : Out
  outCap : ℕ
  outSize : ℕ

/-- `netc_decompress` gives every packet back, one after another. -/
def GivesBack : Ctx → List Receipt → Prop
  | _, [] => True
  | dec, r :: rs => ∃ ret, decompress dec r.pkt r.out r.outCap r.outSize = .ok ret ∧ ret.code = .ok ∧
      ret.dstSize = r.src.length ∧ ret.dst.read ret.dstSize = r.src ∧ GivesBack ret.ctx rs

/-- `netc_decompress_stateless` gives the packet back. -/
def Receipt.GivenBack (r : Receipt) (d : Dict) : Prop :=
  ∃ ret, decompressStateless d r.pkt r.out r.outCap r.outSize = .ok ret ∧ ret.code = .ok ∧
    ret.dstSize = r.src.length ∧ ret.dst.read ret.dstSize = r.src

/-- Bytes that a context without a history sent for `src`. -/
def SentAlone (d : Dict) (src pkt : List UInt8) : Prop :=
  ∃ enc dstCap, Historyless d enc ∧ src.length ≤ enc.arena.size ∧ src.length ≤ maxPacketSize ∧
    pkt = wire enc src (plan enc src dstCap)

section Calls

variable {d : Dict} {enc dec : Ctx} {src pkt : List UInt8} {cap : ℕ}

/-- What is in the outbox was sent so. -/
theorem sentAlone_of_outbox (ts : List Transfer) (h : Historyless d enc) (harena : maxPacketSize ≤ enc.arena.size)
    (hmem : (src, pkt) ∈ outbox enc ts) : SentAlone d src pkt := by
  induction ts generalizing enc with
  | nil => cases hmem
  | cons t ts ih =>
    have hkin := kin_compress enc t.src t.dst t.dstCap t.dstSize
    have hrest := ih (h.kin hkin (compress_wf h.wf ..)) (harena.trans hkin.arena.ge)
    rw [outbox] at hmem
    split at hmem
    · next hok =>
      rcases List.mem_cons.mp hmem with heq | hmem
      · obtain ⟨rfl, rfl⟩ := Prod.mk.inj heq
        rcases compress_cases enc t.src t.dst t.dstCap t.dstSize with ⟨-, code, hcode, hr⟩ | ⟨-, -, -, hcode, -⟩ |
          ⟨hentry, -, hsent⟩
        · rw [Transfer.send, hr] at hok
          exact absurd hok hcode
        · rw [Transfer.send, hcode] at hok
          cases hok
        · have hlen : t.src.length ≤ maxPacketSize := by omega
          exact ⟨enc, t.dstCap, h, hlen.trans harena, hlen, hsent.bytes⟩
      · exact hrest hmem
    · exact hrest hmem

/-- **A context without a history gives it back**, and has none afterwards. -/
theorem SentAlone.received (h : SentAlone d src pkt) (hdec : Historyless d dec) (hcap : src.length ≤ cap) (dst : Out)
    (dstSize : ℕ) : ∃ ret, decompress dec pkt dst cap dstSize = .ok ret ∧ ret.code = .ok ∧ ret.dstSize = src.length ∧
      ret.dst.read ret.dstSize = src ∧ Historyless d ret.ctx := by
  obtain ⟨enc, dstCap, henc, hroom, hlen, rfl⟩ := h
  obtain ⟨dst', hrun, hread⟩ := @wire_received enc dec src dstCap cap henc.wf hdec.wf (henc.agree hdec) hlen hcap
    (fun p hp hx2 => absurd ((henc.plan_noX2 hroom hp).symm.trans hx2) (by decide))
    (fun hm => absurd (henc.compact.symm.trans hm) (by decide)) dst dstSize
  exact ⟨_, hrun, rfl, rfl, hread, hdec.kin (kin_decompFinish ..) (decompFinish_wf hdec.wf _ _ hlen)⟩

/-- **So does the stateless decoder.** -/
theorem SentAlone.received_stateless (h : SentAlone d src pkt) (hcap : src.length ≤ cap) (dst : Out) (dstSize : ℕ) :
    ∃ dst', decompressStateless d pkt dst cap dstSize = .ok ⟨.ok, dst', src.length⟩ ∧ dst'.read src.length = src := by
  obtain ⟨enc, dstCap, henc, hroom, hlen, rfl⟩ := h
  obtain ⟨o, ho⟩ : ∃ o, plan enc src dstCap = o := ⟨_, rfl⟩
  have hsize := @wireHeader_originalSize enc src o hlen
  have hc := wireHeader_compressedSize henc.wf hlen ho
  have hc16 := lt_of_le_of_lt ((length_wirePayload_le henc.wf ho).trans hlen) maxPacketSize_lt
  have hmodel : (wireHeader enc src o).modelId = d.modelId := by
    rw [wireHeader_modelId, Ctx.modelId, henc.dict]
  rw [ho, wire_eq, henc.compact]
  rcases o with _ | p
  · have hdelta : PktFlag.has (PktFlag.passthru ||| PktFlag.dictId) PktFlag.delta = false := by decide
    exact decompressStateless_received hsize hlen hcap hc hc16 hmodel hdelta
      (passthru_statelessDelivered hsize hc rfl rfl) dst dstSize
  · obtain ⟨hdel, hdelta⟩ := henc.delivered hroom ho hsize rfl rfl
    exact decompressStateless_received hsize hlen hcap hc hc16 hmodel hdelta hdel dst dstSize

/-- Packets that were sent so, in any order and any number, are given back. -/
theorem givesBack_of_sentAlone : ∀ (rs : List Receipt) {dec : Ctx}, Historyless d dec →
    (∀ r ∈ rs, SentAlone d r.src r.pkt ∧ r.src.length ≤ r.outCap) → GivesBack dec rs
  | [], _, _, _ => trivial
  | r :: rs, dec, h, hrs => by
    obtain ⟨hsent, hcap⟩ := hrs r (by simp)
    obtain ⟨ret, hrun, hcode, hsize, hread, h'⟩ := hsent.received h hcap r.out r.outSize
    exact ⟨ret, hrun, hcode, hsize, hread, givesBack_of_sentAlone rs h' fun q hq => hrs q (by simp [hq])⟩

end Calls

/-- The default arena has room for a packet. -/
theorem ctxCreate_arena {pf : Platform} {dict : Option Dict} {cfg : Cfg} {junk : ℕ → UInt8} {ctx : Ctx}
    (h : ctxCreate pf dict cfg junk = some ctx) (ha : cfg.arenaSize = 0 ∨ maxPacketSize ≤ cfg.arenaSize) :
    maxPacketSize ≤ ctx.arena.size := by
  simp only [ctxCreate] at h
  split at h
  · cases h
  · rw [← Option.some.inj h]
    have hdefault : defaultArenaSize = maxPacketSize * 2 + 64 := rfl
    simp only
    split <;> omega

/-- **Packets without a history decode in any order.** A context that is not stateful, with the eight-byte header and
the default arena (or any in which a packet has room), compresses packets. Whichever of those it sent, in any order
and with repetitions, come back from `netc_decompress_stateless`, and from `netc_decompress` on any context that is
not stateful either, whatever calls were made on it before. -/
theorem decompress_any_order {pf pf' : Platform} {d : Dict} {cfg cfg' : Cfg} {junk junk' : ℕ → UInt8}
    {enc dec₀ dec : Ctx} {calls : List Call} {replies : List Reply} (hd : Trained d)
    (henc : ctxCreate pf (some d) cfg junk = some enc) (hdec : ctxCreate pf' (some d) cfg' junk' = some dec₀)
    (hs : CfgFlag.has cfg.flags CfgFlag.stateful = false) (hs' : CfgFlag.has cfg'.flags CfgFlag.stateful = false)
    (hc : CfgFlag.has cfg.flags CfgFlag.compactHdr = false) (hc' : CfgFlag.has cfg'.flags CfgFlag.compactHdr = false)
    (harena : cfg.arenaSize = 0 ∨ maxPacketSize ≤ cfg.arenaSize) (hrun : run dec₀ calls = .ok (replies, dec))
    (ts : List Transfer) (rs : List Receipt)
    (hrs : ∀ r ∈ rs, (r.src, r.pkt) ∈ outbox enc ts ∧ r.src.length ≤ r.outCap) :
    GivesBack dec rs ∧ ∀ r ∈ rs, r.GivenBack d := by
  have hroom := ctxCreate_arena henc harena
  have hsent : ∀ r ∈ rs, SentAlone d r.src r.pkt ∧ r.src.length ≤ r.outCap := by
    intro r hr
    obtain ⟨hmem, hcap⟩ := hrs r hr
    exact ⟨sentAlone_of_outbox ts (ctxCreate_historyless hd.sound henc hs hc) hroom hmem, hcap⟩
  refine ⟨givesBack_of_sentAlone rs ((ctxCreate_historyless hd.sound hdec hs' hc').run hrun) hsent, ?_⟩
  intro r hr
  obtain ⟨halone, hcap⟩ := hsent r hr
  obtain ⟨dst', hret, hread⟩ := halone.received_stateless hcap r.out r.outSize
  exact ⟨_, hret, rfl, rfl, hread⟩

/-- One packet twice, sent and received by a context with a dictionary of one zero byte. -/
theorem decompress_any_order_twice : ∃ d enc, dictTrain [[0]] 1 = .ok d ∧
    ctxCreate scalarPlatform (some d) ⟨0, 0, 0, 0⟩ (fun _ => 0) = some enc ∧
    ∃ r : Receipt, r.src = [1, 2, 3] ∧ (r.src, r.pkt) ∈ outbox enc [smallTransfer [1, 2, 3]] ∧
      GivesBack enc [r, r] ∧ r.GivenBack d := by
  obtain ⟨d, hd⟩ := @dictTrain_ok [[0]] 1 (by decide)
  obtain ⟨enc, henc⟩ : ∃ enc, ctxCreate scalarPlatform (some d) ⟨0, 0, 0, 0⟩ (fun _ => 0) = some enc := ⟨_, rfl⟩
  have hfits : (smallTransfer [1, 2, 3]).Fits := ⟨by decide, by decide, by decide⟩
  have hmem : ([1, 2, 3], (smallTransfer [1, 2, 3]).sent enc) ∈ outbox enc [smallTransfer [1, 2, 3]] := by
    rw [outbox, if_pos (hfits.sent enc).code]
    exact List.mem_cons_self
  have h0 : CfgFlag.has 0 CfgFlag.stateful = false := by decide
  have h1 : CfgFlag.has 0 CfgFlag.compactHdr = false := by decide
  obtain ⟨r, hr⟩ : ∃ r : Receipt, r = ⟨[1, 2, 3], (smallTransfer [1, 2, 3]).sent enc, .empty, 64, 0⟩ := ⟨_, rfl⟩
  have hrs : ∀ q ∈ [r, r], (q.src, q.pkt) ∈ outbox enc [smallTransfer [1, 2, 3]] ∧ q.src.length ≤ q.outCap := by
    intro q hq
    simp only [List.mem_cons, List.not_mem_nil, or_false, or_self] at hq
    rw [hq, hr]
    exact ⟨hmem, show 3 ≤ 64 by norm_num⟩
  obtain ⟨hback, hgiven⟩ := decompress_any_order ⟨_, _, hd⟩ henc henc h0 h0 h1 h1 (.inl rfl)
    (show run enc [] = .ok ([], enc) from rfl) _ [r, r] hrs
  exact ⟨d, enc, hd, henc, r, by rw [hr], (hrs r List.mem_cons_self).1, hback, hgiven r List.mem_cons_self⟩

end Netc
