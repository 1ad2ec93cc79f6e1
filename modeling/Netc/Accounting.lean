/-
# The statistics are a ledger

`netc_ctx_stats` copies five counters. Over any run they are the totals of the packets that went through the
context since its creation or its last reset, modulo 2^64, and a call that fails adds nothing
(`run_accounts`). What counts as a passthrough is a matter of the algorithm on the wire, with one exception:
cross-packet LZ77 counts too where tANS gave nothing shorter, but only for the sender (`wire_named`). So the
ledgers of two contexts that exchange packets mirror each other except for these (`exchange_balances`).

Key definitions: `ctxStats`, `wireAlg`, `Entry`, `booked`, `Tallies`, `Turn`, `Mirrors`.
Key theorems: `Sent.counted`, `step_tallies`, `run_accounts`, `exchange_balances`.
-/
import Netc.Datagram

namespace Netc

/-- `netc_ctx_stats` -/
def ctxStats (ctx : Ctx) : Except Result Stats :=
  if CfgFlag.has ctx.flags CfgFlag.stats then .ok ctx.stats else .error .errUnsupported

/-! ### The algorithm on the wire -/

/-- The algorithm that a packet names: in its sixth byte, or by its type. -/
def wireAlg (compact : Bool) (pkt : List UInt8) : UInt8 :=
  algId (if compact then (pktTypeTable (pkt.getD 0 0)).2 else pkt.getD 5 0)

/-- The algorithm that a reader of the header finds. -/
def namedAlg (compact : Bool) (flags algorithm : UInt8) : UInt8 :=
  algId (if compact then (pktTypeTable (compactTypeEncode flags algorithm)).2 else algorithm)

section Named

theorem wireAlg_hdrEmit (h : PktHeader) (compact : Bool) (payload : List UInt8) :
    wireAlg compact (hdrEmit h compact ++ payload) = namedAlg compact h.flags h.algorithm := by
  cases compact with
  | false => rfl
  | true =>
    simp only [wireAlg, namedAlg, hdrEmit, hdrWriteCompact, if_true]
    split <;> rfl

theorem hdrRead_algorithm {src : List UInt8} {h : PktHeader} (hr : hdrRead src = .ok h) :
    h.algorithm = src.getD 5 0 := by
  rw [hdrRead] at hr
  obtain ⟨_, -, hr⟩ := Exc.bind_eq_ok hr
  obtain ⟨_, -, hr⟩ := Exc.bind_eq_ok hr
  obtain ⟨_, -, hr⟩ := Exc.bind_eq_ok hr
  obtain ⟨alg, hget, hr⟩ := Exc.bind_eq_ok hr
  obtain ⟨_, -, hr⟩ := Exc.bind_eq_ok hr
  obtain ⟨_, -, hr⟩ := Exc.bind_eq_ok hr
  rw [← Except.ok.inj hr, Chk.getD_of_get hget]

theorem hdrReadCompact_algorithm {src : List UInt8} {h : PktHeader} {n : ℕ}
    (hr : hdrReadCompact src = .ok (some (h, n))) :
    h.algorithm = (pktTypeTable (src.getD 0 0)).2 := by
  rw [hdrReadCompact] at hr
  split at hr
  · cases hr
  · obtain ⟨t, ht, hr⟩ := Exc.bind_eq_ok hr
    rw [Chk.getD_of_get ht]
    simp only at hr
    split at hr
    · cases hr
    · obtain ⟨b1, -, hr⟩ := Exc.bind_eq_ok hr
      split at hr
      · cases hr
        rfl
      · split at hr
        · cases hr
        · obtain ⟨v, -, hr⟩ := Exc.bind_eq_ok hr
          cases hr
          rfl

/-- What the decoder goes by is the algorithm on the wire. -/
theorem wireAlg_of_valid {src : List UInt8} {dstCap n : ℕ} {compact : Bool} {h : PktHeader}
    (hv : validateHeader src dstCap compact = .ok (.ok (h, n))) : algId h.algorithm = wireAlg compact src := by
  cases compact with
  | false => rw [hdrRead_algorithm (hdrRead_of_valid hv), wireAlg, if_neg (by simp)]
  | true =>
    rw [validateHeader, if_pos rfl] at hv
    obtain ⟨o, ho, hv⟩ := Exc.bind_eq_ok hv
    rcases o with _ | ⟨h₀, n₀⟩
    · cases hv
    · have halg := hdrReadCompact_algorithm ho
      simp only at hv
      repeat' split at hv
      all_goals simp only [Exc.pure_eq, Except.ok.injEq, reduceCtorEq, Prod.mk.injEq] at hv
      rw [← hv.1, wireAlg, if_pos rfl, ← halg]

theorem coded_named : ∀ compact : Bool, ∀ f ∈ sourceFlags, ∀ x2 bigram lzp : Bool,
    namedAlg compact (codedFlags f x2 bigram) (pctxAlg lzp) ≠ Alg.passthru ∧
    ∀ idx < 16, namedAlg compact (codedFlags f x2 bigram) (singleAlg lzp idx) ≠ Alg.passthru ∧
      namedAlg compact (codedFlags f x2 bigram) (alg10 idx) ≠ Alg.passthru := by
  simp only [forall_sourceFlags]
  decide +kernel

theorem lz77_named : ∀ compact : Bool, ∀ f ∈ sourceFlags,
    namedAlg compact (f ||| PktFlag.lz77 ||| PktFlag.passthru) Alg.passthru = Alg.passthru := by
  simp only [forall_sourceFlags]
  decide +kernel

theorem lz77x_named : ∀ compact : Bool, namedAlg compact PktFlag.dictId Alg.lz77x = Alg.lz77x := by decide

theorem passthru_named : ∀ compact : Bool,
    namedAlg compact (PktFlag.passthru ||| PktFlag.dictId) Alg.passthru = Alg.passthru := by decide

/-- **The algorithm of a planned packet.** In-packet LZ77 is a passthrough on the wire, cross-packet LZ77
has a name of its own, and so has tANS, which does not count as a passthrough. -/
theorem Format.named {ctx : Ctx} {src : List UInt8} {dstCap : ℕ} {p : Packet}
    (h : Format ctx src dstCap p) (compact : Bool) :
    (namedAlg compact p.flags p.algorithm = Alg.passthru ∧ p.passthru = true) ∨
    (namedAlg compact p.flags p.algorithm = Alg.lz77x ∧ p.algorithm = Alg.lz77x) ∨
    (namedAlg compact p.flags p.algorithm ≠ Alg.passthru ∧ p.passthru = false) := by
  cases h with
  | lz77 hs hl horder h => exact .inl ⟨lz77_named compact _ hs.pktFlags_mem, rfl⟩
  | lz77x passthru hring hsize h => exact .inr (.inl ⟨lz77x_named compact, rfl⟩)
  | @tans d s w hd hs hm hfirst =>
    refine .inr (.inr ⟨?_, rfl⟩)
    have hmem := hs.pktFlags_mem
    cases h10 : w.used10 with
    | true =>
      obtain ⟨hf, ha⟩ := hm.ten_packet h10
      rw [hf, ha]
      exact ((coded_named compact _ hmem false false false).2 _ (hm.coded10 h10).2.2.2.1).2
    | false =>
      obtain ⟨hf, ha⟩ := hm.coded_packet h10
      rw [hf, ha, codedAlg]
      split
      · exact ((coded_named compact _ hmem _ _ _).2 _ (Job.Coded.tblIdx_lt (hm.coded h10))).1
      · exact (coded_named compact _ hmem _ _ _).1

/-- What leaves the competition counts as a passthrough only in the in-packet LZ77 format. -/
theorem planLzxEnd_passthru (j : Job) (bytes : List UInt8) (d : Draft) : (j.planLzxEnd bytes d).passthru = false := by
  rw [Job.planLzxEnd]
  rcases hx : j.planLzx d with _ | q
  · rfl
  · rw [Job.planLzx] at hx
    split at hx
    · obtain ⟨lz, -, rfl⟩ := Option.map_eq_some_iff.mp hx
      rfl
    · cases hx

theorem planCompetition_passthru (j : Job) (bytes : List UInt8) (d : Draft)
    (h : (j.planCompetition bytes d).passthru = true) : (j.planCompetition bytes d).algorithm = Alg.passthru := by
  rw [Job.planCompetition] at h ⊢
  rcases hl : j.planLz77 bytes (j.planLzp d) with _ | q
  · rw [hl, Option.getD_none, planLzxEnd_passthru] at h
    cases h
  · rw [Option.getD_some]
    rw [Job.planLz77] at hl
    repeat' split at hl
    all_goals first
      | obtain ⟨lz, -, rfl⟩ := Option.map_eq_some_iff.mp hl
        rfl
      | cases hl

theorem planDict_passthru {ctx : Ctx} {src : List UInt8} {dstCap : ℕ} {p : Packet}
    (h : planDict ctx src dstCap = some p) (hp : p.passthru = true) : p.algorithm = Alg.passthru := by
  have hraw : ∀ j : Job, j.planRaw = some p → p.algorithm = Alg.passthru := fun j hj => by
    obtain ⟨w, -, rfl⟩ := Option.map_eq_some_iff.mp hj
    rw [planLzxEnd_passthru] at hp
    cases hp
  rw [planDict] at h
  repeat' split at h
  · rw [Job.planTansBlocks] at h
    split at h
    · next q hq =>
      obtain rfl := Option.some.inj h
      obtain ⟨w, -, rfl⟩ := Option.map_eq_some_iff.mp hq
      exact planCompetition_passthru _ _ w hp
    · split at h
      · exact hraw _ h
      · cases h
  · cases h
  · cases h

/-- Without a tANS form the packet leaves as a passthrough, also by cross-packet LZ77. -/
theorem planLz77_passthru {ctx : Ctx} {src : List UInt8} {dstCap : ℕ} {p : Packet}
    (h : planLz77 ctx src dstCap = some p) : p.passthru = true := by
  rw [planLz77] at h
  repeat' split at h
  all_goals cases h
  all_goals rfl

end Named

/-! ### The ledger -/

/-- A packet that went through a context: the way it went, its size, its size and its algorithm on the wire,
and whether tANS had a shorter form of it when it was sent. -/
structure Entry where
  sent : Bool
  plain : ℕ
  wire : ℕ
  alg : UInt8
  coded : Bool
  deriving DecidableEq, Repr

/-- What went into the call. -/
def Entry.bytesIn (e : Entry) : ℕ := if e.sent then e.plain else e.wire

/-- What came out of it. -/
def Entry.bytesOut (e : Entry) : ℕ := if e.sent then e.wire else e.plain

/-- What counts as a passthrough: the packets that say so on the wire, and cross-packet LZ77 where it was sent
for want of a tANS form. -/
def Entry.passthru (e : Entry) : Bool :=
  decide (e.alg = Alg.passthru) || (e.sent && !e.coded && decide (e.alg = Alg.lz77x))

/-- The entries after a call on context `ctx`, given its reply: a call that succeeds adds one, a reset removes
all. -/
def bookedBy (ctx : Ctx) (book : List Entry) : Call → Reply → List Entry
  | .compress src _ dstCap _, some r =>
    if r.code = .ok then
      book ++ [⟨true, src.length, r.dstSize, wireAlg ctx.compactMode (r.dst.read r.dstSize),
        (planDict ctx src dstCap).isSome⟩]
    else book
  | .decompress src _ _ _, some r =>
    if r.code = .ok then book ++ [⟨false, r.dstSize, src.length, wireAlg ctx.compactMode src, false⟩] else book
  | .reset, _ => []
  | _, none => book

/-- The entries after calls. -/
def booked : Ctx → List Entry → List Call → List Entry
  | _, book, [] => book
  | ctx, book, c :: calls =>
    match step ctx c with
    | .ok (reply, ctx') => booked ctx' (bookedBy ctx book c reply) calls
    | .error _ => book

/-- The counters are the totals of the entries, 64 bits wide. -/
structure Tallies (book : List Entry) (s : Stats) : Prop where
  packetsCompressed : s.packetsCompressed = book.countP (·.sent) % 2 ^ 64
  packetsDecompressed : s.packetsDecompressed = book.countP (!·.sent) % 2 ^ 64
  bytesIn : s.bytesIn = (book.map Entry.bytesIn).sum % 2 ^ 64
  bytesOut : s.bytesOut = (book.map Entry.bytesOut).sum % 2 ^ 64
  passthroughCount : s.passthroughCount = book.countP (·.passthru) % 2 ^ 64

/-- The statistics of a packet that was received. -/
def countDecompressed (srcSize outSize : ℕ) (passthru : Bool) (s : Stats) : Stats :=
  { s with
    packetsDecompressed := (s.packetsDecompressed + 1) % 2 ^ 64
    bytesIn := (s.bytesIn + srcSize) % 2 ^ 64
    bytesOut := (s.bytesOut + outSize) % 2 ^ 64
    passthroughCount := if passthru then (s.passthroughCount + 1) % 2 ^ 64 else s.passthroughCount }

section Counters

variable {book : List Entry} {s : Stats}

theorem tallies_nil : Tallies [] .zero := ⟨rfl, rfl, rfl, rfl, rfl⟩

/-- A counter of 64 bits goes up where the entry counts. -/
theorem countP_snoc_mod (p : Entry → Bool) (book : List Entry) (e : Entry) :
    (if p e then (book.countP p % 2 ^ 64 + 1) % 2 ^ 64 else book.countP p % 2 ^ 64)
      = (book ++ [e]).countP p % 2 ^ 64 := by
  rw [List.countP_append, List.countP_singleton]
  split
  · rw [Nat.mod_add_mod]
  · rfl

theorem Tallies.sent (h : Tallies book s) (n m : ℕ) (alg : UInt8) (coded : Bool) :
    Tallies (book ++ [⟨true, n, m, alg, coded⟩]) (countCompressed n m (Entry.passthru ⟨true, n, m, alg, coded⟩) s) := by
  refine ⟨?_, ?_, ?_, ?_, ?_⟩
  · simp [countCompressed, h.packetsCompressed]
  · simp [countCompressed, h.packetsDecompressed]
  · simp [countCompressed, h.bytesIn, Entry.bytesIn]
  · simp [countCompressed, h.bytesOut, Entry.bytesOut]
  · simp only [countCompressed, h.passthroughCount]
    exact countP_snoc_mod ..

theorem Tallies.received (h : Tallies book s) (n m : ℕ) (alg : UInt8) :
    Tallies (book ++ [⟨false, n, m, alg, false⟩]) (countDecompressed m n (decide (alg = Alg.passthru)) s) := by
  have hpass : decide (alg = Alg.passthru) = Entry.passthru ⟨false, n, m, alg, false⟩ := (Bool.or_false _).symm
  refine ⟨?_, ?_, ?_, ?_, ?_⟩
  · simp [countDecompressed, h.packetsCompressed]
  · simp [countDecompressed, h.packetsDecompressed]
  · simp [countDecompressed, h.bytesIn, Entry.bytesIn]
  · simp [countDecompressed, h.bytesOut, Entry.bytesOut]
  · simp only [countDecompressed, h.passthroughCount, hpass]
    exact countP_snoc_mod ..

end Counters

section Stats

variable (ctx : Ctx) (data : List UInt8)

@[simp] theorem Ctx.updatePrev_stats : (ctx.updatePrev data).stats = ctx.stats := by
  simp only [Ctx.updatePrev]
  rcases ctx.prevPkt with _ | prev
  · rfl
  · rcases ctx.prev2Pkt with _ | prev2 <;> rfl

@[simp] theorem Ctx.appendRing_stats : (ctx.appendRing data).stats = ctx.stats := by
  simp only [Ctx.appendRing]
  rcases ctx.ring with _ | ring <;> rfl

@[simp] theorem Ctx.learn_stats : (ctx.learn data).stats = ctx.stats := by
  simp only [Ctx.learn, Ctx.adaptiveUpdate]
  rcases ctx.adapt with _ | a
  · rfl
  · simp only
    split <;> rfl

theorem Ctx.tally_stats (f : Stats → Stats) :
    (ctx.tally f).stats = if CfgFlag.has ctx.flags CfgFlag.stats then f ctx.stats else ctx.stats := by
  rw [Ctx.tally]
  split <;> rfl

theorem takenIn_stats (arena : Block) : (takenIn ctx data arena).stats = ctx.stats := by
  rw [takenIn, Ctx.updatePrev_stats, Ctx.appendRing_stats]

variable {ctx}

theorem sentCtx_stats (hf : CfgFlag.has ctx.flags CfgFlag.stats = true) {arena : Block}
    (harena : arena.size = ctx.arena.size) (n : ℕ) (passthru : Bool) :
    (sentCtx ctx data arena n passthru).stats = countCompressed data.length n passthru ctx.stats := by
  have hflags : (takenIn ctx data arena).flags = ctx.flags := (kin_takenIn ctx data harena).flags
  rw [sentCtx, Ctx.learn_stats, Ctx.tally_stats, hflags, if_pos hf, takenIn_stats]

theorem decompFinish_stats (hf : CfgFlag.has ctx.flags CfgFlag.stats = true) (hdr : PktHeader) (n : ℕ) :
    (decompFinish ctx hdr n data).stats
      = countDecompressed n data.length (decide (algId hdr.algorithm = Alg.passthru)) ctx.stats := by
  have hflags : ((ctx.updatePrev data).appendRing data).flags = ctx.flags :=
    ((kin_updatePrev ctx data).trans (kin_appendRing _ data)).flags
  simp only [decompFinish, Ctx.learn_stats, Ctx.tally_stats, hflags, if_pos hf,
    Ctx.appendRing_stats, Ctx.updatePrev_stats,
    countDecompressed, decide_eq_true_eq]

end Stats

/-! ### Runs -/

section Runs

variable {ctx ctx' : Ctx} {book : List Entry}

/-- **What the sender counts as a passthrough**: what it names so on the wire, and cross-packet LZ77 where tANS
has no shorter form. -/
theorem wire_named (hwf : ctx.Wf) (src : List UInt8) (dstCap : ℕ) :
    sentPassthru (plan ctx src dstCap) = true ↔
      wireAlg ctx.compactMode (wire ctx src (plan ctx src dstCap)) = Alg.passthru ∨
      (wireAlg ctx.compactMode (wire ctx src (plan ctx src dstCap)) = Alg.lz77x ∧ planDict ctx src dstCap = none) := by
  rcases hp : plan ctx src dstCap with _ | p
  · rw [wire, wireAlg_hdrEmit]
    exact iff_of_true rfl (.inl (passthru_named _))
  · rw [wire, wireAlg_hdrEmit, sentPassthru]
    have hne : Alg.lz77x ≠ Alg.passthru := by decide
    have hform := (plan_format hwf hp).named ctx.compactMode
    rw [plan] at hp
    split at hp
    · -- from the competition with tANS
      next q hq =>
      obtain rfl := Option.some.inj hp
      rw [hq]
      rcases hform with ⟨hname, hpass⟩ | ⟨hname, halg⟩ | ⟨hname, hpass⟩
      · exact iff_of_true hpass (.inl hname)
      · refine iff_of_false (fun hpass => ?_) ?_
        · exact hne (halg.symm.trans (planDict_passthru hq hpass))
        · rintro (h | ⟨-, h⟩)
          · exact hne (hname.symm.trans h)
          · cases h
      · refine iff_of_false (by simp [hpass]) ?_
        rintro (h | ⟨-, h⟩)
        · exact hname h
        · cases h
    · next hnone =>
      have hpass := planLz77_passthru hp
      rcases hform with ⟨hname, -⟩ | ⟨hname, -⟩ | ⟨-, hno⟩
      · exact iff_of_true hpass (.inl hname)
      · exact iff_of_true hpass (.inr ⟨hname, hnone⟩)
      · exact absurd (hno.symm.trans hpass) (by simp)

/-- **A packet that is sent is counted.** -/
theorem Sent.counted (hwf : ctx.Wf) (hf : CfgFlag.has ctx.flags CfgFlag.stats = true) {src : List UInt8} {dstCap : ℕ}
    {r : CompressRet} (h : Sent ctx src dstCap r) (hbook : Tallies book ctx.stats) :
    Tallies (book ++ [⟨true, src.length, r.dstSize, wireAlg ctx.compactMode (r.dst.read r.dstSize),
      (planDict ctx src dstCap).isSome⟩]) r.ctx.stats := by
  obtain ⟨arena, harena, hctx⟩ := h.ctx
  have hpass : sentPassthru (plan ctx src dstCap) = Entry.passthru ⟨true, src.length, r.dstSize,
      wireAlg ctx.compactMode (r.dst.read r.dstSize), (planDict ctx src dstCap).isSome⟩ := by
    rw [Bool.eq_iff_iff, wire_named hwf, h.bytes, Entry.passthru]
    simp only [Bool.true_and, Bool.or_eq_true, Bool.and_eq_true, Bool.not_eq_true', Option.isSome_eq_false_iff,
      Option.isNone_iff_eq_none, decide_eq_true_eq, and_comm]
  rw [hctx, sentCtx_stats src hf harena, hpass]
  exact hbook.sent ..

/-- A packet that is accepted was read with the algorithm it names. -/
theorem decompress_named {src : List UInt8} {dst : Out} {dstCap dstSize : ℕ} {r : DecompressRet} (hwf : ctx.Wf)
    (h : decompress ctx src dst dstCap dstSize = .ok r) : (r.code ≠ .ok ∧ r.ctx = ctx) ∨
      (r.code = .ok ∧ ∃ hdr n, validateHeader src dstCap ctx.compactMode = .ok (.ok (hdr, n)) ∧
        r.dstSize = hdr.originalSize ∧
        r.ctx = decompFinish ctx (fillHeader ctx hdr) src.length (r.dst.read r.dstSize)) := by
  rcases decompress_cases hwf src dstCap with ⟨code, hcode, hrun⟩ | ⟨hdr, payload, ws, code, hp, -, hrun⟩
  · rw [hrun, Except.ok.injEq] at h
    rw [← h]
    exact .inl ⟨hcode, rfl⟩
  · obtain ⟨h₀, n, hv, rfl, -⟩ := hp.header
    rcases hrun with ⟨hcode, hrun⟩ | ⟨-, hrun⟩
    · rw [hrun, Except.ok.injEq] at h
      rw [← h]
      exact .inl ⟨hcode, rfl⟩
    · obtain ⟨dst', -, hrun⟩ := hrun dst dstSize
      rw [hrun, Except.ok.injEq] at h
      rw [← h]
      exact .inr ⟨rfl, h₀, n, hv, fillHeader_originalSize .., rfl⟩

theorem fillHeader_algorithm (h : PktHeader) : (fillHeader ctx h).algorithm = h.algorithm := by
  rw [fillHeader]
  split <;> rfl

/-- **One call** keeps the ledger. -/
theorem step_tallies (hwf : ctx.Wf) (hf : CfgFlag.has ctx.flags CfgFlag.stats = true) {c : Call} {reply : Reply}
    (h : step ctx c = .ok (reply, ctx')) (hbook : Tallies book ctx.stats) :
    Tallies (bookedBy ctx book c reply) ctx'.stats := by
  rcases c with ⟨src, dst, dstCap, dstSize⟩ | ⟨src, dst, dstCap, dstSize⟩ | _
  · simp only [step, Except.ok.injEq, Prod.mk.injEq] at h
    obtain ⟨rfl, rfl⟩ := h
    rcases compress_cases ctx src dst dstCap dstSize with ⟨-, code, hcode, hr⟩ | ⟨-, -, -, hcode, -, arena, -, hctx⟩ |
      ⟨-, -, hsent⟩
    · simp only [bookedBy, hr, if_neg hcode]
      exact hbook
    · -- the history has taken the packet in, the counters have not
      simp only [bookedBy, hcode, reduceCtorEq, if_false, hctx, takenIn_stats]
      exact hbook
    · simp only [bookedBy, if_pos hsent.code]
      exact hsent.counted hwf hf hbook
  · simp only [step] at h
    obtain ⟨r, hr, h⟩ := Exc.bind_eq_ok h
    simp only [Exc.pure_eq, Except.ok.injEq, Prod.mk.injEq] at h
    obtain ⟨rfl, rfl⟩ := h
    rcases decompress_named hwf hr with ⟨hcode, hctx⟩ | ⟨hcode, hdr, n, hv, -, hctx⟩
    · simp only [bookedBy, if_neg hcode, hctx]
      exact hbook
    · simp only [bookedBy, if_pos hcode]
      rw [hctx, decompFinish_stats _ hf, fillHeader_algorithm, wireAlg_of_valid hv, Out.length_read]
      exact hbook.received ..
  · simp only [step, Except.ok.injEq, Prod.mk.injEq] at h
    obtain ⟨rfl, rfl⟩ := h
    exact tallies_nil

theorem Kin.compactMode {ctx ctx' : Ctx} (h : Kin ctx ctx') : ctx'.compactMode = ctx.compactMode := by
  rw [Ctx.compactMode, Ctx.compactMode, h.flags]

theorem run_tallies : ∀ {calls : List Call} {ctx ctx' : Ctx} {book : List Entry} {replies : List Reply}, ctx.Wf →
    CfgFlag.has ctx.flags CfgFlag.stats = true → run ctx calls = .ok (replies, ctx') → Tallies book ctx.stats →
    Tallies (booked ctx book calls) ctx'.stats
  | [], ctx, ctx', book, replies, _, _, hrun, hbook => by
    simp only [run, Except.ok.injEq, Prod.mk.injEq] at hrun
    obtain ⟨rfl, rfl⟩ := hrun
    exact hbook
  | c :: calls, ctx, ctx', book, replies, hwf, hf, hrun, hbook => by
    obtain ⟨reply, ctx₁, replies₁, h1, h2, rfl⟩ := run_cons_eq_ok hrun
    simp only [booked, h1]
    exact run_tallies (hwf.step h1) (by rw [(kin_step h1).flags]; exact hf) h2 (step_tallies hwf hf h1 hbook)

theorem Created.stats {ctx : Ctx} (h : Created ctx) : ctx.stats = .zero := by
  obtain ⟨pf, dict, cfg, junk, -, hcreate⟩ := h
  rw [ctxCreate] at hcreate
  split at hcreate
  · cases hcreate
  · rw [← Option.some.inj hcreate]

/-- **The statistics add up.** After any calls on a new context, in any order, failed ones and resets among
them, the five counters that `netc_ctx_stats` gives are the totals of the packets sent and received since the
last reset; without the flag it gives none. -/
theorem run_accounts {ctx₀ : Ctx} {calls : List Call} {replies : List Reply} (hc : Created ctx₀)
    (hrun : run ctx₀ calls = .ok (replies, ctx)) :
    (CfgFlag.has ctx₀.flags CfgFlag.stats = true →
      ∃ s, ctxStats ctx = .ok s ∧ Tallies (booked ctx₀ [] calls) s) ∧
    (CfgFlag.has ctx₀.flags CfgFlag.stats = false → ctxStats ctx = .error .errUnsupported) := by
  have hflags := (kin_run hrun).flags
  refine ⟨fun hf => ⟨ctx.stats, ?_, ?_⟩, fun hf => ?_⟩
  · rw [ctxStats, hflags, if_pos hf]
  · refine run_tallies hc.wf hf hrun ?_
    rw [hc.stats]
    exact tallies_nil
  · rw [ctxStats, hflags, if_neg (by rw [hf]; decide)]

end Runs

/-- The bytes 0 to 63, with buffers of 128 bytes. -/
def rampTransfer : Transfer := ⟨(List.range 64).map UInt8.ofNat, .empty, 128, 0, .empty, 128, 0⟩

/-- The same packet twice, and a broken one between: the second time it leaves by cross-packet LZ77, and for want of
a dictionary it counts as a passthrough too. -/
theorem run_accounts_ramp : ∃ replies ctx s,
    run (newCtx none (CfgFlag.stateful ||| CfgFlag.stats))
        [.compress rampTransfer.src .empty 128 0, .decompress [0] .empty 64 0, .compress rampTransfer.src .empty 128 0]
      = .ok (replies, ctx) ∧
    booked (newCtx none (CfgFlag.stateful ||| CfgFlag.stats)) []
        [.compress rampTransfer.src .empty 128 0, .decompress [0] .empty 64 0, .compress rampTransfer.src .empty 128 0]
      = [⟨true, 64, 72, Alg.passthru, false⟩, ⟨true, 64, 11, Alg.lz77x, false⟩] ∧
    ctxStats ctx = .ok s ∧ s.packetsCompressed = 2 ∧ s.bytesOut = 83 ∧ s.passthroughCount = 2 := by
  have hcreated : Created (newCtx none (CfgFlag.stateful ||| CfgFlag.stats)) := newCtx_created (by simp) (by decide)
  obtain ⟨replies, ctx, hrun, -⟩ := run_wf
    [.compress rampTransfer.src .empty 128 0, .decompress [0] .empty 64 0, .compress rampTransfer.src .empty 128 0]
    hcreated.wf
  have hbooked : booked (newCtx none (CfgFlag.stateful ||| CfgFlag.stats)) []
      [.compress rampTransfer.src .empty 128 0, .decompress [0] .empty 64 0, .compress rampTransfer.src .empty 128 0]
      = [⟨true, 64, 72, Alg.passthru, false⟩, ⟨true, 64, 11, Alg.lz77x, false⟩] := by decide +kernel
  obtain ⟨s, hs, hbook⟩ := (run_accounts hcreated hrun).1 (by decide)
  rw [hbooked] at hbook
  exact ⟨replies, ctx, s, hrun, hbooked, hs, hbook.packetsCompressed, hbook.bytesOut, hbook.passthroughCount⟩

/-! ### Both ends of a connection -/

/-- The ends of a connection, with the packets of each that count as passthroughs for their sender only. -/
structure Ends where
  a : Ctx
  b : Ctx
  extraA : ℕ
  extraB : ℕ

/-- Whether the sender counts a passthrough where the wire names none. -/
def Transfer.extra (t : Transfer) (enc : Ctx) : ℕ :=
  if sentPassthru (plan enc t.src t.dstCap) = true ∧ wireAlg enc.compactMode (t.sent enc) ≠ Alg.passthru then 1 else 0

/-- A packet goes through from one end to the other, or both ends are reset. -/
inductive Turn : Ends → Ends → Prop
  | forth {e : Ends} {t : Transfer} {r : DecompressRet} (hsent : (t.send e.a).code = .ok)
      (hreceived : t.receive e.a e.b = .ok r) (hcode : r.code = .ok) :
      Turn e ⟨(t.send e.a).ctx, r.ctx, e.extraA + t.extra e.a, e.extraB⟩
  | back {e : Ends} {t : Transfer} {r : DecompressRet} (hsent : (t.send e.b).code = .ok)
      (hreceived : t.receive e.b e.a = .ok r) (hcode : r.code = .ok) :
      Turn e ⟨r.ctx, (t.send e.b).ctx, e.extraA, e.extraB + t.extra e.b⟩
  | reset {e : Ends} : Turn e ⟨ctxReset e.a, ctxReset e.b, 0, 0⟩

/-- What one end put in the other got out, and the passthroughs differ by the extra ones. -/
structure Mirrors (s s' : Stats) (x x' : ℕ) : Prop where
  there : s'.packetsDecompressed = s.packetsCompressed
  back : s'.packetsCompressed = s.packetsDecompressed
  bytesOut : s'.bytesOut = s.bytesIn
  bytesIn : s'.bytesIn = s.bytesOut
  passthroughCount : (s'.passthroughCount + x) % 2 ^ 64 = (s.passthroughCount + x') % 2 ^ 64

section Ends

variable {s s' : Stats} {x x' : ℕ}

theorem Mirrors.symm (h : Mirrors s s' x x') : Mirrors s' s x' x :=
  ⟨h.back.symm, h.there.symm, h.bytesIn.symm, h.bytesOut.symm, h.passthroughCount.symm⟩

theorem Mirrors.sent (h : Mirrors s s' x x') (n m : ℕ) {passthru named : Bool} {extra : ℕ}
    (hextra : passthru.toNat = named.toNat + extra) :
    Mirrors (countCompressed n m passthru s) (countDecompressed m n named s') (x + extra) x' := by
  obtain ⟨h1, h2, h3, h4, h5⟩ := h
  refine ⟨?_, ?_, ?_, ?_, ?_⟩
  · simp only [countCompressed, countDecompressed, h1]
  · simp only [countCompressed, countDecompressed, h2]
  · simp only [countCompressed, countDecompressed, h3]
  · simp only [countCompressed, countDecompressed, h4]
  · simp only [countCompressed, countDecompressed]
    cases passthru <;> cases named <;> simp only [Bool.toNat_true, Bool.toNat_false,
      if_true, Bool.false_eq_true, if_false]
      at hextra ⊢ <;> omega

/-- The size in the header is that of the packet. -/
theorem originalSize_of_wire {enc : Ctx} (hwf : enc.Wf) {src : List UInt8} (hlen : src.length ≤ maxPacketSize)
    {dstCap cap n : ℕ} {hdr : PktHeader}
    (hv : validateHeader (wire enc src (plan enc src dstCap)) cap enc.compactMode = .ok (.ok (hdr, n))) :
    hdr.originalSize = src.length := by
  have hsize := @wireHeader_originalSize enc src (plan enc src dstCap) hlen
  have hc := wireHeader_compressedSize hwf hlen (Eq.refl (plan enc src dstCap))
  have hle := length_wirePayload_le hwf (Eq.refl (plan enc src dstCap))
  rw [wire_eq] at hv
  cases hm : enc.compactMode with
  | false =>
    rw [hm] at hv
    have hread := hdrRead_of_valid hv
    rw [hdrEmit, if_neg (by simp), hdrRead_hdrWrite _ _ (by rw [hsize]; exact lt_of_le_of_lt hlen maxPacketSize_lt)
      (by rw [hc]; exact lt_of_le_of_lt (hle.trans hlen) maxPacketSize_lt), Except.ok.injEq] at hread
    rw [← hread, hsize]
  | true =>
    have hvalid : TypeValid (compactTypeEncode (wireHeader enc src (plan enc src dstCap)).flags
        (wireHeader enc src (plan enc src dstCap)).algorithm) := by
      rcases hp : plan enc src dstCap with _ | p
      · exact passthru_typeValid
      · exact (plan_format hwf hp).typeValid
    rw [hm, hdrEmit, if_pos rfl, validateHeader, if_pos rfl,
      hdrReadCompact_hdrWriteCompact _ (by rw [hsize]; exact lt_of_le_of_lt hlen maxPacketSize_lt) hvalid,
      Exc.ok_bind] at hv
    simp only at hv
    repeat' split at hv
    all_goals simp only [Exc.pure_eq, Except.ok.injEq, reduceCtorEq, Prod.mk.injEq] at hv
    rw [← hv.1, hsize]

/-- **One packet** is booked at both ends. -/
theorem transfer_mirrors {enc dec : Ctx} {t : Transfer} {r : DecompressRet} (hwf : enc.Wf) (hwf' : dec.Wf)
    (hm : dec.compactMode = enc.compactMode) (hf : CfgFlag.has enc.flags CfgFlag.stats = true)
    (hf' : CfgFlag.has dec.flags CfgFlag.stats = true) (hsent : (t.send enc).code = .ok)
    (hreceived : t.receive enc dec = .ok r) (hcode : r.code = .ok) (h : Mirrors enc.stats dec.stats x x') :
    Mirrors (t.send enc).ctx.stats r.ctx.stats (x + t.extra enc) x' := by
  have hlen := length_le_of_ok hsent
  have hsend : Sent enc t.src t.dstCap (t.send enc) := by
    rcases compress_cases enc t.src t.dst t.dstCap t.dstSize with ⟨-, code, hbad, hr⟩ | ⟨-, -, -, hbad, -⟩ |
      ⟨-, -, hs⟩
    · rw [Transfer.send, hr] at hsent
      exact absurd hsent hbad
    · rw [Transfer.send, hbad] at hsent
      cases hsent
    · exact hs
  obtain ⟨arena, harena, hctx⟩ := hsend.ctx
  have hwire : t.sent enc = wire enc t.src (plan enc t.src t.dstCap) := hsend.bytes
  rcases decompress_named hwf' hreceived with ⟨hbad, -⟩ | ⟨-, hdr, n, hv, hsize, hctx'⟩
  · exact absurd hcode hbad
  · rw [hm] at hv
    have hnamed := wireAlg_of_valid hv
    rw [hwire] at hv
    rw [originalSize_of_wire hwf hlen hv] at hsize
    rw [hctx, hctx', sentCtx_stats _ hf harena, decompFinish_stats _ hf', Out.length_read, hsize, fillHeader_algorithm,
      hnamed, Transfer.sent, Out.length_read]
    refine h.sent _ _ ?_
    rw [Transfer.extra, hwire, ← Transfer.sent, hwire]
    have hcounts := (wire_named hwf t.src t.dstCap).mpr
    by_cases hname : wireAlg enc.compactMode (wire enc t.src (plan enc t.src t.dstCap)) = Alg.passthru
    · rw [hcounts (.inl hname)]
      simp [hname]
    · cases sentPassthru (plan enc t.src t.dstCap) <;> simp [hname]

/-- What the turns keep. -/
structure Balanced (e : Ends) : Prop where
  wfA : e.a.Wf
  wfB : e.b.Wf
  compact : e.b.compactMode = e.a.compactMode
  flagA : CfgFlag.has e.a.flags CfgFlag.stats = true
  flagB : CfgFlag.has e.b.flags CfgFlag.stats = true
  mirrors : Mirrors e.a.stats e.b.stats e.extraA e.extraB

theorem Balanced.symm {a b : Ctx} {x x' : ℕ} (h : Balanced ⟨a, b, x, x'⟩) : Balanced ⟨b, a, x', x⟩ :=
  ⟨h.wfB, h.wfA, h.compact.symm, h.flagB, h.flagA, h.mirrors.symm⟩

/-- A packet goes from the first end to the second. -/
theorem Balanced.forth {a b : Ctx} {x x' : ℕ} {t : Transfer} {r : DecompressRet} (h : Balanced ⟨a, b, x, x'⟩)
    (hsent : (t.send a).code = .ok) (hreceived : t.receive a b = .ok r) (hcode : r.code = .ok) :
    Balanced ⟨(t.send a).ctx, r.ctx, x + t.extra a, x'⟩ := by
  have hk : Kin a (t.send a).ctx := kin_compress ..
  have hk' := kin_decompress hreceived
  obtain ⟨_, hr, hwf⟩ := decompress_wf h.wfB (t.sent a) t.out t.outCap t.outSize
  rw [← Transfer.receive, hreceived, Except.ok.injEq] at hr
  refine ⟨compress_wf h.wfA .., by rw [hr]; exact hwf, ?_, ?_, ?_, ?_⟩
  · exact hk'.compactMode.trans (h.compact.trans hk.compactMode.symm)
  · simp only
    rw [hk.flags]
    exact h.flagA
  · simp only
    rw [hk'.flags]
    exact h.flagB
  · exact transfer_mirrors h.wfA h.wfB h.compact h.flagA h.flagB hsent hreceived hcode h.mirrors

theorem Balanced.turn {e e' : Ends} (h : Balanced e) (hturn : Turn e e') : Balanced e' := by
  cases hturn with
  | forth hsent hreceived hcode => exact h.forth hsent hreceived hcode
  | back hsent hreceived hcode => exact (h.symm.forth hsent hreceived hcode).symm
  | reset =>
    exact ⟨ctxReset_wf h.wfA, ctxReset_wf h.wfB, h.compact, h.flagA, h.flagB, rfl, rfl, rfl, rfl, rfl⟩

/-- **The ledgers of both ends mirror each other.** Two new contexts with the same header format exchange
packets in both directions, in any order and with any resets of both, and every packet that is sent is
accepted. Then what one end counts as compressed the other counts as decompressed, bytes in are bytes out,
and the passthroughs are the same but for the cross-packet LZ77 packets that only their sender counts. -/
theorem exchange_balances {a b : Ctx} {e : Ends} (ha : Created a) (hb : Created b) (hm : b.compactMode = a.compactMode)
    (hfa : CfgFlag.has a.flags CfgFlag.stats = true) (hfb : CfgFlag.has b.flags CfgFlag.stats = true)
    (hturns : Relation.ReflTransGen Turn ⟨a, b, 0, 0⟩ e) :
    ∃ s s', ctxStats e.a = .ok s ∧ ctxStats e.b = .ok s' ∧ Mirrors s s' e.extraA e.extraB := by
  have hstart : Balanced ⟨a, b, 0, 0⟩ := by
    refine ⟨ha.wf, hb.wf, hm, hfa, hfb, ?_⟩
    simp only [ha.stats, hb.stats]
    exact ⟨rfl, rfl, rfl, rfl, rfl⟩
  have hend : Balanced e := by
    induction hturns with
    | refl => exact hstart
    | tail _ hturn ih => exact ih.turn hturn
  exact ⟨_, _, if_pos hend.flagA, if_pos hend.flagB, hend.mirrors⟩

end Ends

/-- Without a dictionary and with the eight-byte header every packet can be sent. -/
theorem sendable_of_noDict {ctx : Ctx} (hwf : ctx.Wf) (hd : ctx.dict = none) (hm : ctx.compactMode = false)
    (src : List UInt8) (dstCap : ℕ) : Sendable ctx src dstCap := by
  refine fun p hp => ⟨fun hx2 => ?_, fun hc => absurd (hm.symm.trans hc) (by decide)⟩
  have hdict := (plan_format hwf hp).x2_dict hx2
  rw [hd] at hdict
  cases hdict

/-- A packet twice, between contexts without a dictionary. -/
theorem turn_twice {enc dec : Ctx} {t : Transfer} (hwf : enc.Wf) (hwf' : dec.Wf) (h : InStep enc dec)
    (hd : enc.dict = none) (hm : enc.compactMode = false) (hfit : t.Fits) :
    ∃ b, Relation.ReflTransGen Turn ⟨enc, dec, 0, 0⟩
      ⟨(t.send (t.send enc).ctx).ctx, b, 0 + t.extra enc + t.extra (t.send enc).ctx, 0⟩ := by
  have hkin : Kin enc (t.send enc).ctx := kin_compress ..
  obtain ⟨r, hr, hcode, -, -, hstep, hwf₁, hwf₁'⟩ := transfer_inStep hwf hwf' h hfit (sendable_of_noDict hwf hd hm _ _)
  obtain ⟨r', hr', hcode', -⟩ := transfer_inStep hwf₁ hwf₁' hstep hfit
    (sendable_of_noDict hwf₁ (hkin.dict.trans hd) ((t.send_compactMode enc).trans hm) _ _)
  exact ⟨r'.ctx, .tail (.single (.forth (hfit.sent enc).code hr hcode)) (.forth (hfit.sent _).code hr' hcode')⟩

/-- The second time the packet leaves by cross-packet LZ77: the sender counts it as a passthrough, the receiver does
not. -/
theorem exchange_balances_ramp : ∃ (e : Ends) (s s' : Stats), e.a.stats.packetsCompressed = 2 ∧
    e.extraA = 1 ∧ e.extraB = 0 ∧ ctxStats e.a = .ok s ∧ ctxStats e.b = .ok s' ∧ Mirrors s s' e.extraA e.extraB := by
  have hcreated : Created (newCtx none (CfgFlag.stateful ||| CfgFlag.stats)) := newCtx_created (by simp) (by decide)
  have hfit : rampTransfer.Fits := ⟨by decide, by decide, by decide⟩
  obtain ⟨b, hturns⟩ := turn_twice hcreated.wf hcreated.wf ⟨Agree.refl _, rfl⟩ rfl (by decide) hfit
  obtain ⟨s, s', hs, hs', hmirror⟩ := exchange_balances hcreated hcreated rfl (by decide) (by decide) hturns
  refine ⟨_, s, s', ?_, ?_, rfl, hs, hs', hmirror⟩
  · dsimp only
    decide +kernel
  · dsimp only
    decide +kernel

end Netc
