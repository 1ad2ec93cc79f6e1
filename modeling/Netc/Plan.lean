/-
# The compressor without its buffers

`netc_compress` codes a packet in the caller's buffer and in the arena, which
its trials share. Here is what it decides, as a function of the packet and the
context alone: the bytes a packet is coded from, the payload that wins each
competition, and the packet that leaves. `compressBlocks_plan` says that the
code does just that in its buffers: whatever they held before, the payload that
stands in `dst` at an exit is the planned one.

Key definitions: `Source`, `sourceOf`, `Packet`, `Job.planTans`, `Job.planRaw`,
`planLz77`, `plan`.
Key theorems: `prepass_source`, `compressBlocks_plan`.
-/
import Netc.Compress
import Netc.TansSpec

namespace Netc

/-! ### What a packet is coded from -/

/-- The bytes at `compress_src` and the flags that go with them. -/
structure Source where
  bytes : List UInt8
  pktFlags : UInt8
  didDelta : Bool
  didLzp : Bool

/-- The residuals of order 2, if they win, else those of order 1. -/
def deltaSource (ctx : Ctx) (src : List UInt8) : Source :=
  match order2Trial ctx src with
  | some o2 => ⟨o2, PktFlag.dictId ||| PktFlag.delta ||| PktFlag.rle, true, false⟩
  | none => ⟨deltaEncode ctx.prevByte src, PktFlag.dictId ||| PktFlag.delta, true, false⟩

/-- The packet itself. -/
def plainSource (src : List UInt8) : Source := ⟨src, PktFlag.dictId, false, false⟩

/-- The packet, filtered if there is a table and room for it. -/
def lzpSource (lzp : Option LzpTable) (src : List UInt8) : Source :=
  match lzp with
  | some lzp => ⟨lzpXorFilter lzp src, PktFlag.dictId, false, true⟩
  | none => plainSource src

/-- The LZP table the compressor can use on a packet of `n` bytes. -/
def Ctx.roomyLzp (ctx : Ctx) (n : ℕ) : Option LzpTable := if n ≤ ctx.arena.size then ctx.getLzpTable else none

/-- What the pre-passes make of a packet. -/
def sourceOf (ctx : Ctx) (src : List UInt8) : Source :=
  if wantsDelta ctx src.length then deltaSource ctx src
  else if ctx.dict.isSome then lzpSource (ctx.roomyLzp src.length) src
  else plainSource src

theorem length_order2Trial {ctx : Ctx} {src o2 : List UInt8} (h : order2Trial ctx src = some o2) :
    o2.length = src.length := by
  rw [order2Trial] at h
  cases hp : ctx.prev2Pkt with
  | none => simp [hp] at h
  | some p =>
    simp only [hp] at h
    split at h
    · split at h
      · rw [← Option.some.inj h, length_deltaEncodeOrder2]
      · cases h
    · cases h

theorem length_sourceOf (ctx : Ctx) (src : List UInt8) : (sourceOf ctx src).bytes.length = src.length := by
  simp only [sourceOf, deltaSource, lzpSource, plainSource]
  split
  · split
    · next h => exact length_order2Trial h
    · simp
  · split
    · split <;> simp
    · rfl

/-! ### What leaves -/

/-- A packet before it gets its header. -/
structure Packet where
  flags : UInt8
  algorithm : UInt8
  payload : List UInt8
  passthru : Bool

/-- The exit through which a packet leaves. -/
def Packet.exit (p : Packet) : Exit := ⟨p.flags, p.algorithm, p.payload.length, p.passthru⟩

/-- A tANS payload in the competition, and how it was made. -/
structure Draft extends Choice where
  payload : List UInt8

/-- A packet in a tANS format. -/
def Draft.packet (d : Draft) : Packet := ⟨tansPktFlags d.toChoice, tansAlgorithm d.toChoice, d.payload, false⟩

/-- A packet in the LZ77 format. -/
def lz77Packet (pktFlags : UInt8) (payload : List UInt8) : Packet :=
  ⟨pktFlags ||| PktFlag.lz77 ||| PktFlag.passthru, Alg.passthru, payload, true⟩

namespace Job

variable (j : Job)

/-- `lzpTrial` -/
def planLzp (d : Draft) : Draft :=
  match j.ctx.getLzpTable with
  | none => d
  | some lzp =>
    if j.triesLzp d.didDelta d.payload.length then
      match (tryTansCompress j.dict j.tables (lzpXorFilter lzp j.src) trialBufSize j.lzpFlags j.compact).result with
      | some (p, info) => if p.length < d.payload.length then ⟨j.lzpChoice d.toChoice info, p⟩ else d
      | none => d
    else d

/-- `lz77Compete`, where `bytes` was coded. -/
def planLz77 (bytes : List UInt8) (d : Draft) : Option Packet :=
  if j.wantsLz77 d.payload.length then
    if !d.didDelta && decide (j.src.length ≤ j.ctx.arena.size) then
      (j.lz77Wins d.payload.length (lz77Encode j.src j.ctx.arena.size)).map (lz77Packet d.pktFlags)
    else if d.didDelta && decide (j.src.length ≤ 1024) && !PktFlag.has d.pktFlags PktFlag.rle then
      if diverse bytes then none
      else (j.lz77Wins d.payload.length (lz77Encode bytes j.payloadCap)).map (lz77Packet d.pktFlags)
    else none
  else none

/-- `lzxCompete` -/
def planLzx (d : Draft) : Option Packet :=
  if j.wantsLzx j.ctx.arena.size d.payload.length then
    (j.lz77Wins d.payload.length
      (lz77xEncode j.src j.ctx.ring j.ctx.ringPos j.ctx.prevPktSize j.ctx.arena.size)).map
      fun lz => ⟨PktFlag.dictId, Alg.lz77x, lz, false⟩
  else none

/-- `tans10Compete`, where `bytes` was coded. -/
def plan10 (bytes : List UInt8) (d : Draft) : Draft :=
  if j.wants10 d.toChoice then
    match j.tans10Trial d.info.tblIdx bytes d.payload.length with
    | some p => ⟨{ d.toChoice with used10 := true, info := { d.info with x2 := false } }, p⟩
    | none => d
  else d

/-- `lzxThenEnd` -/
def planLzxEnd (bytes : List UInt8) (d : Draft) : Packet := (j.planLzx d).getD (j.plan10 bytes d).packet

/-- `competition` -/
def planCompetition (bytes : List UInt8) (d : Draft) : Packet :=
  (j.planLz77 bytes (j.planLzp d)).getD (j.planLzxEnd bytes (j.planLzp d))

/-- The tANS payload of a source, if it is shorter than the packet. -/
def tansDraft (s : Source) (flags : UInt32) : Option Draft :=
  match (tryTansCompress j.dict j.tables s.bytes j.payloadRoom flags j.compact).result with
  | some (payload, info) =>
    if payload.length < j.src.length then some ⟨⟨info, false, s.pktFlags, s.didDelta, s.didLzp, flags⟩, payload⟩
    else none
  | none => none

/-- `tansBlock` -/
def planTans (s : Source) : Option Packet :=
  (j.tansDraft s (j.tansCtxFlags s.didDelta s.didLzp)).map (j.planCompetition s.bytes)

/-- What the raw fallback codes. -/
def rawSource : Source := lzpSource (j.ctx.roomyLzp j.src.length) j.src

/-- `rawFallback` -/
def planRaw : Option Packet :=
  (j.tansDraft j.rawSource (j.rawFlags j.rawSource.didLzp)).map (j.planLzxEnd j.rawSource.bytes)

/-- `tansBlocks` -/
def planTansBlocks (s : Source) : Option Packet :=
  match j.planTans s with
  | some p => some p
  | none => if s.didDelta then j.planRaw else none

end Job

/-- What is left of the source after the arena guard, for LZ77. -/
def lz77Source (ctx : Ctx) (src : List UInt8) : Source :=
  let s := sourceOf ctx src
  if s.didDelta then
    if ctx.dict.isSome && (ctx.roomyLzp src.length).isSome then
      ⟨src, s.pktFlags &&& ~~~(PktFlag.delta ||| PktFlag.rle), false, false⟩
    else s
  else ⟨src, s.pktFlags, false, s.didLzp⟩

/-- `lz77Block` -/
def planLz77 (ctx : Ctx) (src : List UInt8) (dstCap : ℕ) : Option Packet :=
  let hdr := hdrSz ctx.compactMode src.length
  if 0 < src.length ∧ hdr < dstCap then
    match lz77Encode (lz77Source ctx src).bytes (dstCap - hdr) with
    | .ok lz => some (lz77Packet (lz77Source ctx src).pktFlags lz)
    | .error _ =>
      if decide (64 ≤ src.length) && ctx.hasRing && decide (0 < ctx.prevPktSize) then
        match lz77xEncode src ctx.ring ctx.ringPos ctx.prevPktSize (dstCap - hdr) with
        | .ok lz => some ⟨PktFlag.dictId, Alg.lz77x, lz, true⟩
        | .error _ => none
      else none
  else none

/-- The tANS part of the plan, if there is a dictionary. -/
def planDict (ctx : Ctx) (src : List UInt8) (dstCap : ℕ) : Option Packet :=
  match ctx.dict with
  | some d => if 0 < src.length then Job.planTansBlocks ⟨ctx, d, src, dstCap⟩ (sourceOf ctx src) else none
  | none => none

/-- **The packet that leaves**, if it is not sent as it is. -/
def plan (ctx : Ctx) (src : List UInt8) (dstCap : ℕ) : Option Packet :=
  match planDict ctx src dstCap with
  | some p => some p
  | none => planLz77 ctx src dstCap

/-! ### The code does as planned -/

/-- The pre-passes leave the source in the arena, or nowhere. -/
structure Prepared (src : List UInt8) (arenaSize : ℕ) (p : Prep) (s : Source) : Prop where
  bytes : followSrc p.inArena p.arena src = s.bytes
  inArena : p.inArena = (s.didDelta || s.didLzp)
  pktFlags : p.pktFlags = s.pktFlags
  didDelta : p.didDelta = s.didDelta
  didLzp : p.didLzp = s.didLzp
  arena : p.arena.size = arenaSize

/-- What was copied to the front of the arena is what is found there. -/
theorem slice_arena (arena : Block) {bs : List UInt8} {n : ℕ} (h : bs.length = n) :
    ByteMem.slice (arena.write 0 bs).byte 0 n = bs := ByteMem.slice_write_eq _ _ h

theorem prepass_source (ctx : Ctx) (src : List UInt8) :
    Prepared src ctx.arena.size (prepass ctx src) (sourceOf ctx src) := by
  rw [prepass, sourceOf]
  cases wantsDelta ctx src.length with
  | true =>
    simp only [if_true, deltaSource]
    cases ho : order2Trial ctx src with
    | some o2 => exact ⟨slice_arena _ (length_order2Trial ho), rfl, rfl, rfl, rfl, rfl⟩
    | none =>
      refine ⟨?_, rfl, rfl, rfl, rfl, rfl⟩
      simp only [followSrc, if_true, bulkEncode_eq]
      exact ByteMem.slice_write_eq _ _ (by simp)
  | false =>
    simp only [Bool.false_eq_true, if_false, Ctx.roomyLzp]
    cases hd : ctx.dict with
    | none => exact ⟨rfl, rfl, rfl, rfl, rfl, rfl⟩
    | some d =>
      simp only [Option.isSome_some, if_true]
      cases hl : ctx.getLzpTable with
      | none =>
        simp only [ite_self]
        exact ⟨rfl, rfl, rfl, rfl, rfl, rfl⟩
      | some lzp =>
        simp only
        split
        · exact ⟨slice_arena _ (by simp), rfl, rfl, rfl, rfl, rfl⟩
        · exact ⟨rfl, rfl, rfl, rfl, rfl, rfl⟩

/-- The draft stands in the buffer. -/
def Stands (j : Job) (w : Work) (d : Draft) : Prop :=
  ∃ dst arena, w = ⟨d.toChoice, dst, arena, d.payload.length⟩ ∧
    ByteMem.slice dst.byte j.hdrSize d.payload.length = d.payload ∧ arena.size = j.ctx.arena.size

/-- The packet stands in the buffer of an exit taken. -/
structure Leaves (j : Job) (dst : Out) (arena : Block) (e : Option Exit) (p : Packet) : Prop where
  exit : e = some p.exit
  payload : ByteMem.slice dst.byte j.hdrSize p.payload.length = p.payload
  arena : arena.size = j.ctx.arena.size

/-- A competition went as planned: the packet leaves, or the draft still stands,
and a short packet's arena is as it was. -/
def Competes (j : Job) (w : Work) (d : Draft) (r : Work × Option Exit) (p : Option Packet) : Prop :=
  match p with
  | some p => Leaves j r.1.dst r.1.arena r.2 p
  | none => r.2 = none ∧ Stands j r.1 d ∧ (j.src.length < 64 → r.1.arena = w.arena)

namespace Job

variable {j : Job} {w : Work} {d : Draft}

theorem lzpTrial_plan (h : Stands j w d) : Stands j (j.lzpTrial w) (j.planLzp d) ∧ (j.lzpTrial w).arena = w.arena := by
  have keep := h
  obtain ⟨dst, arena, rfl, hp, ha⟩ := h
  simp only [lzpTrial, planLzp]
  cases j.ctx.getLzpTable with
  | none => exact ⟨keep, rfl⟩
  | some lzp =>
    simp only
    cases j.triesLzp d.didDelta d.payload.length with
    | false => exact ⟨keep, rfl⟩
    | true =>
      simp only [if_true]
      rcases (tryTansCompress j.dict j.tables (lzpXorFilter lzp j.src) trialBufSize j.lzpFlags j.compact).result
        with _ | ⟨p, info⟩
      · exact ⟨keep, rfl⟩
      · simp only
        by_cases hlt : p.length < d.payload.length
        · simp only [if_pos hlt]
          exact ⟨⟨_, _, rfl, ByteMem.slice_write_self _ _ _, ha⟩, trivial⟩
        · simp only [if_neg hlt]
          exact ⟨keep, trivial⟩

theorem lz77Wins_eq_some {size : ℕ} {r : Except (List UInt8) (List UInt8)} {lz : List UInt8} :
    j.lz77Wins size r = some lz ↔
      r = .ok lz ∧ lz.length < size ∧ lz.length < j.src.length ∧ j.hdrSize + lz.length ≤ j.dstCap := by
  rcases r with out | out
  · simp [lz77Wins]
  · simp only [lz77Wins, Except.ok.injEq]
    split
    · next h =>
      refine ⟨fun he => ?_, fun he => by rw [he.1]⟩
      rw [← Option.some.inj he]
      exact ⟨rfl, h⟩
    · next h => exact ⟨fun he => (by cases he), fun he => absurd (he.1 ▸ he.2) h⟩

theorem tans10Trial_eq {idx size : ℕ} {bytes p : List UInt8} (h : j.tans10Trial idx bytes size = some p) :
    ∃ t10, table10 (j.tables idx) = some t10 ∧ (tans10bitWithTable t10 bytes 136).result = some (p, ()) ∧
      p.length < size := by
  unfold tans10Trial at h
  cases ht : table10 (j.tables idx) with
  | none =>
    rw [ht] at h
    cases h
  | some t10 =>
    rw [ht] at h
    dsimp only at h
    rcases hr : (tans10bitWithTable t10 bytes 136).result with _ | ⟨q, _⟩
    · rw [hr] at h
      cases h
    · rw [hr] at h
      dsimp only at h
      split at h
      · next hlt =>
        have h := Option.some.inj h
        subst h
        exact ⟨t10, rfl, hr, hlt⟩
      · cases h

/-- The winner of an LZ77 trial in the arena is copied to the buffer. -/
theorem slice_copied (dst : Out) (arena : Block) (off : ℕ) (lz : List UInt8) :
    ByteMem.slice (dst.write off (ByteMem.slice (arena.write 0 lz).byte 0 lz.length)).byte off lz.length = lz := by
  rw [slice_arena arena rfl, Out.write_byte, ByteMem.slice_write_self]

theorem lz77CaseA_plan (h : Stands j w d) (hlong : 64 ≤ j.src.length) :
    Competes j w d (j.lz77CaseA w)
      ((j.lz77Wins d.payload.length (lz77Encode j.src j.ctx.arena.size)).map (lz77Packet d.pktFlags)) := by
  obtain ⟨dst, arena, rfl, hp, ha⟩ := h
  simp only [lz77CaseA, ha]
  cases hw : j.lz77Wins d.payload.length (lz77Encode j.src j.ctx.arena.size) with
  | some lz =>
    obtain ⟨hr, -⟩ := lz77Wins_eq_some.mp hw
    simp only [Option.map_some, hr, written]
    exact ⟨rfl, slice_copied _ _ _ _, ha⟩
  | none => exact ⟨rfl, ⟨_, _, rfl, hp, ha⟩, fun hlt => by omega⟩

theorem lz77CaseB_plan (h : Stands j w d) (hlong : 64 ≤ j.src.length) (bytes : List UInt8) :
    Competes j w d (j.lz77CaseB w bytes)
      ((j.lz77Wins d.payload.length (lz77Encode bytes j.payloadCap)).map (lz77Packet d.pktFlags)) := by
  obtain ⟨dst, arena, rfl, hp, ha⟩ := h
  simp only [lz77CaseB, hp]
  cases hw : j.lz77Wins d.payload.length (lz77Encode bytes j.payloadCap) with
  | some lz =>
    obtain ⟨hr, -⟩ := lz77Wins_eq_some.mp hw
    simp only [Option.map_some, hr, written]
    exact ⟨rfl, ByteMem.slice_write_self _ _ _, ha⟩
  -- the payload that was saved is put back
  | none => exact ⟨rfl, ⟨_, _, rfl, ByteMem.slice_write_self _ _ _, ha⟩, fun hlt => by omega⟩

theorem lz77Compete_plan (h : Stands j w d) {inArena : Bool} {bytes : List UInt8}
    (hbytes : followSrc inArena w.arena j.src = bytes) :
    Competes j w d (j.lz77Compete inArena w) (j.planLz77 bytes d) := by
  have keep : Competes j w d (w, none) none := ⟨rfl, h, fun _ => rfl⟩
  have hA := lz77CaseA_plan h
  have hB := lz77CaseB_plan h
  obtain ⟨dst, arena, rfl, hp, ha⟩ := h
  simp only at hbytes
  simp only [lz77Compete, planLz77, hbytes, ha]
  cases hwant : j.wantsLz77 d.payload.length with
  | false => exact keep
  | true =>
    have hlong : 64 ≤ j.src.length := by
      have hmin : 64 ≤ j.lz77Min := by
        rw [lz77Min]
        split <;> omega
      simp only [wantsLz77, Bool.and_eq_true, decide_eq_true_eq] at hwant
      omega
    simp only [if_true]
    cases !d.didDelta && decide (j.src.length ≤ j.ctx.arena.size) with
    | true => exact hA hlong
    | false =>
      simp only [Bool.false_eq_true, if_false]
      cases d.didDelta && decide (j.src.length ≤ 1024) && !PktFlag.has d.pktFlags PktFlag.rle with
      | false => exact keep
      | true =>
        simp only [if_true]
        cases diverse bytes with
        | true => exact keep
        | false => exact hB hlong bytes

theorem lzxCompete_plan (h : Stands j w d) : Competes j w d (j.lzxCompete w) (j.planLzx d) := by
  have keep : Competes j w d (w, none) none := ⟨rfl, h, fun _ => rfl⟩
  obtain ⟨dst, arena, rfl, hp, ha⟩ := h
  simp only [lzxCompete, planLzx, ha]
  cases hwant : j.wantsLzx j.ctx.arena.size d.payload.length with
  | false => exact keep
  | true =>
    have hlong : 64 ≤ j.src.length := by
      simp only [wantsLzx, Bool.and_eq_true, decide_eq_true_eq] at hwant
      exact hwant.1.1.2
    simp only [if_true]
    cases hw : j.lz77Wins d.payload.length
        (lz77xEncode j.src j.ctx.ring j.ctx.ringPos j.ctx.prevPktSize j.ctx.arena.size) with
    | some lz =>
      obtain ⟨hr, -⟩ := lz77Wins_eq_some.mp hw
      simp only [Option.map_some, hr, written]
      exact ⟨rfl, slice_copied _ _ _ _, ha⟩
    | none => exact ⟨rfl, ⟨_, _, rfl, hp, ha⟩, fun hlt => by omega⟩

theorem tans10Compete_plan (h : Stands j w d) (inArena : Bool) {bytes : List UInt8}
    (hbytes : j.wants10 d.toChoice = true → followSrc inArena w.arena j.src = bytes) :
    Stands j (j.tans10Compete inArena w) (j.plan10 bytes d) := by
  have keep := h
  obtain ⟨dst, arena, rfl, hp, ha⟩ := h
  simp only at hbytes
  simp only [tans10Compete, plan10]
  cases hwant : j.wants10 d.toChoice with
  | false => exact keep
  | true =>
    simp only [if_true, hbytes hwant]
    cases j.tans10Trial d.info.tblIdx bytes d.payload.length with
    | none => exact keep
    | some p => exact ⟨_, _, rfl, ByteMem.slice_write_self _ _ _, ha⟩

/-- The arena still holds what was coded, if that is where it was and the packet
is too short for LZ77 to have written there. -/
def Kept (j : Job) (inArena : Bool) (w : Work) (bytes : List UInt8) : Prop :=
  j.src.length < 64 ∨ inArena = false → followSrc inArena w.arena j.src = bytes

theorem Kept.of_arena {inArena : Bool} {w' : Work} {bytes : List UInt8} (h : Kept j inArena w bytes)
    (harena : j.src.length < 64 → w'.arena = w.arena) : Kept j inArena w' bytes := by
  intro hc
  cases inArena with
  | false => exact h hc
  | true => rw [harena (by simpa using hc), h hc]

/-- The competition from cross-packet LZ77 on. The 10-bit trial reads the arena
of short packets only. -/
theorem lzxThenEnd_plan (h : Stands j w d) {inArena : Bool} {bytes : List UInt8} (hbytes : Kept j inArena w bytes)
    (hshort : j.wants10 d.toChoice = true → inArena = true → j.src.length < 64) :
    Leaves j (j.lzxThenEnd inArena w).dst (j.lzxThenEnd inArena w).arena (j.lzxThenEnd inArena w).exit
      (j.planLzxEnd bytes d) := by
  have hx := lzxCompete_plan h
  simp only [lzxThenEnd, planLzxEnd]
  rcases hr : j.lzxCompete w with ⟨w', e⟩
  rw [hr] at hx
  cases hp : j.planLzx d with
  | some p =>
    rw [hp] at hx
    obtain ⟨he, h2, h3⟩ := hx
    simp only at he h2 h3
    subst he
    exact ⟨rfl, h2, h3⟩
  | none =>
    rw [hp] at hx
    obtain ⟨he, hs, harena⟩ := hx
    simp only at he hs harena
    subst he
    obtain ⟨dst, arena, heq, hpay, hsize⟩ := tans10Compete_plan hs inArena
      fun hwant => hbytes.of_arena harena (by
        cases inArena with
        | true => exact .inl (hshort hwant rfl)
        | false => exact .inr rfl)
    simp only [Option.getD_none, tansEnd, heq]
    exact ⟨rfl, hpay, hsize⟩

/-- The whole competition. -/
theorem competition_plan (h : Stands j w d) {inArena : Bool} {bytes : List UInt8}
    (hbytes : followSrc inArena w.arena j.src = bytes)
    (hshort : j.wants10 (j.planLzp d).toChoice = true → inArena = true → j.src.length < 64) :
    Leaves j (j.competition inArena w).dst (j.competition inArena w).arena (j.competition inArena w).exit
      (j.planCompetition bytes d) := by
  obtain ⟨h1, harena1⟩ := lzpTrial_plan h
  rw [← harena1] at hbytes
  have h2 := lz77Compete_plan h1 hbytes
  simp only [competition, planCompetition]
  rcases hr : j.lz77Compete inArena (j.lzpTrial w) with ⟨w', e⟩
  rw [hr] at h2
  cases hp : j.planLz77 bytes (j.planLzp d) with
  | some p =>
    rw [hp] at h2
    obtain ⟨he, h3, h4⟩ := h2
    simp only at he h3 h4
    subst he
    exact ⟨rfl, h3, h4⟩
  | none =>
    rw [hp] at h2
    obtain ⟨he, hs, harena⟩ := h2
    simp only at he hs harena
    subst he
    exact lzxThenEnd_plan hs (Kept.of_arena (fun _ => hbytes) harena) hshort

/-- A coded draft that a 10-bit table competes with, its source being residuals,
is a short one: single tables are not tried on longer ones. -/
theorem short_of_coded {bytes p : List UInt8} {info : TansInfo} {flags : UInt32}
    (h : Coded j.dict j.tables bytes flags j.compact p info) (hskip : CfgFlag.has flags CfgFlag.skipSr = true)
    (hmreg : info.mreg = 0) : bytes.length ≤ 8 := by
  cases h with
  | single hidx hshort h =>
    rcases hshort with hb | hb
    · have := ctxBucket_eq_zero hb
      omega
    · rw [hskip] at hb
      cases hb
  | pctx h => simp at hmreg
  | pctxBigram h => simp at hmreg

theorem tansCtxFlags_skipSr (didLzp : Bool) : CfgFlag.has (j.tansCtxFlags true didLzp) CfgFlag.skipSr = true := by
  rw [tansCtxFlags, CfgFlag.has_or]
  simp only [Bool.true_or, if_true]
  rw [show CfgFlag.has CfgFlag.skipSr CfgFlag.skipSr = true by decide, Bool.or_true]

/-- The draft of a source stands in the buffer after the attempt. -/
theorem stands_of_attempt {a : Attempt TansInfo} {payload : List UInt8} {info : TansInfo}
    (ha : a.result = some (payload, info)) (dst : Out) {arena : Block} (hsize : arena.size = j.ctx.arena.size)
    (c : Choice) : Stands j ⟨c, dst.apply j.hdrSize a, arena, payload.length⟩ ⟨c, payload⟩ := by
  refine ⟨_, _, rfl, ?_, hsize⟩
  simp only [Out.apply, ha, Out.write_byte]
  exact ByteMem.slice_write_self _ _ _

/-- A block went as planned: the packet leaves, or nothing was taken. -/
structure Realizes (j : Job) (b : Blocked) (p : Option Packet) : Prop where
  exit : b.exit = p.map Packet.exit
  payload : ∀ q, p = some q → ByteMem.slice b.dst.byte j.hdrSize q.payload.length = q.payload
  arena : b.arena.size = j.ctx.arena.size

theorem Leaves.realizes {b : Blocked} {p : Packet} (h : Leaves j b.dst b.arena b.exit p) :
    Realizes j b (some p) := ⟨h.exit, by rintro q ⟨⟩; exact h.payload, h.arena⟩

/-- The 10-bit trial after a competition over a source in the arena is one of a short packet: the
LZP trial has not won, so that the source is residuals. -/
theorem wants10_short {bytes p : List UInt8} {c : Choice} (hlen : bytes.length = j.src.length)
    (h : Coded j.dict j.tables bytes (j.tansCtxFlags c.didDelta c.didLzp) j.compact p c.info)
    (hin : (c.didDelta || c.didLzp) = true) (hwant : j.wants10 (j.planLzp ⟨c, p⟩).toChoice = true) :
    j.src.length < 64 := by
  have hc : j.wants10 c = true := by
    rw [planLzp] at hwant
    repeat' split at hwant
    all_goals first | exact hwant | simp [wants10, lzpChoice] at hwant
  simp only [wants10, Bool.and_eq_true, Bool.not_eq_true', decide_eq_true_eq] at hc
  obtain ⟨⟨⟨⟨-, hmreg⟩, hlzp⟩, -⟩, -⟩ := hc
  rw [hlzp, Bool.or_false] at hin
  rw [hin] at h
  have := short_of_coded h (tansCtxFlags_skipSr _) hmreg
  omega

theorem tansBlock_plan {p : Prep} {s : Source} (h : Prepared j.src j.ctx.arena.size p s)
    (hlen : s.bytes.length = j.src.length) (dst : Out) :
    Realizes j (j.tansBlock p dst) (j.planTans s) ∧ (j.planTans s = none → (j.tansBlock p dst).arena = p.arena) := by
  simp only [tansBlock, planTans, tansDraft, h.bytes, h.didDelta, h.didLzp, h.pktFlags]
  cases ha : (tryTansCompress j.dict j.tables s.bytes j.payloadRoom (j.tansCtxFlags s.didDelta s.didLzp)
      j.compact).result with
  | none => exact ⟨⟨rfl, by simp, h.arena⟩, fun _ => rfl⟩
  | some r =>
    obtain ⟨payload, info⟩ := r
    simp only
    by_cases hlt : payload.length < j.src.length
    · simp only [if_pos hlt, Option.map_some]
      refine ⟨Leaves.realizes (competition_plan (stands_of_attempt ha dst h.arena _) h.bytes fun hwant hin => ?_),
        by simp⟩
      rw [h.inArena] at hin
      exact wants10_short (c := ⟨info, false, s.pktFlags, s.didDelta, s.didLzp, _⟩) hlen
        (tryTansCompress_coded ha).1 hin hwant
    · simp only [if_neg hlt, Option.map_none]
      exact ⟨⟨rfl, by simp, h.arena⟩, fun _ => trivial⟩

theorem rawArena_size (arena : Block) : (j.rawArena arena).size = arena.size := by
  rw [rawArena]
  split <;> rfl

theorem rawFallback_plan {arena : Block} (hsize : arena.size = j.ctx.arena.size) (dst : Out) :
    Realizes j (j.rawFallback arena dst) j.planRaw ∧
      (j.planRaw = none → (j.rawFallback arena dst).arena = j.rawArena arena) := by
  have hlzp : j.rawLzp arena = j.ctx.roomyLzp j.src.length := by rw [rawLzp, hsize, Ctx.roomyLzp]
  have hdid : (j.rawLzp arena).isSome = j.rawSource.didLzp := by
    simp only [hlzp, rawSource, lzpSource]
    cases j.ctx.roomyLzp j.src.length <;> rfl
  have hflags : j.rawSource.pktFlags = PktFlag.dictId ∧ j.rawSource.didDelta = false := by
    simp only [rawSource, lzpSource]
    cases j.ctx.roomyLzp j.src.length <;> exact ⟨rfl, rfl⟩
  -- what is coded is the packet, or what the filter left in the arena
  have hbytes : followSrc j.rawSource.didLzp (j.rawArena arena) j.src = j.rawSource.bytes := by
    simp only [rawArena, hlzp, rawSource, lzpSource]
    cases j.ctx.roomyLzp j.src.length with
    | none => rfl
    | some lzp => exact slice_arena _ (by simp)
  have hsize' := (rawArena_size (j := j) arena).trans hsize
  simp only [rawFallback, planRaw, tansDraft, hdid, hbytes, hflags.1, hflags.2]
  cases ha : (tryTansCompress j.dict j.tables j.rawSource.bytes j.payloadRoom (j.rawFlags j.rawSource.didLzp)
      j.compact).result with
  | none => exact ⟨⟨rfl, by simp, hsize'⟩, fun _ => rfl⟩
  | some r =>
    obtain ⟨payload, info⟩ := r
    simp only
    by_cases hlt : payload.length < j.src.length
    · simp only [if_pos hlt, Option.map_some]
      refine ⟨Leaves.realizes (lzxThenEnd_plan (stands_of_attempt ha dst hsize' _) (fun _ => hbytes)
        fun hwant hin => ?_), by simp⟩
      simp [wants10, hin] at hwant
    · simp only [if_neg hlt, Option.map_none]
      exact ⟨⟨rfl, by simp, hsize'⟩, fun _ => trivial⟩

/-- **The tANS blocks go as planned.** Without an exit the arena is the pre-passes',
or the raw fallback's if that was entered. -/
theorem tansBlocks_plan {p : Prep} {s : Source} (h : Prepared j.src j.ctx.arena.size p s)
    (hlen : s.bytes.length = j.src.length) (dst : Out) :
    Realizes j (j.tansBlocks p dst) (j.planTansBlocks s) ∧ (j.planTansBlocks s = none →
      (j.tansBlocks p dst).arena = if s.didDelta then j.rawArena p.arena else p.arena) := by
  obtain ⟨hr, harena⟩ := tansBlock_plan h hlen dst
  simp only [tansBlocks, planTansBlocks, h.didDelta, hr.exit]
  cases hp : j.planTans s with
  | some q =>
    rw [hp] at hr
    simp only [Option.map_some, Option.isNone_some, Bool.false_and, Bool.false_eq_true, if_false]
    exact ⟨hr, by simp⟩
  | none =>
    rw [hp] at hr
    simp only [Option.map_none, Option.isNone_none, Bool.true_and]
    cases s.didDelta with
    | false =>
      simp only [Bool.false_eq_true, if_false]
      exact ⟨hr, fun _ => harena hp⟩
    | true =>
      simp only [if_true]
      obtain ⟨hraw, harena'⟩ := rawFallback_plan hr.arena (j.tansBlock p dst).dst
      refine ⟨hraw, fun hnone => ?_⟩
      rw [harena' hnone, harena hp]

end Job

/-- The LZ77 path goes as planned, from the source the arena guard leaves. -/
theorem lz77Block_plan (ctx : Ctx) (src : List UInt8) (dstCap : ℕ) {p : Prep}
    (hsrc : (if p.didLzp then src else followSrc p.inArena p.arena src) = (lz77Source ctx src).bytes)
    (hflags : p.pktFlags = (lz77Source ctx src).pktFlags) (dst : Out) :
    (lz77Block ctx src dstCap p dst).2 = (planLz77 ctx src dstCap).map Packet.exit ∧
      ∀ q, planLz77 ctx src dstCap = some q →
        ByteMem.slice (lz77Block ctx src dstCap p dst).1.byte (hdrSz ctx.compactMode src.length) q.payload.length
          = q.payload := by
  simp only [lz77Block, planLz77, hsrc, hflags]
  by_cases hc : 0 < src.length ∧ hdrSz ctx.compactMode src.length < dstCap
  · simp only [if_pos hc]
    cases hr : lz77Encode (lz77Source ctx src).bytes (dstCap - hdrSz ctx.compactMode src.length) with
    | ok lz =>
      refine ⟨rfl, ?_⟩
      rintro q ⟨⟩
      exact ByteMem.slice_write_self _ _ _
    | error e =>
      simp only
      cases decide (64 ≤ src.length) && ctx.hasRing && decide (0 < ctx.prevPktSize) with
      | false => exact ⟨rfl, by simp⟩
      | true =>
        simp only [if_true]
        cases lz77xEncode src ctx.ring ctx.ringPos ctx.prevPktSize (dstCap - hdrSz ctx.compactMode src.length) with
        | ok lz =>
          refine ⟨rfl, ?_⟩
          rintro q ⟨⟩
          exact ByteMem.slice_write_self _ _ _
        | error e => exact ⟨rfl, by simp⟩
  · simp only [if_neg hc]
    exact ⟨rfl, by simp⟩

theorem Ctx.roomyLzp_isSome (ctx : Ctx) (n : ℕ) :
    (ctx.roomyLzp n).isSome = (ctx.getLzpTable.isSome && decide (n ≤ ctx.arena.size)) := by
  rw [Ctx.roomyLzp]
  split
  · next h => simp [h]
  · next h => simp [h]

/-- What LZ77 codes after the tANS blocks took no exit: the residuals if they are still in the arena. -/
theorem arenaGuard_source {ctx : Ctx} {src : List UInt8} {p : Prep}
    (h : Prepared src ctx.arena.size p (sourceOf ctx src)) {arena : Block}
    (harena : (sourceOf ctx src).didDelta = true → ctx.dict.isSome = true ∧ (ctx.roomyLzp src.length).isSome = true ∨
      arena = p.arena) :
    (if (arenaGuard ctx src.length { p with arena }).didLzp then src
      else followSrc (arenaGuard ctx src.length { p with arena }).inArena
        (arenaGuard ctx src.length { p with arena }).arena src) = (lz77Source ctx src).bytes ∧
    (arenaGuard ctx src.length { p with arena }).pktFlags = (lz77Source ctx src).pktFlags := by
  have hin := h.inArena
  have hguard : (p.didDelta && ctx.dict.isSome && ctx.getLzpTable.isSome && decide (src.length ≤ ctx.arena.size))
      = ((sourceOf ctx src).didDelta && (ctx.dict.isSome && (ctx.roomyLzp src.length).isSome)) := by
    rw [h.didDelta, Ctx.roomyLzp_isSome, Bool.and_assoc, Bool.and_assoc]
  simp only [arenaGuard, lz77Source, hguard]
  cases hd : (sourceOf ctx src).didDelta with
  | false =>
    rw [hd, Bool.false_or] at hin
    simp only [Bool.false_and, Bool.false_eq_true, if_false, hin, h.didLzp, h.pktFlags]
    refine ⟨?_, trivial⟩
    split
    · rfl
    · next hl => rw [followSrc, if_neg hl]
  | true =>
    have hlzp : p.didLzp = false := by
      rw [h.didLzp]
      revert hd
      simp only [sourceOf, deltaSource, lzpSource, plainSource]
      repeat' split
      all_goals simp
    rw [hd, Bool.true_or] at hin
    simp only [Bool.true_and, if_true]
    cases hg : ctx.dict.isSome && (ctx.roomyLzp src.length).isSome with
    | true =>
      simp only [if_true, hlzp, Bool.false_eq_true, if_false, followSrc, h.pktFlags]
      exact ⟨trivial, trivial⟩
    | false =>
      simp only [Bool.false_eq_true, if_false, hlzp, h.pktFlags]
      refine ⟨?_, trivial⟩
      rcases harena hd with ⟨h1, h2⟩ | rfl
      · simp [h1, h2] at hg
      · exact h.bytes

/-- The LZ77 path goes as planned, entered with whatever the tANS blocks left in the arena. -/
theorem lz77Block_arenaGuard {ctx : Ctx} {src : List UInt8} {dstCap : ℕ} (hnone : planDict ctx src dstCap = none)
    {arena : Block} (harena : (sourceOf ctx src).didDelta = true →
      ctx.dict.isSome = true ∧ (ctx.roomyLzp src.length).isSome = true ∨ arena = (prepass ctx src).arena) (d : Out) :
    (lz77Block ctx src dstCap (arenaGuard ctx src.length { prepass ctx src with arena }) d).2
      = (plan ctx src dstCap).map Packet.exit ∧
    ∀ q, plan ctx src dstCap = some q → ByteMem.slice
      (lz77Block ctx src dstCap (arenaGuard ctx src.length { prepass ctx src with arena }) d).1.byte
      (hdrSz ctx.compactMode src.length) q.payload.length = q.payload := by
  obtain ⟨h1, h2⟩ := arenaGuard_source (prepass_source ctx src) harena
  simp only [plan, hnone]
  exact lz77Block_plan ctx src dstCap h1 h2 d

/-- The trial without the delta leaves the arena alone unless a table of LZP fits it. -/
theorem Job.rawArena_prepass (j : Job) :
    (j.ctx.roomyLzp j.src.length).isSome = true ∨
      j.rawArena (prepass j.ctx j.src).arena = (prepass j.ctx j.src).arena := by
  cases hl : (j.ctx.roomyLzp j.src.length).isSome with
  | true => exact .inl rfl
  | false =>
    have hraw : j.rawLzp (prepass j.ctx j.src).arena = none := by
      rw [Job.rawLzp, (prepass_source j.ctx j.src).arena]
      exact Option.not_isSome_iff_eq_none.mp (ne_true_of_eq_false hl)
    exact .inr (by simp only [Job.rawArena, hraw])

/-- **The compressor goes as planned.** Whatever the arena and the buffer held,
the exit and the payload at it are those of the plan. -/
theorem compressBlocks_plan (ctx : Ctx) (src : List UInt8) (dst : Out) (dstCap : ℕ) :
    (compressBlocks ctx src dst dstCap).exit = (plan ctx src dstCap).map Packet.exit ∧
    (∀ q, plan ctx src dstCap = some q → ByteMem.slice (compressBlocks ctx src dst dstCap).dst.byte
      (hdrSz ctx.compactMode src.length) q.payload.length = q.payload) ∧
    (compressBlocks ctx src dst dstCap).arena.size = ctx.arena.size := by
  have hprep := prepass_source ctx src
  have hlen := length_sourceOf ctx src
  simp only [compressBlocks]
  cases hd : ctx.dict with
  | none =>
    have hnone : planDict ctx src dstCap = none := by simp only [planDict, hd]
    obtain ⟨h1, h2⟩ := lz77Block_arenaGuard hnone (fun _ => .inr rfl) dst
    exact ⟨h1, h2, hprep.arena⟩
  | some d =>
    by_cases h0 : 0 < src.length
    · obtain ⟨hr, harena⟩ := Job.tansBlocks_plan (j := ⟨ctx, d, src, dstCap⟩) hprep hlen dst
      have hdict : planDict ctx src dstCap = Job.planTansBlocks ⟨ctx, d, src, dstCap⟩ (sourceOf ctx src) := by
        simp only [planDict, hd, if_pos h0]
      simp only [if_pos h0, hr.exit]
      cases hp : Job.planTansBlocks ⟨ctx, d, src, dstCap⟩ (sourceOf ctx src) with
      | some q =>
        rw [hp] at hdict
        simp only [Option.map_some, plan, hdict]
        exact ⟨trivial, fun q' hq' => hr.payload q' (hp.trans hq'), hr.arena⟩
      | none =>
        rw [hp] at hdict
        have hleft : (sourceOf ctx src).didDelta = true →
            ctx.dict.isSome = true ∧ (ctx.roomyLzp src.length).isSome = true ∨
              (Job.tansBlocks ⟨ctx, d, src, dstCap⟩ (prepass ctx src) dst).arena = (prepass ctx src).arena := by
          intro hdelta
          rw [harena hp, if_pos hdelta, hd]
          exact (Job.rawArena_prepass ⟨ctx, d, src, dstCap⟩).imp_left fun hl => ⟨rfl, hl⟩
        obtain ⟨h1, h2⟩ := lz77Block_arenaGuard hdict hleft _
        exact ⟨h1, h2, hr.arena⟩
    · have hnone : planDict ctx src dstCap = none := by simp only [planDict, hd, if_neg h0]
      obtain ⟨h1, h2⟩ := lz77Block_arenaGuard hnone (fun _ => .inr rfl) dst
      simp only [if_neg h0]
      exact ⟨h1, h2, hprep.arena⟩

end Netc
