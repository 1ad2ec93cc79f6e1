/-
# The buffers of a context

A context owns four buffers: the arena, the ring and the copies of the last two packets. Their sizes are
fixed when it is created, the first two by the caller, as small as he likes. The compressor uses the arena
for residuals, for filtered packets and for the trials of both LZ77 coders, the failed ones included; and
every packet carried is copied to the others. None of these copies ends behind its buffer: along any calls,
whatever the sizes asked for and whatever the packets hold, each buffer keeps its size and what lies behind
it stays as it was (`run_confined`).

Key definitions: `Block.Confined`, `Ctx.Confined`.
Key theorems: `compressBlocks_confined`, `compress_confined`, `decompress_confined`, `run_confined`.
-/
import Netc.Capacity
import Netc.Reset
import Netc.History

namespace Netc

/-! ### Stores inside a buffer -/

/-- `b'` is `b` after stores inside it. -/
structure Block.Confined (b b' : Block) : Prop where
  size : b'.size = b.size
  behind : ∀ i, b.size ≤ i → b'.byte i = b.byte i

namespace Block.Confined

variable {b b' b'' : Block} {off : ℕ} {bs : List UInt8}

theorem refl (b : Block) : b.Confined b := ⟨rfl, fun _ _ => rfl⟩

theorem trans (h : b.Confined b') (h' : b'.Confined b'') : b.Confined b'' := by
  refine ⟨h'.size.trans h.size, fun i hi => ?_⟩
  rw [h'.behind i (by rw [h.size]; exact hi), h.behind i hi]

/-- A copy that ends in the buffer. -/
theorem write (h : b.Confined b') (hfit : off + bs.length ≤ b.size) : b.Confined (b'.write off bs) := by
  refine ⟨h.size, fun i hi => ?_⟩
  have hout : (b'.write off bs).byte i = b'.byte i := if_neg (by omega)
  rw [hout, h.behind i hi]

end Block.Confined

/-! ### The arena -/

section Arena

variable {arena : Block} {j : Job} {w : Work} {inArena : Bool}

/-- The pre-passes leave the packet or its residuals at the front of an arena that has room for them. -/
theorem prepass_confined (ctx : Ctx) (src : List UInt8) : ctx.arena.Confined (prepass ctx src).arena := by
  have hrefl := Block.Confined.refl ctx.arena
  unfold prepass
  by_cases hdelta : wantsDelta ctx src.length = true
  · have hroom : src.length ≤ ctx.arena.size := by
      simp only [wantsDelta, Bool.and_eq_true, decide_eq_true_eq] at hdelta
      exact hdelta.2
    have hfirst : ctx.arena.Confined
        ⟨ctx.arena.size, bulkEncode ctx.simdOps ctx.prevByte (fun i => src.getD i 0) ctx.arena.byte src.length⟩ := by
      rw [bulkEncode_eq]
      exact hrefl.write (by simpa using hroom)
    rw [if_pos hdelta]
    simp only
    rcases ho : order2Trial ctx src with _ | o2
    · exact hfirst
    · exact hfirst.write (by rw [length_order2Trial ho]; omega)
  · rw [if_neg hdelta]
    rcases ctx.dict with _ | d
    · exact hrefl
    · rcases ctx.getLzpTable with _ | lzp
      · exact hrefl
      · simp only
        split
        · next hroom => exact hrefl.write (by rw [length_lzpXorFilter]; omega)
        · exact hrefl

theorem lz77Compete_confined (h : arena.Confined w.arena) : arena.Confined (j.lz77Compete inArena w).1.arena := by
  unfold Job.lz77Compete
  split
  · split
    · -- the arena is the capacity that LZ77 is given
      have hlen := length_written_lz77 j.src w.arena.size
      have hwrite := h.write
        (show 0 + (written (lz77Encode j.src w.arena.size)).length ≤ arena.size by rw [← h.size]; omega)
      simp only [Job.lz77CaseA]
      split <;> exact hwrite
    · split
      · simp only
        split
        · exact h
        · rw [(Job.lz77CaseB_arena j w w.arena _).2]
          exact h
      · exact h
  · exact h

theorem lzxCompete_confined (h : arena.Confined w.arena) : arena.Confined (j.lzxCompete w).1.arena := by
  unfold Job.lzxCompete
  split
  · next hwants =>
    have hring : j.ctx.hasRing = true := by
      simp only [Job.wantsLzx, Bool.and_eq_true] at hwants
      exact hwants.1.1.1.1
    have hlen := length_written_lz77x hring j.src j.ctx.prevPktSize w.arena.size
    have hwrite := h.write (show 0 + (written (lz77xEncode j.src j.ctx.ring j.ctx.ringPos j.ctx.prevPktSize
      w.arena.size)).length ≤ arena.size by rw [← h.size]; omega)
    simp only
    split <;> exact hwrite
  · exact h

theorem tansEnd_confined (h : arena.Confined w.arena) : arena.Confined (j.tansEnd inArena w).arena := by
  have harena : (j.tans10Compete inArena w).arena = w.arena := by
    unfold Job.tans10Compete
    split
    · rcases j.tans10Trial w.info.tblIdx (followSrc inArena w.arena j.src) w.size with _ | p <;> rfl
    · rfl
  rw [Job.tansEnd, harena]
  exact h

theorem lzxThenEnd_confined (h : arena.Confined w.arena) : arena.Confined (j.lzxThenEnd inArena w).arena := by
  have hlzx := @lzxCompete_confined arena j w h
  unfold Job.lzxThenEnd
  rcases hx : j.lzxCompete w with ⟨w₁, _ | e⟩
  · rw [hx] at hlzx
    exact tansEnd_confined hlzx
  · rw [hx] at hlzx
    exact hlzx

theorem competition_confined (h : arena.Confined w.arena) : arena.Confined (j.competition inArena w).arena := by
  have hlz : arena.Confined (j.lz77Compete inArena (j.lzpTrial w)).1.arena := by
    apply lz77Compete_confined
    rw [(Job.lzpTrial_arena j w w.arena).2]
    exact h
  unfold Job.competition
  rcases hx : j.lz77Compete inArena (j.lzpTrial w) with ⟨w₁, _ | e⟩
  · rw [hx] at hlz
    exact lzxThenEnd_confined hlz
  · rw [hx] at hlz
    exact hlz

theorem tansBlock_confined {p : Prep} (h : arena.Confined p.arena) (dst : Out) :
    arena.Confined (j.tansBlock p dst).arena := by
  unfold Job.tansBlock
  simp only
  split
  · split
    · exact competition_confined h
    · exact h
  · exact h

theorem rawFallback_confined {a : Block} (h : arena.Confined a) (dst : Out) :
    arena.Confined (j.rawFallback a dst).arena := by
  have hraw : arena.Confined (j.rawArena a) := by
    unfold Job.rawArena Job.rawLzp
    split
    · next lzp hlzp =>
      have hroom : j.src.length ≤ a.size := by
        by_contra hno
        rw [if_neg hno] at hlzp
        cases hlzp
      exact h.write (by rw [length_lzpXorFilter, ← h.size]; omega)
    · exact h
  unfold Job.rawFallback
  simp only
  split
  · split
    · exact lzxThenEnd_confined hraw
    · exact hraw
  · exact hraw

/-- **Every use of the arena ends in it.** -/
theorem compressBlocks_confined (ctx : Ctx) (src : List UInt8) (dst : Out) (dstCap : ℕ) :
    ctx.arena.Confined (compressBlocks ctx src dst dstCap).arena := by
  have hprep := prepass_confined ctx src
  have hblocks : ∀ j : Job, ctx.arena.Confined (j.tansBlocks (prepass ctx src) dst).arena := by
    intro j
    have htans := @tansBlock_confined ctx.arena j _ hprep dst
    unfold Job.tansBlocks
    simp only
    split
    · exact rawFallback_confined htans _
    · exact htans
  unfold compressBlocks
  simp only
  -- either exit keeps the arena of the tANS blocks, which is the prepass's where there is no dictionary
  cases ctx.dict with
  | none => exact hprep
  | some d =>
    by_cases hsrc : 0 < src.length
    · simp only [if_pos hsrc]
      split <;> exact hblocks _
    · simp only [if_neg hsrc]
      exact hprep

end Arena

/-! ### The history -/

/-- The buffers of `ctx'` are those of `ctx` after stores inside them. -/
structure Ctx.Confined (ctx ctx' : Ctx) : Prop where
  arena : ctx.arena.Confined ctx'.arena
  ring : Option.Rel Block.Confined ctx.ring ctx'.ring
  prev : Option.Rel Block.Confined ctx.prevPkt ctx'.prevPkt
  prev2 : Option.Rel Block.Confined ctx.prev2Pkt ctx'.prev2Pkt

section History

variable {ctx₀ ctx : Ctx} {data : List UInt8}

theorem rel_refl (o : Option Block) : Option.Rel Block.Confined o o := by
  rcases o with _ | b
  · exact .none
  · exact .some (.refl b)

theorem Ctx.Confined.refl (ctx : Ctx) : ctx.Confined ctx := ⟨.refl _, rel_refl _, rel_refl _, rel_refl _⟩

/-- A buffer after one more store. -/
theorem rel_some {o : Option Block} {b b' : Block} (h : Option.Rel Block.Confined o (some b))
    (hstore : ∀ b₀ : Block, b₀.Confined b → b₀.Confined b') : Option.Rel Block.Confined o (some b') := by
  rcases h with h | _
  exact .some (hstore _ h)

/-- What is appended to a ring is laid inside it. -/
theorem ringAppend_confined {ring b : Block} {pos : ℕ} (h : b.Confined ring)
    (hpos : pos < ring.size ∨ ring.size = 0 ∧ pos = 0) : b.Confined (ringAppend ring pos data).1 := by
  have hsize := h.size
  unfold ringAppend
  split
  · exact h
  · next h0 =>
    -- a packet longer than the ring is cut to its end
    have key : ∀ (l : List UInt8) (p : ℕ), l.length ≤ ring.size → p < ring.size → b.Confined
        (if l.length ≤ ring.size - p then ring.write p l
          else (ring.write p (l.take (ring.size - p))).write 0 (l.drop (ring.size - p))) := by
      intro l p hl hp
      split
      · exact h.write (by omega)
      · refine (h.write ?_).write ?_
        · rw [List.length_take]
          omega
        · rw [List.length_drop]
          omega
    by_cases hlong : ring.size ≤ data.length
    · simp only [if_pos hlong]
      exact key _ 0 (by rw [List.length_drop]; omega) (by omega)
    · simp only [if_neg hlong]
      exact key _ pos (by omega) (by omega)

theorem appendRing_confined (hwf : ctx.Wf) (h : ctx₀.Confined ctx) : ctx₀.Confined (ctx.appendRing data) := by
  obtain ⟨harena, hring, hprev, hprev2⟩ := h
  unfold Ctx.appendRing
  rcases hr : ctx.ring with _ | ring
  · exact ⟨harena, hring, hprev, hprev2⟩
  · rw [hr] at hring
    exact ⟨harena, rel_some hring fun _ hb => ringAppend_confined hb (hwf.ring ring hr), hprev, hprev2⟩

theorem updatePrev_confined (hwf : ctx.Wf) (hlen : data.length ≤ maxPacketSize) (h : ctx₀.Confined ctx) :
    ctx₀.Confined (ctx.updatePrev data) := by
  obtain ⟨harena, hring, hprev, hprev2⟩ := h
  unfold Ctx.updatePrev
  rcases hp : ctx.prevPkt with _ | prev
  · rw [hp] at hprev
    exact ⟨harena, hring, by rw [hp]; exact hprev, hprev2⟩
  · rw [hp] at hprev
    have hstore : Option.Rel Block.Confined ctx₀.prevPkt (some (prev.write 0 data)) :=
      rel_some hprev fun b₀ hb => hb.write (by rw [← hb.size, hwf.prev prev hp]; omega)
    rcases hp2 : ctx.prev2Pkt with _ | prev2
    · rw [hp2] at hprev2
      exact ⟨harena, hring, hstore, by simpa [hp2] using hprev2⟩
    · rw [hp2] at hprev2
      have hle := hwf.prev_le
      exact ⟨harena, hring, hstore, rel_some hprev2 fun b₀ hb =>
        hb.write (by rw [ByteMem.length_slice, ← hb.size, hwf.prev2 prev2 hp2]; omega)⟩

/-- The statistics and the model are elsewhere. -/
theorem tally_confined (h : ctx₀.Confined ctx) (f : Stats → Stats) : ctx₀.Confined (ctx.tally f) := by
  unfold Ctx.tally
  split
  · exact ⟨h.arena, h.ring, h.prev, h.prev2⟩
  · exact h

theorem learn_confined (h : ctx₀.Confined ctx) : ctx₀.Confined (ctx.learn data) := by
  obtain ⟨h1, -, h2, -, h3, -⟩ := learn_history ctx data
  have harena : (ctx.learn data).arena = ctx.arena := by
    have hself := congrArg Ctx.arena (Ctx.withArena_learn ctx ctx.arena data)
    exact hself
  exact ⟨by rw [harena]; exact h.arena, by rw [h3]; exact h.ring, by rw [h1]; exact h.prev, by rw [h2]; exact h.prev2⟩

/-- A packet is taken in. -/
theorem takenIn_confined (hwf : ctx.Wf) (hlen : data.length ≤ maxPacketSize) (h : ctx₀.Confined ctx) {arena : Block}
    (harena : ctx₀.arena.Confined arena) : ctx₀.Confined (takenIn ctx data arena) := by
  have hwf' : Ctx.Wf { ctx with contextSeq := ctx.contextSeq + 1, arena := arena } :=
    ⟨hwf.dict, hwf.prev, hwf.prev_le, hwf.prev_none, hwf.prev2, hwf.ring, hwf.tables, hwf.lzp⟩
  have h' : ctx₀.Confined { ctx with contextSeq := ctx.contextSeq + 1, arena := arena } :=
    ⟨harena, h.ring, h.prev, h.prev2⟩
  exact updatePrev_confined (hwf'.appendRing data) hlen (appendRing_confined hwf' h')

end History

/-! ### Calls -/

section Calls

variable {ctx₀ ctx ctx' : Ctx}

theorem compress_confined (hwf : ctx.Wf) (h : ctx₀.Confined ctx) (src : List UInt8) (dst : Out) (dstCap dstSize : ℕ) :
    ctx₀.Confined (compress ctx src dst dstCap dstSize).ctx := by
  have harena : ctx₀.arena.Confined (compressBlocks ctx src dst dstCap).arena :=
    h.arena.trans (compressBlocks_confined ctx src dst dstCap)
  unfold compress
  split
  · exact h
  · next hlen =>
    split
    · exact h
    · have htaken := takenIn_confined hwf (not_lt.mp hlen) h harena
      simp only
      split
      · exact learn_confined (tally_confined htaken _)
      · simp only [passthruFinish, updatePrev_appendRing]
        split
        · exact learn_confined (tally_confined htaken _)
        · exact htaken

theorem decompress_confined (hwf : ctx.Wf) (h : ctx₀.Confined ctx) {src : List UInt8} {dst : Out} {dstCap dstSize : ℕ}
    {r : DecompressRet} (hr : decompress ctx src dst dstCap dstSize = .ok r) : ctx₀.Confined r.ctx := by
  rcases decompress_taken hwf hr with ⟨-, hctx⟩ | ⟨-, hsize, hdr, hctx⟩
  · rw [hctx]
    exact h
  · rw [hctx]
    have hlen : (r.dst.read r.dstSize).length ≤ maxPacketSize := by simpa using hsize
    have htaken : ctx₀.Confined ((ctx.updatePrev (r.dst.read r.dstSize)).appendRing (r.dst.read r.dstSize)) :=
      appendRing_confined (hwf.updatePrev hlen) (updatePrev_confined hwf hlen h)
    have htally := tally_confined htaken fun s => { s with
      packetsDecompressed := (s.packetsDecompressed + 1) % 2 ^ 64
      bytesIn := (s.bytesIn + src.length) % 2 ^ 64
      bytesOut := (s.bytesOut + (r.dst.read r.dstSize).length) % 2 ^ 64
      passthroughCount :=
        if algId hdr.algorithm = Alg.passthru then (s.passthroughCount + 1) % 2 ^ 64 else s.passthroughCount }
    exact learn_confined ⟨htally.arena, htally.ring, htally.prev, htally.prev2⟩

/-- `memset` clears a buffer up to its size. -/
theorem zero_confined {b b' : Block} {n : ℕ} (h : b.Confined b') (hzero : ∀ i, b.size ≤ i → b.byte i = 0)
    (hn : n = b'.size) : b.Confined (.zero n) := ⟨hn.trans h.size, fun i hi => (hzero i hi).symm⟩

/-- Behind the buffers of a new context there is nothing of its own. -/
structure Ctx.Cleared (ctx : Ctx) : Prop where
  ring : ∀ r, ctx.ring = some r → ∀ i, r.size ≤ i → r.byte i = 0
  prev : ∀ p, ctx.prevPkt = some p → p.size = maxPacketSize ∧ ∀ i, p.size ≤ i → p.byte i = 0
  prev2 : ∀ p, ctx.prev2Pkt = some p → p.size = maxPacketSize ∧ ∀ i, p.size ≤ i → p.byte i = 0

theorem Created.cleared (h : Created ctx) : ctx.Cleared := by
  obtain ⟨pf, dict, cfg, junk, -, hcreate⟩ := h
  simp only [ctxCreate] at hcreate
  split at hcreate
  · cases hcreate
  · rw [← Option.some.inj hcreate]
    refine ⟨fun r hr => ?_, fun p hp => ?_, fun p hp => ?_⟩
    · simp only [Option.ite_none_right_eq_some, Option.some.injEq] at hr
      rw [← hr.2]
      exact fun _ _ => rfl
    · simp only [Option.ite_none_right_eq_some, Option.some.injEq] at hp
      rw [← hp.2]
      exact ⟨rfl, fun _ _ => rfl⟩
    · simp only [Option.ite_none_right_eq_some, Option.some.injEq] at hp
      rw [← hp.2]
      exact ⟨rfl, fun _ _ => rfl⟩

theorem reset_confined (hnew : ctx₀.Cleared) (h : ctx₀.Confined ctx) : ctx₀.Confined (ctxReset ctx) := by
  obtain ⟨harena, hring, hprev, hprev2⟩ := h
  have hmap : ∀ {o o' : Option Block} {f : Block → Block}, Option.Rel Block.Confined o o' →
      (∀ b b', o = some b → b.Confined b' → b.Confined (f b')) → Option.Rel Block.Confined o (o'.map f) := by
    intro o o' f hrel hf
    rcases hrel with hb | _
    · exact .some (hf _ _ rfl hb)
    · exact .none
  refine ⟨harena, hmap hring fun r r' hr hc => zero_confined hc (hnew.ring r hr) rfl,
    hmap hprev fun p p' hp hc => ?_, hmap hprev2 fun p p' hp hc => ?_⟩
  · obtain ⟨hsize, hzero⟩ := hnew.prev p hp
    exact zero_confined hc hzero (hsize.symm.trans hc.size.symm)
  · obtain ⟨hsize, hzero⟩ := hnew.prev2 p hp
    exact zero_confined hc hzero (hsize.symm.trans hc.size.symm)

theorem step_confined (hnew : ctx₀.Cleared) (hwf : ctx.Wf) (h : ctx₀.Confined ctx) {c : Call} {reply : Reply}
    (hstep : step ctx c = .ok (reply, ctx')) : ctx₀.Confined ctx' := by
  rcases c with ⟨src, dst, dstCap, dstSize⟩ | ⟨src, dst, dstCap, dstSize⟩ | _
  · simp only [step, Except.ok.injEq, Prod.mk.injEq] at hstep
    rw [← hstep.2]
    exact compress_confined hwf h src dst dstCap dstSize
  · simp only [step] at hstep
    obtain ⟨r, hr, hstep⟩ := Exc.bind_eq_ok hstep
    simp only [Exc.pure_eq, Except.ok.injEq, Prod.mk.injEq] at hstep
    rw [← hstep.2]
    exact decompress_confined hwf h hr
  · simp only [step, Except.ok.injEq, Prod.mk.injEq] at hstep
    rw [← hstep.2]
    exact reset_confined hnew h

theorem confined_of_run (hnew : ctx₀.Cleared) : ∀ (calls : List Call) {ctx ctx' : Ctx} {replies : List Reply}, ctx.Wf →
    ctx₀.Confined ctx → run ctx calls = .ok (replies, ctx') → ctx₀.Confined ctx'
  | [], _, _, _, _, h, hrun => by
    simp only [run, Except.ok.injEq, Prod.mk.injEq] at hrun
    rw [← hrun.2]
    exact h
  | c :: calls, ctx, ctx', replies, hwf, h, hrun => by
    obtain ⟨reply, ctx₁, replies₁, hstep, hrest, -⟩ := run_cons_eq_ok hrun
    exact confined_of_run hnew calls (hwf.step hstep) (step_confined hnew hwf h hstep) hrest

end Calls

/-- **No call stores behind a buffer.** For every context that `netc_ctx_create` makes, whatever sizes of
arena and ring it is asked for, and all calls on it, in any order, with packets and received bytes of any
kind and with errors: the arena, the ring and the copies of the last two packets keep their sizes, and what
lies behind each of them is what lay there at the start. -/
theorem run_confined {ctx₀ ctx : Ctx} {calls : List Call} {replies : List Reply} (hc : Created ctx₀)
    (hrun : run ctx₀ calls = .ok (replies, ctx)) : ctx₀.Confined ctx :=
  confined_of_run hc.cleared calls hc.reachable.wf (.refl ctx₀) hrun

/-- Three packets in steps of 1 to 8, but for the last byte of the third. -/
def steadyCalls : List Call :=
  [.compress [1, 2, 3, 4, 5, 6, 7, 8] .empty 64 0, .compress [2, 4, 6, 8, 10, 12, 14, 16] .empty 64 0,
    .compress [3, 6, 9, 12, 15, 18, 21, 25] .empty 64 0]

/-- An arena of eight bytes, which the residuals of the third packet fill to the last one after a trial of both
orders. -/
theorem run_confined_filled : ∃ ctx₀ ctx replies,
    ctxCreate scalarPlatform none ⟨CfgFlag.stateful ||| CfgFlag.delta ||| CfgFlag.adaptive, 3, 0, 8⟩ (fun _ => 7)
      = some ctx₀ ∧
    run ctx₀ steadyCalls = .ok (replies, ctx) ∧
    ByteMem.slice ctx.arena.byte 0 8 = [0, 0, 0, 0, 0, 0, 0, 1] ∧ ctx.arena.size = 8 ∧ ctx.arena.byte 8 = 7 := by
  have hslice : (ctxCreate scalarPlatform none ⟨CfgFlag.stateful ||| CfgFlag.delta ||| CfgFlag.adaptive, 3, 0, 8⟩
      (fun _ => 7)).map (fun ctx₀ => (run ctx₀ steadyCalls).map fun p => ByteMem.slice p.2.arena.byte 0 8)
        = some (.ok [0, 0, 0, 0, 0, 0, 0, 1]) := by decide +kernel
  obtain ⟨ctx₀, hcreate⟩ : ∃ ctx₀, ctxCreate scalarPlatform none
      ⟨CfgFlag.stateful ||| CfgFlag.delta ||| CfgFlag.adaptive, 3, 0, 8⟩ (fun _ => 7) = some ctx₀ := ⟨_, rfl⟩
  have hcreated : Created ctx₀ := ⟨_, _, _, _, by simp, hcreate⟩
  obtain ⟨replies, ctx, hrun, -⟩ := run_wf steadyCalls hcreated.wf
  have hsize : ctx₀.arena.size = 8 ∧ ctx₀.arena.byte 8 = 7 := by
    rw [← Option.some.inj hcreate]
    exact ⟨rfl, rfl⟩
  obtain ⟨hkept, hbehind⟩ := (run_confined hcreated hrun).arena
  rw [hcreate, Option.map_some, hrun, Option.some.injEq] at hslice
  exact ⟨ctx₀, ctx, replies, hcreate, hrun, Except.ok.inj hslice, hkept.trans hsize.1,
    (hbehind 8 hsize.1.le).trans hsize.2⟩

end Netc
