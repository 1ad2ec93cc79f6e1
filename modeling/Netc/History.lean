/-
# A context is what it has carried

What a context remembers is a function of the packets it has carried since its
creation or its last reset, whichever way they went: a packet that was sent
and a packet that was received leave the same behind, and a call that fails
leaves nothing if packets to be sent have the room of `netc_compress_bound` (with
less, see `step_past`). So two contexts of one make with the same past can talk to
each other, however the packets came to each of them.

The past is spelled out in `Remembers`: the last two packets, the end of all
bytes in the ring, the counts of the adaptive model modulo 2^32, its tables as
they were rebuilt at the last multiple of 128 packets, and the bytes met at
each slot of the LZP table.

Key definitions: `compressBound`, `carried`, `Ctx.absorb`, `Remembers`.
Key theorems: `step_past`, `run_carrying`, `foldl_absorb_remembers`, `run_remembers`, `same_past_delivers`.
-/
import Netc.Session
import Netc.Reset
import Netc.Ring
import Netc.LzpTrain

namespace Netc

/-! ### The past of a context -/

/-- `NETC_MAX_OVERHEAD` -/
def maxOverhead : ℕ := 8

/-- `netc_compress_bound` -/
def compressBound (srcSize : ℕ) : ℕ := (srcSize + maxOverhead) % 2 ^ 64

/-- A packet to be sent has the room that `netc_compress_bound` asks for. -/
def Call.Roomy : Call → Prop
  | .compress src _ dstCap _ => compressBound src.length ≤ dstCap
  | .decompress .. => True
  | .reset => True

/-- The past after a call, given its reply: a packet that was sent or received is the last of it, a reset
ends it. -/
def carriedBy (past : List (List UInt8)) : Call → Reply → List (List UInt8)
  | .compress src _ _ _, some r => if r.code = .ok then past ++ [src] else past
  | .decompress _ _ _ _, some r => if r.code = .ok then past ++ [r.dst.read r.dstSize] else past
  | .reset, _ => []
  | _, none => past

/-- The past after calls, given their replies. -/
def carried : List (List UInt8) → List Call → List Reply → List (List UInt8)
  | past, c :: calls, reply :: replies => carried (carriedBy past c reply) calls replies
  | past, _, _ => past

/-- The history takes a packet in and the model learns from it. -/
def Ctx.absorb (ctx : Ctx) (p : List UInt8) : Ctx := ((ctx.updatePrev p).appendRing p).learn p

section Agree

variable {enc dec ctx : Ctx}

theorem Agree.refl (ctx : Ctx) : Agree ctx ctx := ⟨rfl, rfl, rfl, rfl, rfl, rfl, rfl, rfl, rfl, rfl, rfl⟩

theorem Agree.symm (h : Agree enc dec) : Agree dec enc :=
  ⟨h.dict.symm, h.compact.symm, h.ring.symm, h.ringPos.symm, h.prevPkt.symm, h.prevPktSize.symm, h.prev2Pkt.symm,
    h.prev2PktSize.symm, h.adapt.symm, h.adaptLzp.symm, h.adaptPktCount.symm⟩

theorem Agree.trans (h : Agree enc ctx) (h' : Agree ctx dec) : Agree enc dec :=
  ⟨h'.dict.trans h.dict, h'.compact.trans h.compact, h'.ring.trans h.ring, h'.ringPos.trans h.ringPos,
    h'.prevPkt.trans h.prevPkt, h'.prevPktSize.trans h.prevPktSize, h'.prev2Pkt.trans h.prev2Pkt,
    h'.prev2PktSize.trans h.prev2PktSize, h'.adapt.trans h.adapt, h'.adaptLzp.trans h.adaptLzp,
    h'.adaptPktCount.trans h.adaptPktCount⟩

theorem Agree.absorb (h : Agree enc dec) (p : List UInt8) : Agree (enc.absorb p) (dec.absorb p) :=
  ((h.updatePrev p).appendRing p).learn p

/-- The same packets leave the same behind. -/
theorem Agree.foldl_absorb (h : Agree enc dec) (past : List (List UInt8)) :
    Agree (past.foldl Ctx.absorb enc) (past.foldl Ctx.absorb dec) := by
  induction past generalizing enc dec with
  | nil => exact h
  | cons p past ih => exact ih (h.absorb p)

/-- The arena is not part of it. -/
theorem agree_withArena (ctx : Ctx) (arena : Block) : Agree ctx (ctx.withArena arena) :=
  ⟨rfl, rfl, rfl, rfl, rfl, rfl, rfl, rfl, rfl, rfl, rfl⟩

theorem agree_tally (ctx : Ctx) (f : Stats → Stats) : Agree ctx (ctx.tally f) := by
  rw [Ctx.tally]
  split <;> exact ⟨rfl, rfl, rfl, rfl, rfl, rfl, rfl, rfl, rfl, rfl, rfl⟩

theorem agree_withSeq (ctx : Ctx) (seq : UInt8) (arena : Block) :
    Agree ctx { ctx with contextSeq := seq, arena := arena } :=
  ⟨rfl, rfl, rfl, rfl, rfl, rfl, rfl, rfl, rfl, rfl, rfl⟩

/-- A packet that was sent is taken in. -/
theorem agree_sentCtx (ctx : Ctx) (src : List UInt8) (arena : Block) (n : ℕ) (passthru : Bool) :
    Agree (ctx.absorb src) (sentCtx ctx src arena n passthru) := by
  rw [sentCtx, takenIn, ← updatePrev_appendRing, Ctx.absorb]
  refine Agree.learn ?_ src
  exact (((agree_withSeq ctx _ arena).updatePrev src).appendRing src).trans (agree_tally _ _)

/-- So is a packet that was received. -/
theorem agree_decompFinish (ctx : Ctx) (hdr : PktHeader) (n : ℕ) (data : List UInt8) :
    Agree (ctx.absorb data) (decompFinish ctx hdr n data) := by
  rw [decompFinish, Ctx.absorb]
  refine Agree.learn ?_ data
  exact (agree_tally _ _).trans (agree_withSeq _ _ _)

end Agree

/-! ### Along calls -/

section Calls

variable {ctx ctx' : Ctx}

/-- The room of `netc_compress_bound` is enough for the packet behind a header of either kind. -/
theorem hdrSz_add_le_of_bound {n dstCap : ℕ} (hn : n ≤ maxPacketSize) (hcap : compressBound n ≤ dstCap)
    (compact : Bool) : hdrSz compact n + n ≤ dstCap := by
  have hle := hdrSz_le compact n
  have h8 : headerSize = 8 := rfl
  have hmax : maxPacketSize = 65535 := rfl
  rw [compressBound, show maxOverhead = 8 from rfl, Nat.mod_eq_of_lt (by omega)] at hcap
  omega

/-- With the room of `netc_compress_bound` a packet is sent, or it is too big and nothing happens. -/
theorem compress_roomy (ctx : Ctx) {src : List UInt8} {dstCap : ℕ} (hcap : compressBound src.length ≤ dstCap)
    (dst : Out) (dstSize : ℕ) :
    ((compress ctx src dst dstCap dstSize).code ≠ .ok ∧ (compress ctx src dst dstCap dstSize).ctx = ctx) ∨
      Sent ctx src dstCap (compress ctx src dst dstCap dstSize) := by
  rcases compress_cases ctx src dst dstCap dstSize with ⟨-, code, hcode, h⟩ | ⟨hentry, -, hsmall, -⟩ | ⟨-, -, hsent⟩
  · rw [h]
    exact .inl ⟨hcode, rfl⟩
  · exact absurd (hdrSz_add_le_of_bound (not_lt.mp (not_or.mp hentry).1) hcap _) (not_le.mpr hsmall)
  · exact .inr hsent

theorem length_le_of_ok {src : List UInt8} {dst : Out} {dstCap dstSize : ℕ}
    (h : (compress ctx src dst dstCap dstSize).code = .ok) : src.length ≤ maxPacketSize := by
  by_contra hlen
  rw [compress, if_pos (not_le.mp hlen)] at h
  cases h

theorem Sent.absorbed {src : List UInt8} {dstCap : ℕ} {r : CompressRet} (h : Sent ctx src dstCap r) :
    Agree (ctx.absorb src) r.ctx := by
  obtain ⟨arena, -, hctx⟩ := h.ctx
  rw [hctx]
  exact agree_sentCtx ..

/-- A packet that `netc_decompress` accepts is the one it gives. -/
theorem decompress_taken {src : List UInt8} {dst : Out} {dstCap dstSize : ℕ} {r : DecompressRet} (hwf : ctx.Wf)
    (h : decompress ctx src dst dstCap dstSize = .ok r) : (r.code ≠ .ok ∧ r.ctx = ctx) ∨
      (r.code = .ok ∧ r.dstSize ≤ maxPacketSize ∧
        ∃ hdr, r.ctx = decompFinish ctx hdr src.length (r.dst.read r.dstSize)) := by
  rcases decompress_cases hwf src dstCap with ⟨code, hcode, hrun⟩ | ⟨hdr, payload, ws, code, hp, -, hrun⟩
  · rw [hrun, Except.ok.injEq] at h
    rw [← h]
    exact .inl ⟨hcode, rfl⟩
  · rcases hrun with ⟨hcode, hrun⟩ | ⟨-, hrun⟩
    · rw [hrun, Except.ok.injEq] at h
      rw [← h]
      exact .inl ⟨hcode, rfl⟩
    · obtain ⟨dst', -, hrun⟩ := hrun dst dstSize
      rw [hrun, Except.ok.injEq] at h
      rw [← h]
      exact .inr ⟨rfl, hp.size_le, hdr, rfl⟩

/-- **One call.** It leaves the context as it is, or takes in the packet that the past grows by, or resets
both. Only with less room than `netc_compress_bound` asks for does the history take in a packet that is not
sent. -/
theorem step_past (hwf : ctx.Wf) {c : Call} {reply : Reply} (h : step ctx c = .ok (reply, ctx'))
    (past : List (List UInt8)) :
    (ctx' = ctx ∧ carriedBy past c reply = past) ∨
    (∃ p, p.length ≤ maxPacketSize ∧ Agree (ctx.absorb p) ctx' ∧ carriedBy past c reply = past ++ [p]) ∨
    (ctx' = ctxReset ctx ∧ carriedBy past c reply = []) ∨
    (¬c.Roomy ∧ (∃ src arena, ctx' = takenIn ctx src arena) ∧ carriedBy past c reply = past) := by
  rcases c with ⟨src, dst, dstCap, dstSize⟩ | ⟨src, dst, dstCap, dstSize⟩ | _
  · simp only [step, Except.ok.injEq, Prod.mk.injEq] at h
    obtain ⟨rfl, rfl⟩ := h
    rcases compress_cases ctx src dst dstCap dstSize with ⟨-, code, hcode, hr⟩ |
      ⟨hentry, -, hsmall, hcode, -, arena, -, hctx⟩ | ⟨-, -, hsent⟩
    · rw [hr]
      exact .inl ⟨rfl, by simp only [carriedBy, if_neg hcode]⟩
    · refine .inr (.inr (.inr ⟨fun hroom => ?_, ⟨src, arena, hctx⟩, ?_⟩))
      · exact absurd (hdrSz_add_le_of_bound (not_lt.mp (not_or.mp hentry).1) hroom _) (not_le.mpr hsmall)
      · simp only [carriedBy, hcode, reduceCtorEq, if_false]
    · exact .inr (.inl ⟨src, length_le_of_ok hsent.code, hsent.absorbed, by simp only [carriedBy, if_pos hsent.code]⟩)
  · simp only [step] at h
    obtain ⟨r, hr, h⟩ := Exc.bind_eq_ok h
    simp only [Exc.pure_eq, Except.ok.injEq, Prod.mk.injEq] at h
    obtain ⟨rfl, rfl⟩ := h
    rcases decompress_taken hwf hr with ⟨hcode, hctx⟩ | ⟨hcode, hlen, hdr, hctx⟩
    · exact .inl ⟨hctx, by simp only [carriedBy, if_neg hcode]⟩
    · refine .inr (.inl ⟨r.dst.read r.dstSize, by rwa [Out.length_read], ?_, by simp only [carriedBy, if_pos hcode]⟩)
      rw [hctx]
      exact agree_decompFinish ..
  · simp only [step, Except.ok.injEq, Prod.mk.injEq] at h
    exact .inr (.inr (.inl ⟨h.2.symm, rfl⟩))

/-- What every call keeps of a context and its past is kept along calls. -/
theorem run_keeps {I : Ctx → List (List UInt8) → Prop} {P : Call → Prop}
    (hstep : ∀ (ctx ctx' : Ctx) (past : List (List UInt8)) (c : Call) (reply : Reply), I ctx past → P c →
      step ctx c = .ok (reply, ctx') → I ctx' (carriedBy past c reply)) :
    ∀ {calls : List Call} {ctx ctx' : Ctx} {past : List (List UInt8)} {replies : List Reply},
    I ctx past → (∀ c ∈ calls, P c) → run ctx calls = .ok (replies, ctx') → I ctx' (carried past calls replies)
  | [], ctx, ctx', past, replies, h, _, hrun => by
    simp only [run, Except.ok.injEq, Prod.mk.injEq] at hrun
    obtain ⟨rfl, rfl⟩ := hrun
    exact h
  | c :: calls, ctx, ctx', past, replies, h, hP, hrun => by
    obtain ⟨reply, ctx₁, replies₁, h1, h2, rfl⟩ := run_cons_eq_ok hrun
    rw [carried]
    exact run_keeps hstep (hstep ctx ctx₁ past c reply h (hP c (by simp)) h1) (fun d hd => hP d (by simp [hd])) h2

/-- What any calls on context `ctx₀` keep: a reset would make the context `ctx₀` again. -/
structure Rooted (ctx₀ ctx : Ctx) : Prop where
  wf : ctx.Wf
  lzp : ctx.LzpFromDict
  reset : ctxReset ctx = ctx₀.withArena ctx.arena

theorem Created.rooted (hc : Created ctx) : Rooted ctx ctx := by
  have hwf := hc.wf
  obtain ⟨pf, dict, cfg, junk, -, hcreate⟩ := hc
  obtain ⟨hreset, hl⟩ := ctxCreate_reset hcreate
  exact ⟨hwf, hl, hreset⟩

theorem Rooted.step {ctx₀ : Ctx} (h : Rooted ctx₀ ctx) {c : Call} {reply : Reply}
    (hstep : step ctx c = .ok (reply, ctx')) : Rooted ctx₀ ctx' := by
  refine ⟨h.wf.step hstep, (kin_step hstep).lzpFromDict h.lzp, ?_⟩
  rw [ctxReset_step h.lzp hstep, h.reset]
  rfl

/-- What a run from context `ctx₀` with room for its packets keeps: the context is `ctx₀` after its past. -/
structure Carrying (ctx₀ ctx : Ctx) (past : List (List UInt8)) : Prop extends Rooted ctx₀ ctx where
  agree : Agree (past.foldl Ctx.absorb ctx₀) ctx
  short : ∀ p ∈ past, p.length ≤ maxPacketSize

theorem Carrying.step {ctx₀ : Ctx} {past : List (List UInt8)} (h : Carrying ctx₀ ctx past) {c : Call} (hroom : c.Roomy)
    {reply : Reply} (hstep : step ctx c = .ok (reply, ctx')) : Carrying ctx₀ ctx' (carriedBy past c reply) := by
  have hrooted := h.toRooted.step hstep
  rcases step_past h.wf hstep past with ⟨rfl, hpast⟩ | ⟨p, hlen, hagree, hpast⟩ | ⟨rfl, hpast⟩ | ⟨hno, -⟩
  · rw [hpast]
    exact h
  · rw [hpast]
    refine ⟨hrooted, ?_, fun q hq => ?_⟩
    · rw [List.foldl_append]
      exact (h.agree.absorb p).trans hagree
    · rcases List.mem_append.mp hq with hq | hq
      · exact h.short q hq
      · rw [List.mem_singleton.mp hq]
        exact hlen
  · rw [hpast]
    refine ⟨hrooted, ?_, by simp⟩
    rw [h.reset]
    exact agree_withArena ctx₀ _
  · exact absurd hroom hno

/-- **Runs.** A context after calls with room is the new context after the packets it has carried. -/
theorem run_carrying {ctx₀ : Ctx} {calls : List Call} {replies : List Reply} (hc : Created ctx₀)
    (hroom : ∀ c ∈ calls, c.Roomy) (hrun : run ctx₀ calls = .ok (replies, ctx)) :
    Carrying ctx₀ ctx (carried [] calls replies) :=
  run_keeps (fun _ _ _ _ _ h hc hstep => h.step hc hstep) ⟨hc.rooted, Agree.refl ctx₀, by simp⟩ hroom hrun

end Calls

/-! ### What is remembered -/

/-- How often symbol `s` stood in bucket `b` of the packets. -/
def seen (past : List (List UInt8)) (b s : ℕ) : ℕ :=
  (positions past).countP fun p => ctxBucket p.1 = b ∧ p.2.2.toNat = s

/-- How many bytes stood in bucket `b` of the packets. -/
def seenIn (past : List (List UInt8)) (b : ℕ) : ℕ := (positions past).countP fun p => ctxBucket p.1 = b

/-- The accumulators after the packets, 32 bits wide. -/
def accumulated (past : List (List UInt8)) : Adapt :=
  ⟨fun b s => seen past b s % 2 ^ 32, fun b => seenIn past b % 2 ^ 32, fun _ => .zero⟩

/-- The packets up to the last rebuild. -/
def rebuiltFrom (past : List (List UInt8)) : List (List UInt8) := past.take (past.length / 128 * 128)

/-- The table of bucket `b` after the packets: the dictionary's, or the one of the last rebuild. -/
def tableAfter (d : Dict) (past : List (List UInt8)) (b : ℕ) : Table :=
  if past.length < 128 then d.tables b else rebuildTable d (accumulated (rebuiltFrom past)) b

/-- What context `ctx` that was made as `ctx₀` remembers of its past. -/
structure Remembers (ctx₀ ctx : Ctx) (past : List (List UInt8)) : Prop where
  prev : ∀ prev, ctx.prevPkt = some prev → ByteMem.slice prev.byte 0 ctx.prevPktSize = past.getLastD []
  prev2 : ∀ prev2, ctx.prev2Pkt = some prev2 →
    ByteMem.slice prev2.byte 0 ctx.prev2PktSize = past.dropLast.getLastD []
  ring : ∀ ring, ctx.ring = some ring → 0 < ring.size →
    ctx.ringPos < ring.size ∧ Circ.Shows ring.size ring.byte ctx.ringPos past.flatten
  counts : ∀ a, ctx.adapt = some a → a.freq = (accumulated past).freq ∧ a.total = (accumulated past).total
  tables : ∀ a d, ctx.adapt = some a → ctx.dict = some d → ∀ b < ctxCount, a.tables b = tableAfter d past b
  pktCount : ctx.adapt.isSome = true → ctx.adaptPktCount = past.length % 128
  lzp : ctx.adaptLzp = ctx₀.adaptLzp.map fun l h => (slotBytes past h).foldl lzpLearn (l h)

section Counting

variable (past : List (List UInt8)) (p : List UInt8)

theorem positions_append (l : List (List UInt8)) : positions (past ++ l) = positions past ++ positions l :=
  List.flatMap_append

theorem positions_single : positions [p] = positionsFrom 0 0 p := List.flatMap_singleton _ _

theorem slotBytes_snoc (h : ℕ) : slotBytes (past ++ [p]) h = slotBytes past h ++ slotBytes [p] h := by
  simp only [slotBytes, positions_append, List.filter_append, List.map_append]

/-- One more in a counter of 32 bits. -/
theorem update_mod {F : ℕ → ℕ} (k : ℕ) : Function.update (fun s => F s % 2 ^ 32) k ((F k % 2 ^ 32 + 1) % 2 ^ 32)
    = fun s => Function.update F k (F k + 1) s % 2 ^ 32 := by
  funext s
  by_cases hs : s = k
  · subst hs
    simp only [Function.update_self, Nat.mod_add_mod]
  · simp only [Function.update_of_ne hs]

/-- The counting loop, bucket by bucket and symbol by symbol. -/
theorem adaptCountFrom_apply : ∀ (data : List UInt8) (i : ℕ) (prev : UInt8) (F : ℕ → Freq) (T : ℕ → ℕ) (b s : ℕ),
    (adaptCountFrom i data (fun b s => F b s % 2 ^ 32, fun b => T b % 2 ^ 32)).1 b s
        = (F b s + (positionsFrom i prev data).countP fun p => ctxBucket p.1 = b ∧ p.2.2.toNat = s) % 2 ^ 32 ∧
      (adaptCountFrom i data (fun b s => F b s % 2 ^ 32, fun b => T b % 2 ^ 32)).2 b
        = (T b + (positionsFrom i prev data).countP fun p => ctxBucket p.1 = b) % 2 ^ 32
  | [], i, prev, F, T, b, s => ⟨rfl, rfl⟩
  | x :: data, i, prev, F, T, b, s => by
    have hfreq : Function.update (fun b s => F b s % 2 ^ 32) (ctxBucket i) (Function.update
        (fun s => F (ctxBucket i) s % 2 ^ 32) x.toNat ((F (ctxBucket i) x.toNat % 2 ^ 32 + 1) % 2 ^ 32))
        = fun b s => Function.update F (ctxBucket i) (Function.update (F (ctxBucket i)) x.toNat
          (F (ctxBucket i) x.toNat + 1)) b s % 2 ^ 32 := by
      rw [update_mod]
      funext b
      by_cases hb : b = ctxBucket i
      · subst hb
        simp only [Function.update_self]
      · simp only [Function.update_of_ne hb]
    obtain ⟨h1, h2⟩ := adaptCountFrom_apply data (i + 1) x (Function.update F (ctxBucket i)
      (Function.update (F (ctxBucket i)) x.toNat (F (ctxBucket i) x.toNat + 1)))
      (Function.update T (ctxBucket i) (T (ctxBucket i) + 1)) b s
    rw [adaptCountFrom]
    simp only [hfreq]
    rw [update_mod, h1, h2]
    simp only [positionsFrom, List.countP_cons]
    by_cases hb : ctxBucket i = b
    · subst hb
      simp only [Function.update_self, true_and, decide_true, if_true]
      refine ⟨?_, by congr 1; omega⟩
      by_cases hx : x.toNat = s
      · subst hx
        simp only [Function.update_self, decide_true, if_true]
        congr 1
        omega
      · simp only [Function.update_of_ne (Ne.symm hx), hx, decide_false, Bool.false_eq_true, if_false, Nat.add_zero]
    · simp only [Function.update_of_ne (Ne.symm hb), hb, false_and, decide_false, Bool.false_eq_true, if_false,
        Nat.add_zero, and_self]

theorem seen_snoc (b s : ℕ) : seen (past ++ [p]) b s
    = seen past b s + (positionsFrom 0 0 p).countP fun q => ctxBucket q.1 = b ∧ q.2.2.toNat = s := by
  rw [seen, positions_append, positions_single, List.countP_append, seen]

theorem seenIn_snoc (b : ℕ) : seenIn (past ++ [p]) b
    = seenIn past b + (positionsFrom 0 0 p).countP fun q => ctxBucket q.1 = b := by
  rw [seenIn, positions_append, positions_single, List.countP_append, seenIn]

/-- The accumulators after one more packet. -/
theorem adaptCount_snoc : adaptCountFrom 0 p ((accumulated past).freq, (accumulated past).total)
    = ((accumulated (past ++ [p])).freq, (accumulated (past ++ [p])).total) := by
  have h := adaptCountFrom_apply p 0 0 (seen past) (seenIn past)
  refine Prod.ext (funext fun b => funext fun s => ?_) (funext fun b => ?_)
  · exact (h b s).1.trans (by rw [← seen_snoc]; rfl)
  · exact (h b 0).2.trans (by rw [← seenIn_snoc]; rfl)

/-- The loop of the LZP update, slot by slot. -/
theorem lzpUpdateFrom_apply : ∀ (data : List UInt8) (pos : ℕ) (prev : UInt8) (table : LzpTable),
    lzpUpdateFrom pos prev data table = (positionsFrom pos prev data).foldl
      (fun t q => Function.update t (slotOf q) (lzpLearn (t (slotOf q)) q.2.2)) table
  | [], _, _, _ => rfl
  | b :: data, pos, prev, table => by
    rw [lzpUpdateFrom, positionsFrom, List.foldl_cons, lzpUpdateFrom_apply data]
    rfl

/-- An entry learns from the bytes of its slot alone. -/
theorem lzpUpdate_slot (table : LzpTable) (h : ℕ) :
    lzpUpdateFrom 0 0 p table h = (slotBytes [p] h).foldl lzpLearn (table h) := by
  rw [lzpUpdateFrom_apply, Vote.foldl_update_apply slotOf fun e q => lzpLearn e q.2.2, slotBytes, positions_single,
    List.foldl_map]

end Counting

/-! ### The adaptive model -/

section Model

variable {d : Dict}

/-- A rebuild reads the accumulators alone. -/
theorem rebuildTable_congr {a a' : Adapt} (hf : a.freq = a'.freq) (ht : a.total = a'.total) (b : ℕ) :
    rebuildTable d a b = rebuildTable d a' b := by
  unfold rebuildTable
  rw [hf, ht]

/-- Between two rebuilds the tables stay. -/
theorem tableAfter_snoc_of_lt {past : List (List UInt8)} (h : past.length % 128 + 1 < 128) (p : List UInt8) (b : ℕ) :
    tableAfter d (past ++ [p]) b = tableAfter d past b := by
  have hdiv : (past.length + 1) / 128 = past.length / 128 := by omega
  have hfrom : rebuiltFrom (past ++ [p]) = rebuiltFrom past := by
    rw [rebuiltFrom, List.length_append, List.length_singleton, hdiv, List.take_append_of_le_length (by omega),
      rebuiltFrom]
  rw [tableAfter, tableAfter, hfrom, List.length_append, List.length_singleton]
  by_cases hlt : past.length < 128
  · rw [if_pos hlt, if_pos (by omega)]
  · rw [if_neg hlt, if_neg (by omega)]

/-- At a multiple of 128 packets they are rebuilt from all of them. -/
theorem tableAfter_snoc_of_eq {past : List (List UInt8)} (h : past.length % 128 = 127) (p : List UInt8) (b : ℕ) :
    tableAfter d (past ++ [p]) b = rebuildTable d (accumulated (past ++ [p])) b := by
  have hfrom : rebuiltFrom (past ++ [p]) = past ++ [p] := by
    rw [rebuiltFrom, List.take_of_length_le]
    rw [List.length_append, List.length_singleton]
    omega
  rw [tableAfter, hfrom, List.length_append, List.length_singleton, if_neg (by omega)]

end Model

/-! ### One packet more -/

section Absorb

variable {ctx ctx₀ : Ctx} {past : List (List UInt8)}

theorem kin_absorb (ctx : Ctx) (p : List UInt8) : Kin ctx (ctx.absorb p) :=
  ((kin_updatePrev ctx p).trans (kin_appendRing _ p)).trans (kin_learn _ p)

/-- The model is apart from the history. -/
theorem learn_history (ctx : Ctx) (p : List UInt8) : (ctx.learn p).prevPkt = ctx.prevPkt ∧
    (ctx.learn p).prevPktSize = ctx.prevPktSize ∧ (ctx.learn p).prev2Pkt = ctx.prev2Pkt ∧
    (ctx.learn p).prev2PktSize = ctx.prev2PktSize ∧ (ctx.learn p).ring = ctx.ring ∧
    (ctx.learn p).ringPos = ctx.ringPos := by
  simp only [Ctx.learn, Ctx.adaptiveUpdate]
  rcases ctx.adapt with _ | a
  · exact ⟨rfl, rfl, rfl, rfl, rfl, rfl⟩
  · simp only
    split <;> exact ⟨rfl, rfl, rfl, rfl, rfl, rfl⟩

theorem appendRing_prev (ctx : Ctx) (p : List UInt8) : (ctx.appendRing p).prevPkt = ctx.prevPkt ∧
    (ctx.appendRing p).prevPktSize = ctx.prevPktSize ∧ (ctx.appendRing p).prev2Pkt = ctx.prev2Pkt ∧
    (ctx.appendRing p).prev2PktSize = ctx.prev2PktSize := by
  rw [Ctx.appendRing]
  rcases ctx.ring with _ | ring <;> exact ⟨rfl, rfl, rfl, rfl⟩

theorem updatePrev_ring (ctx : Ctx) (p : List UInt8) : (ctx.updatePrev p).ring = ctx.ring ∧
    (ctx.updatePrev p).ringPos = ctx.ringPos := by
  rw [Ctx.updatePrev]
  rcases ctx.prevPkt with _ | prev
  · exact ⟨rfl, rfl⟩
  · rcases ctx.prev2Pkt with _ | prev2 <;> exact ⟨rfl, rfl⟩

theorem updatePrev_model (ctx : Ctx) (p : List UInt8) : (ctx.updatePrev p).adapt = ctx.adapt ∧
    (ctx.updatePrev p).adaptLzp = ctx.adaptLzp ∧ (ctx.updatePrev p).adaptPktCount = ctx.adaptPktCount := by
  rw [Ctx.updatePrev]
  rcases ctx.prevPkt with _ | prev
  · exact ⟨rfl, rfl, rfl⟩
  · rcases ctx.prev2Pkt with _ | prev2 <;> exact ⟨rfl, rfl, rfl⟩

theorem appendRing_model (ctx : Ctx) (p : List UInt8) : (ctx.appendRing p).adapt = ctx.adapt ∧
    (ctx.appendRing p).adaptLzp = ctx.adaptLzp ∧ (ctx.appendRing p).adaptPktCount = ctx.adaptPktCount := by
  rw [Ctx.appendRing]
  rcases ctx.ring with _ | ring <;> exact ⟨rfl, rfl, rfl⟩

/-- What the model learns depends on the model alone. -/
theorem learn_congr {ctx ctx' : Ctx} (hd : ctx'.dict = ctx.dict) (ha : ctx'.adapt = ctx.adapt)
    (hl : ctx'.adaptLzp = ctx.adaptLzp) (hc : ctx'.adaptPktCount = ctx.adaptPktCount) (p : List UInt8) :
    (ctx'.learn p).adapt = (ctx.learn p).adapt ∧ (ctx'.learn p).adaptLzp = (ctx.learn p).adaptLzp ∧
      (ctx'.learn p).adaptPktCount = (ctx.learn p).adaptPktCount := by
  simp only [Ctx.learn, Ctx.adaptiveUpdate, Ctx.rebuildTables, hd, ha, hc]
  rcases ctx.adapt with _ | a
  · exact ⟨ha, by rw [hl], hc⟩
  · simp only
    split <;> exact ⟨rfl, by rw [hl], rfl⟩

/-- Neither the previous packets nor the ring are of the model. -/
theorem absorb_model (ctx : Ctx) (p : List UInt8) : (ctx.absorb p).adapt = (ctx.learn p).adapt ∧
    (ctx.absorb p).adaptLzp = (ctx.learn p).adaptLzp ∧ (ctx.absorb p).adaptPktCount = (ctx.learn p).adaptPktCount := by
  obtain ⟨h1, h2, h3⟩ := updatePrev_model ctx p
  obtain ⟨h4, h5, h6⟩ := appendRing_model (ctx.updatePrev p) p
  exact learn_congr ((kin_updatePrev ctx p).trans (kin_appendRing _ p)).dict (h4.trans h1) (h5.trans h2) (h6.trans h3) p

/-- The LZP table learns from the packet. -/
theorem absorb_adaptLzp (ctx : Ctx) (p : List UInt8) :
    (ctx.absorb p).adaptLzp = lzpAdaptiveUpdate ctx.adaptLzp p := by
  rw [(absorb_model ctx p).2.1]
  simp only [Ctx.learn, Ctx.adaptiveUpdate]
  rcases ctx.adapt with _ | a
  · rfl
  · simp only
    split <;> rfl

/-- The previous packet. -/
theorem absorb_prev (p : List UInt8) {prev : Block} (h : (ctx.absorb p).prevPkt = some prev) :
    ByteMem.slice prev.byte 0 (ctx.absorb p).prevPktSize = p := by
  obtain ⟨h1, h2, -⟩ := learn_history ((ctx.updatePrev p).appendRing p) p
  obtain ⟨h3, h4, -⟩ := appendRing_prev (ctx.updatePrev p) p
  rw [Ctx.absorb, h1, h3] at h
  rw [Ctx.absorb, h2, h4]
  rw [Ctx.updatePrev] at h ⊢
  rcases hp : ctx.prevPkt with _ | old
  · rw [hp] at h
    exact absurd (hp.symm.trans h) (by simp)
  · rw [hp] at h
    simp only [Option.some.injEq] at h ⊢
    rw [← h]
    exact ByteMem.slice_write_self _ _ _

/-- The one before it takes the place of the previous one. -/
theorem absorb_prev2 (hboth : ctx.prevPkt = none → ctx.prev2Pkt = none) (p : List UInt8) {prev2 : Block}
    (h : (ctx.absorb p).prev2Pkt = some prev2) : ∃ prev, ctx.prevPkt = some prev ∧
      ByteMem.slice prev2.byte 0 (ctx.absorb p).prev2PktSize = ByteMem.slice prev.byte 0 ctx.prevPktSize := by
  obtain ⟨-, -, h1, h2, -⟩ := learn_history ((ctx.updatePrev p).appendRing p) p
  obtain ⟨-, -, h3, h4⟩ := appendRing_prev (ctx.updatePrev p) p
  rw [Ctx.absorb, h1, h3] at h
  rw [Ctx.absorb, h2, h4]
  rw [Ctx.updatePrev] at h ⊢
  rcases hp : ctx.prevPkt with _ | prev
  · rw [hp] at h
    exact absurd ((hboth hp).symm.trans h) (by simp)
  · rw [hp] at h
    refine ⟨prev, rfl, ?_⟩
    rcases hp2 : ctx.prev2Pkt with _ | old
    · rw [hp2] at h
      exact absurd (hp2.symm.trans h) (by simp)
    · rw [hp2] at h
      simp only [Option.some.injEq] at h ⊢
      rw [← h]
      exact ByteMem.slice_write_eq _ _ (ByteMem.length_slice ..)

/-- The ring. -/
theorem absorb_ring (p : List UInt8) {ring : Block} (h : (ctx.absorb p).ring = some ring) :
    ∃ old, ctx.ring = some old ∧ ring = (ringAppend old ctx.ringPos p).1 ∧
      (ctx.absorb p).ringPos = (ringAppend old ctx.ringPos p).2 := by
  obtain ⟨-, -, -, -, h1, h2⟩ := learn_history ((ctx.updatePrev p).appendRing p) p
  obtain ⟨h3, h4⟩ := updatePrev_ring ctx p
  rw [Ctx.absorb, h1] at h
  rw [Ctx.absorb, h2]
  rw [Ctx.appendRing] at h ⊢
  rcases hr : ctx.ring with _ | old
  · rw [h3, hr] at h
    exact absurd ((h3.trans hr).symm.trans h) (by simp)
  · rw [h3, hr] at h
    simp only [Option.some.injEq, h4] at h ⊢
    exact ⟨old, rfl, h.symm, by rw [h3, hr]⟩

/-- The model: the accumulators count, and the tables stay or are rebuilt. -/
theorem learn_adapt {a : Adapt} (ha : ctx.adapt = some a) {n : ℕ} (hn : ctx.adaptPktCount = n % 128) (p : List UInt8) :
    ∃ a', (ctx.learn p).adapt = some a' ∧ (a'.freq, a'.total) = adaptCountFrom 0 p (a.freq, a.total) ∧
      (ctx.learn p).adaptPktCount = (n + 1) % 128 ∧
      ((n % 128 + 1 < 128 ∧ a'.tables = a.tables) ∨
        (n % 128 = 127 ∧ ∀ d, ctx.dict = some d → ∀ b < ctxCount, a'.tables b = rebuildTable d a' b)) := by
  have hcount : (ctx.adaptPktCount + 1) % 2 ^ 32 = n % 128 + 1 := by omega
  simp only [Ctx.learn, Ctx.adaptiveUpdate, ha, hcount]
  by_cases h : 128 ≤ n % 128 + 1
  · rw [if_pos h]
    simp only [Ctx.rebuildTables]
    rcases hd : ctx.dict with _ | d
    · exact ⟨_, rfl, rfl, by omega, .inr ⟨by omega, by simp⟩⟩
    · refine ⟨_, rfl, rfl, by omega, .inr ⟨by omega, fun d' hd' b hb => ?_⟩⟩
      obtain rfl := Option.some.inj hd'
      simp only [if_pos hb]
      apply rebuildTable_congr
      · rfl
      · rfl
  · rw [if_neg h]
    exact ⟨_, rfl, rfl, by simp only; omega, .inl ⟨by omega, rfl⟩⟩

/-- **One packet more to remember.** -/
theorem Remembers.snoc (h : Remembers ctx₀ ctx past) (hboth : ctx.prevPkt = none → ctx.prev2Pkt = none)
    (p : List UInt8) : Remembers ctx₀ (ctx.absorb p) (past ++ [p]) := by
  obtain ⟨hadapt, -, hcount⟩ := absorb_model ctx p
  have hkin := kin_absorb ctx p
  have hsome : ∀ a', (ctx.absorb p).adapt = some a' → ∃ a, ctx.adapt = some a := fun a' ha' =>
    Option.isSome_iff_exists.mp (by rw [← hkin.adapt, ha']; rfl)
  refine ⟨fun prev hp => ?_, fun prev2 hp2 => ?_, fun ring hr h0 => ?_, fun a' ha' => ?_, fun a' d ha' hd b hb => ?_,
    fun ha' => ?_, ?_⟩
  · rw [List.getLastD_concat]
    exact absorb_prev p hp
  · obtain ⟨prev, hprev, hslice⟩ := absorb_prev2 hboth p hp2
    rw [hslice, List.dropLast_concat, h.prev prev hprev]
  · obtain ⟨old, hold, rfl, hpos⟩ := absorb_ring p hr
    rw [ringAppend_size] at h0 ⊢
    obtain ⟨hlt, hshows⟩ := h.ring old hold h0
    rw [hpos, List.flatten_append, List.flatten_singleton]
    exact ringAppend_shows hlt hshows p
  · obtain ⟨a, ha⟩ := hsome a' ha'
    obtain ⟨a'', ha'', hfreq, -⟩ := learn_adapt ha (h.pktCount (by rw [ha]; rfl)) p
    rw [hadapt, ha'', Option.some.injEq] at ha'
    rw [(h.counts a ha).1, (h.counts a ha).2, adaptCount_snoc, ha'] at hfreq
    exact Prod.mk.inj hfreq
  · obtain ⟨a, ha⟩ := hsome a' ha'
    obtain ⟨a'', ha'', hfreq, -, htables⟩ := learn_adapt ha (h.pktCount (by rw [ha]; rfl)) p
    rw [hadapt, ha'', Option.some.injEq] at ha'
    rw [(h.counts a ha).1, (h.counts a ha).2, adaptCount_snoc, ha'] at hfreq
    obtain ⟨hf, ht⟩ := Prod.mk.inj hfreq
    rw [hkin.dict] at hd
    rcases htables with ⟨hlt, htables⟩ | ⟨heq, htables⟩
    · rw [tableAfter_snoc_of_lt hlt, ← ha', htables, h.tables a d ha hd b hb]
    · rw [tableAfter_snoc_of_eq heq, ← ha', htables d hd b hb, ha']
      exact rebuildTable_congr hf ht b
  · rw [hkin.adapt] at ha'
    obtain ⟨a, ha⟩ := Option.isSome_iff_exists.mp ha'
    obtain ⟨-, -, -, hn, -⟩ := learn_adapt ha (h.pktCount ha') p
    rw [hcount, hn, List.length_append, List.length_singleton]
  · rw [absorb_adaptLzp, h.lzp, lzpAdaptiveUpdate, Option.map_map]
    congr 1
    funext l k
    rw [Function.comp, lzpUpdate_slot, slotBytes_snoc, List.foldl_append]

/-- A new context has nothing to remember. -/
theorem ctxCreate_remembers {pf : Platform} {dict : Option Dict} {cfg : Cfg} {junk : ℕ → UInt8}
    (h : ctxCreate pf dict cfg junk = some ctx) :
    Remembers ctx ctx [] ∧ (ctx.prevPkt = none → ctx.prev2Pkt = none) := by
  simp only [ctxCreate] at h
  split at h
  · cases h
  · next hok =>
    obtain rfl := Option.some.inj h
    refine ⟨⟨fun _ _ => rfl, fun _ _ => rfl, fun ring _ h0 => ⟨h0, Circ.shows_nil _ _ _⟩, fun a ha => ?_,
      fun a d ha hd b hb => ?_, fun _ => rfl, ?_⟩, ?_⟩
    · simp only [Option.ite_none_right_eq_some, Option.some.injEq] at ha
      rw [← ha.2]
      exact ⟨rfl, rfl⟩
    · simp only [Option.ite_none_right_eq_some, Option.some.injEq] at ha hd
      rw [← ha.2, hd]
      rfl
    · have hid : (fun (l : LzpTable) h => (slotBytes [] h).foldl lzpLearn (l h)) = id := rfl
      rw [hid, Option.map_id_fun, id]
    · cases hs : CfgFlag.has cfg.flags CfgFlag.stateful <;> cases ha : CfgFlag.has cfg.flags CfgFlag.adaptive <;>
        simp_all

/-- **A new context after packets remembers these packets.** -/
theorem foldl_absorb_remembers {pf : Platform} {dict : Option Dict} {cfg : Cfg} {junk : ℕ → UInt8}
    (h : ctxCreate pf dict cfg junk = some ctx₀) (past : List (List UInt8)) :
    Remembers ctx₀ (past.foldl Ctx.absorb ctx₀) past := by
  obtain ⟨hstart, hboth⟩ := ctxCreate_remembers h
  have hkin : ∀ l : List (List UInt8), Kin ctx₀ (l.foldl Ctx.absorb ctx₀) := fun l => by
    induction l using List.reverseRecOn with
    | nil => exact Kin.refl ctx₀
    | append_singleton l p ih =>
      rw [List.foldl_append]
      exact ih.trans (kin_absorb _ p)
  induction past using List.reverseRecOn with
  | nil => exact hstart
  | append_singleton past p ih =>
    rw [List.foldl_append]
    refine ih.snoc (fun hn => ?_) p
    exact (isNone_of_isSome_eq (hkin past).prev2Pkt).mpr (hboth ((isNone_of_isSome_eq (hkin past).prevPkt).mp hn))

/-- What is remembered is remembered alike by contexts that agree. -/
theorem Remembers.of_agree {ctx' : Ctx} (h : Remembers ctx₀ ctx past) (hagree : Agree ctx ctx') :
    Remembers ctx₀ ctx' past := by
  obtain ⟨h1, h2, h3, h4, h5, h6, h7⟩ := h
  obtain ⟨hd, -, hr, hrp, hp, hps, hp2, hp2s, ha, hl, hc⟩ := hagree
  exact ⟨by rwa [hp, hps], by rwa [hp2, hp2s], by rwa [hr, hrp], by rwa [ha], by rwa [ha, hd], by rwa [ha, hc],
    by rwa [hl]⟩

end Absorb

/-- **A context remembers what it has carried.** After any calls on a new context, in any order, with
packets of any kind and with errors, where every packet to be sent is given the room of
`netc_compress_bound`: what the context holds is the past that its calls and their replies tell, whichever
way each packet went. -/
theorem run_remembers {ctx₀ ctx : Ctx} {calls : List Call} {replies : List Reply} (hc : Created ctx₀)
    (hroom : ∀ c ∈ calls, c.Roomy) (hrun : run ctx₀ calls = .ok (replies, ctx)) :
    Remembers ctx₀ ctx (carried [] calls replies) := by
  have hcarry := run_carrying hc hroom hrun
  obtain ⟨pf, dict, cfg, junk, -, hcreate⟩ := hc
  exact (foldl_absorb_remembers hcreate _).of_agree hcarry.agree

/-- An adaptive context over a dictionary of two packets: a packet sent, a broken one refused, one more sent. -/
theorem run_remembers_adaptive : ∃ d replies ctx a, dictTrain [[1, 2, 3], [1, 2]] 1 = .ok d ∧
    run (newCtx (some d) (CfgFlag.stateful ||| CfgFlag.adaptive))
        [.compress [1, 2, 3] .empty 64 0, .decompress [0] .empty 64 0, .compress [4, 5] .empty 64 0]
      = .ok (replies, ctx) ∧
    Remembers (newCtx (some d) (CfgFlag.stateful ||| CfgFlag.adaptive)) ctx [[1, 2, 3], [4, 5]] ∧
    ctx.adapt = some a ∧ a.total 0 = 5 ∧ a.freq 0 4 = 1 ∧ ctx.adaptPktCount = 2 := by
  obtain ⟨d, hd⟩ := @dictTrain_ok [[1, 2, 3], [1, 2]] 1 (by decide)
  have hcreated : Created (newCtx (some d) (CfgFlag.stateful ||| CfgFlag.adaptive)) :=
    newCtx_created (fun _ h => Option.some.inj h ▸ ⟨_, _, hd⟩) (by decide)
  have hroom : ∀ c ∈ [Call.compress [1, 2, 3] .empty 64 0, .decompress [0] .empty 64 0, .compress [4, 5] .empty 64 0],
      c.Roomy := by
    simp [Call.Roomy, compressBound, maxOverhead]
  have hok : ∀ ctx, (compress ctx [1, 2, 3] .empty 64 0).code = .ok ∧ (compress ctx [4, 5] .empty 64 0).code = .ok :=
    fun ctx => ⟨((@smallTransfer_fits [1, 2, 3] (by decide)).sent ctx).code,
      ((@smallTransfer_fits [4, 5] (by decide)).sent ctx).code⟩
  have hno : ∀ ctx, decompress ctx [0] .empty 64 0 = .ok ⟨.errCorrupt, .empty, 0, ctx⟩ := fun ctx => by
    rw [decompress, validateHeader]
    cases ctx.compactMode <;> rfl
  obtain ⟨replies, ctx, hrun, -⟩ := run_wf
    [.compress [1, 2, 3] .empty 64 0, .decompress [0] .empty 64 0, .compress [4, 5] .empty 64 0] hcreated.wf
  have hreplies := hrun
  simp only [run, step, hno, Exc.ok_bind, Exc.pure_eq, Except.ok.injEq, Prod.mk.injEq] at hreplies
  have hremembers := run_remembers hcreated hroom hrun
  rw [← hreplies.1] at hremembers
  simp only [carried, carriedBy, hok, if_true, List.nil_append, reduceCtorEq, if_false, List.singleton_append]
    at hremembers
  have hadapt := (kin_run hrun).adapt
  obtain ⟨a, ha⟩ := Option.isSome_iff_exists.mp (hadapt.trans rfl)
  obtain ⟨hfreq, htotal⟩ := hremembers.counts a ha
  refine ⟨d, _, _, a, hd, hrun, hremembers, ha, ?_, ?_, hremembers.pktCount (by rw [ha]; rfl)⟩
  · rw [htotal]
    rfl
  · rw [hfreq]
    rfl

/-! ### The same past -/

section SamePast

variable {enc dec : Ctx}

/-- With the eight-byte header a packet arrives at every context that agrees with the sender's. -/
theorem transfer_agree {t : Transfer} (hwf : enc.Wf) (hwf' : dec.Wf) (h : Agree enc dec) (hm : enc.compactMode = false)
    (hfits : t.Fits) (hs : Sendable enc t.src t.dstCap) :
    ∃ r, t.receive enc dec = .ok r ∧ r.code = .ok ∧ r.dstSize = t.src.length ∧ r.dst.read r.dstSize = t.src ∧
      Agree (t.send enc).ctx r.ctx ∧ (t.send enc).ctx.Wf ∧ r.ctx.Wf := by
  obtain ⟨dst', hrun, hread⟩ := @wire_received enc dec t.src t.dstCap t.outCap hwf hwf' h hfits.1 hfits.2.2
    (fun p hp => (hs p hp).1) (fun hc => by rw [hm] at hc; cases hc) t.out t.outSize
  rw [← hfits.sent_eq enc] at hrun
  obtain ⟨arena, -, hctx⟩ := (hfits.sent enc).ctx
  refine ⟨_, hrun, rfl, rfl, hread, ?_, compress_wf hwf .., decompFinish_wf hwf' _ _ hfits.1⟩
  rw [hctx]
  exact h.taken ..

/-- So does every packet of a session. -/
theorem arrives_of_agree : ∀ (ts : List Transfer) {enc dec : Ctx}, enc.Wf → dec.Wf → Agree enc dec →
    enc.compactMode = false → (∀ t ∈ ts, t.Fits) → Throughout Sendable enc ts → Arrives enc dec ts
  | [], _, _, _, _, _, _, _, _ => trivial
  | t :: ts, enc, dec, hwf, hwf', h, hm, hfits, hs => by
    have hfit := hfits t (by simp)
    obtain ⟨r, hr, hcode, hsize, hread, hagree, hwf₁, hwf₁'⟩ := transfer_agree hwf hwf' h hm hfit hs.1
    exact ⟨(hfit.sent enc).code, r, hr, hcode, hsize, hread, arrives_of_agree ts hwf₁ hwf₁' hagree
      ((t.send_compactMode enc).trans hm) (fun u hu => hfits u (by simp [hu])) hs.2⟩

end SamePast

/-- **The same past is enough.** Two contexts of one dictionary, ring size and adaptivity, with the
eight-byte header: if what they have carried is the same, in whatever directions, with resets, refused
packets and other peers in between, and every packet to be sent had the room of `netc_compress_bound`, then
what one sends from there on the other gives back, as long as packets of two states have an even size. -/
theorem same_past_delivers {pf pf' : Platform} {dict : Option Dict} {cfg cfg' : Cfg} {junk junk' : ℕ → UInt8}
    {enc₀ dec₀ enc dec : Ctx} {calls calls' : List Call} {replies replies' : List Reply}
    (hd : ∀ d, dict = some d → Trained d) (henc : ctxCreate pf dict cfg junk = some enc₀)
    (hdec : ctxCreate pf' dict cfg' junk' = some dec₀)
    (hs : CfgFlag.has cfg'.flags CfgFlag.stateful = CfgFlag.has cfg.flags CfgFlag.stateful)
    (hc : CfgFlag.has cfg.flags CfgFlag.compactHdr = false) (hc' : CfgFlag.has cfg'.flags CfgFlag.compactHdr = false)
    (ha : CfgFlag.has cfg'.flags CfgFlag.adaptive = CfgFlag.has cfg.flags CfgFlag.adaptive)
    (hr : cfg'.ringBufferSize = cfg.ringBufferSize) (hroom : ∀ c ∈ calls, c.Roomy) (hroom' : ∀ c ∈ calls', c.Roomy)
    (hrun : run enc₀ calls = .ok (replies, enc)) (hrun' : run dec₀ calls' = .ok (replies', dec))
    (hpast : carried [] calls replies = carried [] calls' replies') (ts : List Transfer) (hfits : ∀ t ∈ ts, t.Fits)
    (heven : ∀ pkt ∈ emitted enc ts, ∀ hdr, hdrRead pkt = .ok hdr → PktFlag.has hdr.flags PktFlag.x2 = true →
      hdr.originalSize % 2 = 0) : Arrives enc dec ts := by
  have hcarry := run_carrying ⟨pf, dict, cfg, junk, hd, henc⟩ hroom hrun
  have hcarry' := run_carrying ⟨pf', dict, cfg', junk', hd, hdec⟩ hroom' hrun'
  have hstart := (ctxCreate_inStep henc hdec hs (hc'.trans hc.symm) ha hr).toAgree
  have hm : enc.compactMode = false := by
    rw [Ctx.compactMode, (kin_run hrun).flags, ctxCreate_flags henc, hc]
  refine arrives_of_agree ts hcarry.wf hcarry'.wf ?_ hm hfits (throughout_of_even ts hcarry.wf hm hfits heven)
  rw [← hpast] at hcarry'
  exact hcarry.agree.symm.trans ((hstart.foldl_absorb _).trans hcarry'.agree)

/-- The receiver has sent another packet to somebody else and was reset before it took the same one in. -/
theorem same_past_delivers_plain : ∃ replies replies' enc dec,
    run (newCtx none CfgFlag.stateful) [.compress [1, 2, 3] .empty 64 0] = .ok (replies, enc) ∧
    run (newCtx none CfgFlag.stateful) [.compress [9] .empty 64 0, .reset, .compress [1, 2, 3] .empty 64 0]
      = .ok (replies', dec) ∧ Arrives enc dec [smallTransfer [4, 5]] := by
  have hcreate := newCtx_create none (show CfgFlag.has CfgFlag.stateful CfgFlag.stateful = true by decide)
  have hok : ∀ ctx, (compress ctx [1, 2, 3] .empty 64 0).code = .ok := fun ctx =>
    ((@smallTransfer_fits [1, 2, 3] (by decide)).sent ctx).code
  have hroom : ∀ c ∈ [Call.compress [1, 2, 3] .empty 64 0], c.Roomy := by simp [Call.Roomy, compressBound, maxOverhead]
  have hroom' : ∀ c ∈ [Call.compress [9] .empty 64 0, .reset, .compress [1, 2, 3] .empty 64 0], c.Roomy := by
    simp [Call.Roomy, compressBound, maxOverhead]
  have hfit := @smallTransfer_fits [4, 5] (by decide)
  obtain ⟨replies, enc, hrun, hwf⟩ := run_wf [.compress [1, 2, 3] .empty 64 0]
    (plain_reachable (show CfgFlag.has CfgFlag.stateful CfgFlag.stateful = true by decide)).wf
  obtain ⟨replies', dec, hrun', -⟩ := run_wf [.compress [9] .empty 64 0, .reset, .compress [1, 2, 3] .empty 64 0]
    (plain_reachable (show CfgFlag.has CfgFlag.stateful CfgFlag.stateful = true by decide)).wf
  refine ⟨replies, replies', enc, dec, hrun, hrun',
    same_past_delivers (by simp) hcreate hcreate rfl (by decide) (by decide)
    rfl rfl hroom hroom' hrun hrun' ?_ _ (by simpa using hfit) ?_⟩
  · simp only [run, step, Exc.ok_bind, Exc.pure_eq, Except.ok.injEq, Prod.mk.injEq] at hrun hrun'
    rw [← hrun.1, ← hrun'.1]
    simp only [carried, carriedBy, hok, if_true]
  · intro pkt hpkt hdr hread _
    have hm : enc.compactMode = false := by
      rw [Ctx.compactMode, (kin_run hrun).flags]
      decide
    exact emitted_even _ hwf hm (by simpa using hfit) (by simp [smallTransfer]) pkt hpkt hdr hread

end Netc
