/-
# Reset

After `netc_ctx_reset` a context is as it was created, but for the bytes of its
arena (`ctxReset_run`). They do not matter: what `netc_compress` reads in the arena
it wrote there in the same call, on every path (`compress_arena`), and
`netc_decompress` does not use it (`decompress_arena`). So a context that was
reset and a new one give the same replies to the same calls (`reset_replies`).

Key definitions: `ArenaLike`, `Ctx.withArena`.
Key theorems: `compress_arena`, `decompress_arena`, `run_arena`, `ctxReset_run`, `reset_replies`.
-/
import Netc.CompressSpec

namespace Netc

/-! ### Arenas -/

/-- Arenas of one size that agree on the `n` bytes a call codes, if it codes them from the arena. -/
structure ArenaLike (inArena : Bool) (n : ℕ) (a a' : Block) : Prop where
  size : a'.size = a.size
  bytes : inArena = true → ByteMem.slice a'.byte 0 n = ByteMem.slice a.byte 0 n

section Arenas

variable {inArena : Bool} {n : ℕ} {a a' : Block}

/-- What is written to both leaves them alike. -/
theorem ArenaLike.write (h : ArenaLike inArena n a a') (bs : List UInt8) :
    ArenaLike inArena n (a.write 0 bs) (a'.write 0 bs) := by
  refine ⟨h.size, fun hin => ByteMem.slice_congr fun i h0 hi => ?_⟩
  have hbyte := ByteMem.apply_eq_of_slice_eq (h.bytes hin) h0 hi
  simp only [Block.write, ByteMem.write, hbyte]

/-- A copy of the coded bytes makes them alike. -/
theorem ArenaLike.of_write (hsize : a'.size = a.size) (inArena : Bool) {bs : List UInt8} (hn : bs.length = n) :
    ArenaLike inArena n (a.write 0 bs) (a'.write 0 bs) :=
  ⟨hsize, fun _ => by rw [slice_arena a' hn, slice_arena a hn]⟩

theorem ArenaLike.followSrc {src : List UInt8} (h : ArenaLike inArena src.length a a') :
    followSrc inArena a' src = followSrc inArena a src := by
  cases inArena with
  | true => exact h.bytes rfl
  | false => rfl

theorem ArenaLike.outside (h : a'.size = a.size) : ArenaLike false n a a' := ⟨h, by simp⟩

end Arenas

/-- The context with another arena. -/
def Ctx.withArena (ctx : Ctx) (arena : Block) : Ctx := { ctx with arena := arena }

/-! ### A job's own arena

Past the pre-passes a call works on the arena it was handed, not on its context's. -/

/-- The call with another arena in its context. -/
def Job.withArena (j : Job) (arena : Block) : Job := { j with ctx := j.ctx.withArena arena }

namespace Job

variable (j : Job) (a : Block) (inArena : Bool) (w : Work)

theorem withArena_tans10Trial (tblIdx : ℕ) (bytes : List UInt8) (size : ℕ) :
    (j.withArena a).tans10Trial tblIdx bytes size = j.tans10Trial tblIdx bytes size := by
  have htables : (j.withArena a).tables = j.tables := rfl
  unfold tans10Trial
  rw [htables]

theorem withArena_tansEnd : (j.withArena a).tansEnd inArena w = j.tansEnd inArena w := by
  have hwants : (j.withArena a).wants10 w.toChoice = j.wants10 w.toChoice := rfl
  have hsrc : (j.withArena a).src = j.src := rfl
  have hhdr : (j.withArena a).hdrSize = j.hdrSize := rfl
  rw [tansEnd, tansEnd, tans10Compete, tans10Compete, hwants, withArena_tans10Trial, hsrc, hhdr]

theorem withArena_lzxThenEnd : (j.withArena a).lzxThenEnd inArena w = j.lzxThenEnd inArena w := by
  have hlzx : (j.withArena a).lzxCompete w = j.lzxCompete w := rfl
  rw [lzxThenEnd, lzxThenEnd, hlzx]
  simp only [withArena_tansEnd]

theorem withArena_competition : (j.withArena a).competition inArena w = j.competition inArena w := by
  have htrial : (j.withArena a).lzpTrial w = j.lzpTrial w := rfl
  have hlz77 : ∀ w, (j.withArena a).lz77Compete inArena w = j.lz77Compete inArena w := fun _ => rfl
  rw [competition, competition, htrial, hlz77]
  simp only [withArena_lzxThenEnd]

theorem withArena_tansBlock (p : Prep) (dst : Out) : (j.withArena a).tansBlock p dst = j.tansBlock p dst := by
  simp only [tansBlock, withArena_competition]
  rfl

theorem withArena_rawFallback (arena : Block) (dst : Out) :
    (j.withArena a).rawFallback arena dst = j.rawFallback arena dst := by
  simp only [rawFallback, withArena_lzxThenEnd]
  rfl

theorem withArena_tansBlocks (p : Prep) (dst : Out) : (j.withArena a).tansBlocks p dst = j.tansBlocks p dst := by
  simp only [tansBlocks, withArena_tansBlock, withArena_rawFallback]

end Job

/-! ### The competition -/

namespace Job

variable {j : Job} {inArena : Bool} {w : Work} {a' : Block}

/-- The LZP trial has buffers of its own. -/
theorem lzpTrial_arena (j : Job) (w : Work) (a' : Block) :
    j.lzpTrial { w with arena := a' } = { j.lzpTrial w with arena := a' } ∧ (j.lzpTrial w).arena = w.arena := by
  simp only [lzpTrial]
  rcases j.ctx.getLzpTable with _ | lzp
  · exact ⟨rfl, rfl⟩
  · simp only
    split
    · rcases (tryTansCompress j.dict j.tables (lzpXorFilter lzp j.src) trialBufSize j.lzpFlags j.compact).result
        with _ | ⟨p, info⟩
      · exact ⟨rfl, rfl⟩
      · simp only
        split <;> exact ⟨rfl, rfl⟩
    · exact ⟨rfl, rfl⟩

theorem lz77CaseA_arena (h : ArenaLike inArena j.src.length w.arena a') :
    ∃ a'', j.lz77CaseA { w with arena := a' } = ({ (j.lz77CaseA w).1 with arena := a'' }, (j.lz77CaseA w).2) ∧
      ArenaLike inArena j.src.length (j.lz77CaseA w).1.arena a'' := by
  refine ⟨a'.write 0 (written (lz77Encode j.src w.arena.size)), ?_, ?_⟩
  · simp only [lz77CaseA, h.size]
    rcases hw : j.lz77Wins w.size (lz77Encode j.src w.arena.size) with _ | lz
    · rfl
    · obtain ⟨hr, -⟩ := lz77Wins_eq_some.mp hw
      simp only [hr, written, slice_arena _ rfl]
  · simp only [lz77CaseA]
    rcases j.lz77Wins w.size (lz77Encode j.src w.arena.size) with _ | lz <;> exact h.write _

theorem lz77CaseB_arena (j : Job) (w : Work) (a' : Block) (residuals : List UInt8) :
    j.lz77CaseB { w with arena := a' } residuals
        = ({ (j.lz77CaseB w residuals).1 with arena := a' }, (j.lz77CaseB w residuals).2) ∧
      (j.lz77CaseB w residuals).1.arena = w.arena := by
  simp only [lz77CaseB]
  rcases j.lz77Wins w.size (lz77Encode residuals j.payloadCap) with _ | lz <;> exact ⟨rfl, rfl⟩

/-- LZ77 reads the residuals in the arena, and what it wrote there itself. -/
theorem lz77Compete_arena (h : ArenaLike inArena j.src.length w.arena a') :
    ∃ a'', j.lz77Compete inArena { w with arena := a' }
        = ({ (j.lz77Compete inArena w).1 with arena := a'' }, (j.lz77Compete inArena w).2) ∧
      ArenaLike inArena j.src.length (j.lz77Compete inArena w).1.arena a'' := by
  simp only [lz77Compete, h.size, h.followSrc]
  split
  · split
    · exact lz77CaseA_arena h
    · split
      · split
        · exact ⟨a', rfl, h⟩
        · obtain ⟨heq, harena⟩ := lz77CaseB_arena j w a' (followSrc inArena w.arena j.src)
          exact ⟨a', heq, by rw [harena]; exact h⟩
      · exact ⟨a', rfl, h⟩
  · exact ⟨a', rfl, h⟩

theorem lzxCompete_arena (h : ArenaLike inArena j.src.length w.arena a') :
    ∃ a'', j.lzxCompete { w with arena := a' } = ({ (j.lzxCompete w).1 with arena := a'' }, (j.lzxCompete w).2) ∧
      ArenaLike inArena j.src.length (j.lzxCompete w).1.arena a'' := by
  simp only [lzxCompete, h.size]
  split
  · rcases hw : j.lz77Wins w.size (lz77xEncode j.src j.ctx.ring j.ctx.ringPos j.ctx.prevPktSize w.arena.size)
      with _ | lz
    · exact ⟨_, rfl, h.write _⟩
    · obtain ⟨hr, -⟩ := lz77Wins_eq_some.mp hw
      simp only [hr, written, slice_arena _ rfl]
      exact ⟨_, rfl, h.write _⟩
  · exact ⟨a', rfl, h⟩

theorem tans10Compete_arena (h : ArenaLike inArena j.src.length w.arena a') :
    j.tans10Compete inArena { w with arena := a' } = { j.tans10Compete inArena w with arena := a' } ∧
      (j.tans10Compete inArena w).arena = w.arena := by
  simp only [tans10Compete, h.followSrc]
  split
  · rcases j.tans10Trial w.info.tblIdx (followSrc inArena w.arena j.src) w.size with _ | p <;> exact ⟨rfl, rfl⟩
  · exact ⟨rfl, rfl⟩

theorem tansEnd_arena (h : ArenaLike inArena j.src.length w.arena a') :
    j.tansEnd inArena { w with arena := a' } = { j.tansEnd inArena w with arena := a' } ∧
      (j.tansEnd inArena w).arena = w.arena := by
  obtain ⟨heq, harena⟩ := tans10Compete_arena h
  simp only [tansEnd, heq]
  exact ⟨rfl, harena⟩

theorem lzxThenEnd_arena (h : ArenaLike inArena j.src.length w.arena a') :
    ∃ a'', j.lzxThenEnd inArena { w with arena := a' } = { j.lzxThenEnd inArena w with arena := a'' } ∧
      ArenaLike inArena j.src.length (j.lzxThenEnd inArena w).arena a'' := by
  obtain ⟨a₁, heq, h₁⟩ := lzxCompete_arena h
  simp only [lzxThenEnd, heq]
  rcases hx : j.lzxCompete w with ⟨w₁, _ | e⟩
  · rw [hx] at h₁
    obtain ⟨heq', harena⟩ := tansEnd_arena h₁
    exact ⟨a₁, heq', by rw [harena]; exact h₁⟩
  · rw [hx] at h₁
    exact ⟨a₁, rfl, h₁⟩

theorem competition_arena (h : ArenaLike inArena j.src.length w.arena a') :
    ∃ a'', j.competition inArena { w with arena := a' } = { j.competition inArena w with arena := a'' } ∧
      ArenaLike inArena j.src.length (j.competition inArena w).arena a'' := by
  obtain ⟨htrial, harena⟩ := lzpTrial_arena j w a'
  obtain ⟨a₁, heq, h₁⟩ := @lz77Compete_arena j inArena (j.lzpTrial w) a' (by rwa [harena])
  simp only [competition, htrial, heq]
  rcases hz : j.lz77Compete inArena (j.lzpTrial w) with ⟨w₁, _ | e⟩
  · rw [hz] at h₁
    exact lzxThenEnd_arena h₁
  · rw [hz] at h₁
    exact ⟨a₁, rfl, h₁⟩

/-! ### The tANS blocks -/

theorem tansBlock_arena {p : Prep} (h : ArenaLike p.inArena j.src.length p.arena a') (dst : Out) :
    ∃ a'', j.tansBlock { p with arena := a' } dst = { j.tansBlock p dst with arena := a'' } ∧
      ArenaLike p.inArena j.src.length (j.tansBlock p dst).arena a'' := by
  simp only [tansBlock, h.followSrc]
  rcases (tryTansCompress j.dict j.tables (followSrc p.inArena p.arena j.src) j.payloadRoom
    (j.tansCtxFlags p.didDelta p.didLzp) j.compact).result with _ | ⟨payload, info⟩
  · exact ⟨a', rfl, h⟩
  · simp only
    split
    · exact @competition_arena j _ ⟨_, _, p.arena, _⟩ a' h
    · exact ⟨a', rfl, h⟩

theorem lzxThenEnd_exit (j : Job) (inArena : Bool) (w : Work) : (j.lzxThenEnd inArena w).exit ≠ none := by
  rw [lzxThenEnd]
  rcases j.lzxCompete w with ⟨w₁, _ | e⟩ <;> simp [tansEnd]

/-- The raw fallback reads the arena only if it has filtered the packet into it. -/
theorem rawFallback_arena {a : Block} (h : ArenaLike inArena j.src.length a a') (dst : Out) :
    ∃ a'', j.rawFallback a' dst = { j.rawFallback a dst with arena := a'' } ∧
      a''.size = (j.rawFallback a dst).arena.size ∧
      ((j.rawFallback a dst).exit = none → ArenaLike inArena j.src.length (j.rawFallback a dst).arena a'') := by
  have hlzp : j.rawLzp a' = j.rawLzp a := by simp only [rawLzp, h.size]
  obtain ⟨hlike, hkept⟩ : ArenaLike (j.rawLzp a).isSome j.src.length (j.rawArena a) (j.rawArena a') ∧
      ArenaLike inArena j.src.length (j.rawArena a) (j.rawArena a') := by
    simp only [rawArena, hlzp]
    rcases j.rawLzp a with _ | lzp
    · exact ⟨.outside h.size, h⟩
    · exact ⟨.of_write h.size _ (by simp), .of_write h.size _ (by simp)⟩
  simp only [rawFallback, hlzp, hlike.followSrc]
  rcases (tryTansCompress j.dict j.tables (followSrc (j.rawLzp a).isSome (j.rawArena a) j.src) j.payloadRoom
    (j.rawFlags (j.rawLzp a).isSome) j.compact).result with _ | ⟨payload, info⟩
  · exact ⟨_, rfl, hlike.size, fun _ => hkept⟩
  · simp only
    split
    · obtain ⟨a'', heq, h''⟩ := @lzxThenEnd_arena j _ ⟨_, _, j.rawArena a, _⟩ _ hlike
      exact ⟨a'', heq, h''.size, fun hnone => absurd hnone (lzxThenEnd_exit j _ _)⟩
    · exact ⟨_, rfl, hlike.size, fun _ => hkept⟩

/-- Both tANS blocks. -/
theorem tansBlocks_arena {p : Prep} (h : ArenaLike p.inArena j.src.length p.arena a') (dst : Out) :
    ∃ a'', j.tansBlocks { p with arena := a' } dst = { j.tansBlocks p dst with arena := a'' } ∧
      a''.size = (j.tansBlocks p dst).arena.size ∧
      ((j.tansBlocks p dst).exit = none → ArenaLike p.inArena j.src.length (j.tansBlocks p dst).arena a'') := by
  obtain ⟨a₁, heq, h₁⟩ := tansBlock_arena h dst
  simp only [tansBlocks, heq]
  split
  · exact rawFallback_arena h₁ _
  · exact ⟨a₁, rfl, h₁.size, fun _ => h₁⟩

end Job

/-! ### netc_compress -/

section WithArena

variable (ctx : Ctx) (a : Block) (data : List UInt8)

theorem Ctx.withArena_updatePrev : (ctx.withArena a).updatePrev data = (ctx.updatePrev data).withArena a := by
  rcases ctx with ⟨_, _, _, _, _, _ | prev, _, _ | prev2, _, _, _, _, _, _, _⟩ <;> rfl

theorem Ctx.withArena_appendRing : (ctx.withArena a).appendRing data = (ctx.appendRing data).withArena a := by
  rcases ctx with ⟨_, _, _, _ | ring, _, _, _, _, _, _, _, _, _, _, _⟩ <;> rfl

theorem Ctx.withArena_tally (f : Stats → Stats) : (ctx.withArena a).tally f = (ctx.tally f).withArena a := by
  have hf : (ctx.withArena a).flags = ctx.flags := rfl
  rw [Ctx.tally, Ctx.tally, hf]
  split <;> rfl

theorem Ctx.withArena_learn : (ctx.withArena a).learn data = (ctx.learn data).withArena a := by
  rcases ctx with ⟨dict, _, _, _, _, _, _, _, _, _, _, _, _ | adapt, _, count⟩
  · rfl
  · simp only [Ctx.withArena, Ctx.learn, Ctx.adaptiveUpdate, Ctx.rebuildTables]
    split <;> rfl

end WithArena

section Compress

variable {ctx : Ctx} {src : List UInt8} {a' : Block}

/-- The pre-passes write to the arena what is coded from it. -/
theorem prepass_arena (h : a'.size = ctx.arena.size) (src : List UInt8) :
    ∃ a'', prepass (ctx.withArena a') src = { prepass ctx src with arena := a'' } ∧
      ArenaLike (prepass ctx src).inArena src.length (prepass ctx src).arena a'' := by
  have hw : wantsDelta (ctx.withArena a') src.length = wantsDelta ctx src.length := by
    rw [wantsDelta, wantsDelta, show (ctx.withArena a').arena.size = ctx.arena.size from h]
    rfl
  have hd : (ctx.withArena a').dict = ctx.dict := rfl
  have hl : (ctx.withArena a').getLzpTable = ctx.getLzpTable := rfl
  have ho : order2Trial (ctx.withArena a') src = order2Trial ctx src := rfl
  simp only [prepass, hw, hd, hl, ho, bulkEncode_eq]
  split
  · have hlike := @ArenaLike.of_write src.length ctx.arena a' h true (deltaEncode ctx.prevByte src) (by simp)
    rcases order2Trial ctx src with _ | o2
    · exact ⟨_, rfl, hlike⟩
    · exact ⟨_, rfl, hlike.write o2⟩
  · rcases ctx.dict with _ | d
    · exact ⟨a', rfl, .outside h⟩
    · rcases ctx.getLzpTable with _ | lzp
      · exact ⟨a', rfl, .outside h⟩
      · simp only [Ctx.withArena, h]
        split
        · exact ⟨_, rfl, .of_write h _ (by simp)⟩
        · exact ⟨a', rfl, .outside h⟩

/-- LZ77 reads the arena only where the residuals are still there. -/
theorem lz77Block_arena {p : Prep} (h : ArenaLike p.inArena src.length p.arena a') (ctx : Ctx) (dstCap : ℕ)
    (dst : Out) :
    lz77Block ctx src dstCap (arenaGuard ctx src.length { p with arena := a' }) dst
      = lz77Block ctx src dstCap (arenaGuard ctx src.length p) dst := by
  have hguard : arenaGuard ctx src.length { p with arena := a' } = { arenaGuard ctx src.length p with arena := a' } ∧
      ArenaLike (arenaGuard ctx src.length p).inArena src.length (arenaGuard ctx src.length p).arena a' := by
    simp only [arenaGuard]
    split
    · exact ⟨rfl, .outside h.size⟩
    · exact ⟨rfl, h⟩
  rw [hguard.1]
  simp only [lz77Block, hguard.2.followSrc]

/-- What follows the tANS blocks. -/
def lz77Rest (ctx : Ctx) (src : List UInt8) (dstCap : ℕ) (p : Prep) (b : Blocked) : Blocked :=
  match b.exit with
  | some e => ⟨b.dst, b.arena, some e⟩
  | none =>
    let l := lz77Block ctx src dstCap (arenaGuard ctx src.length { p with arena := b.arena }) b.dst
    ⟨l.1, b.arena, l.2⟩

theorem lz77Rest_arena {p : Prep} {b : Blocked} (hsize : a'.size = b.arena.size)
    (hlike : b.exit = none → ArenaLike p.inArena src.length b.arena a') (ctx : Ctx) (dstCap : ℕ) (a₁ : Block) :
    lz77Rest ctx src dstCap { p with arena := a₁ } { b with arena := a' }
        = { lz77Rest ctx src dstCap p b with arena := a' } ∧ a'.size = (lz77Rest ctx src dstCap p b).arena.size := by
  rcases b with ⟨dst, arena, _ | e⟩
  · have h := @lz77Block_arena src a' { p with arena := arena } (hlike rfl) ctx dstCap dst
    simp only [lz77Rest] at h ⊢
    rw [h]
    exact ⟨rfl, hsize⟩
  · exact ⟨rfl, hsize⟩

/-- The blocks, with a dictionary and a packet that is not empty, and without. -/
theorem compressBlocks_eq (ctx : Ctx) (src : List UInt8) (dst : Out) (dstCap : ℕ) :
    (∀ d, ctx.dict = some d → 0 < src.length → compressBlocks ctx src dst dstCap
      = lz77Rest ctx src dstCap (prepass ctx src) (Job.tansBlocks ⟨ctx, d, src, dstCap⟩ (prepass ctx src) dst)) ∧
    (¬(ctx.dict.isSome ∧ 0 < src.length) → compressBlocks ctx src dst dstCap
      = lz77Rest ctx src dstCap (prepass ctx src) ⟨dst, (prepass ctx src).arena, none⟩) := by
  constructor
  · intro d hd h0
    simp only [compressBlocks, hd, if_pos h0]
    rfl
  · intro hno
    rcases hd : ctx.dict with _ | d
    · simp only [compressBlocks, hd]
      rfl
    · have h0 : ¬0 < src.length := fun h0 => hno ⟨by rw [hd, Option.isSome_some], h0⟩
      simp only [compressBlocks, hd, if_neg h0]
      rfl

/-- **The blocks of the compressor** write the same to the buffer and take the same exit. -/
theorem compressBlocks_arena (h : a'.size = ctx.arena.size) (src : List UInt8) (dst : Out) (dstCap : ℕ) :
    ∃ a'', compressBlocks (ctx.withArena a') src dst dstCap = { compressBlocks ctx src dst dstCap with arena := a'' } ∧
      a''.size = (compressBlocks ctx src dst dstCap).arena.size := by
  obtain ⟨a₁, hprep, h₁⟩ := prepass_arena h src
  obtain ⟨hsome, hnone⟩ := compressBlocks_eq ctx src dst dstCap
  obtain ⟨hsome', hnone'⟩ := compressBlocks_eq (ctx.withArena a') src dst dstCap
  -- nothing but the size of a context's arena is read past the pre-passes
  have hrest : ∀ p b, lz77Rest (ctx.withArena a') src dstCap p b = lz77Rest ctx src dstCap p b := by
    intro p b
    have hguard : ∀ q, arenaGuard (ctx.withArena a') src.length q = arenaGuard ctx src.length q := by
      intro q
      simp only [arenaGuard, Ctx.withArena, h]
      rfl
    simp only [lz77Rest, hguard]
    rfl
  by_cases hboth : ctx.dict.isSome ∧ 0 < src.length
  · obtain ⟨d, hd⟩ := Option.isSome_iff_exists.mp hboth.1
    obtain ⟨a₂, htans, hsize, hlike⟩ := @Job.tansBlocks_arena ⟨ctx, d, src, dstCap⟩ a₁ (prepass ctx src) h₁ dst
    have hjob : ∀ p, Job.tansBlocks ⟨ctx.withArena a', d, src, dstCap⟩ p dst
        = Job.tansBlocks ⟨ctx, d, src, dstCap⟩ p dst := fun p => Job.withArena_tansBlocks ⟨ctx, d, src, dstCap⟩ a' p dst
    rw [hsome d hd hboth.2, hsome' d hd hboth.2, hrest, hjob, hprep, htans]
    exact ⟨a₂, lz77Rest_arena hsize hlike ctx dstCap a₁⟩
  · rw [hnone hboth, hnone' hboth, hrest, hprep]
    exact ⟨a₁, @lz77Rest_arena src a₁ (prepass ctx src) ⟨dst, _, none⟩ h₁.size (fun _ => h₁) ctx dstCap a₁⟩

theorem takenIn_arena (ctx : Ctx) (src : List UInt8) (a arena a'' : Block) :
    takenIn (ctx.withArena a) src a'' = (takenIn ctx src arena).withArena a'' ∧
      (takenIn ctx src arena).arena = arena := by
  rcases ctx with ⟨_, _, _, _ | ring, _, _ | prev, _, _ | prev2, _, _, _, _, _, _, _⟩ <;> exact ⟨rfl, rfl⟩

theorem sentCtx_arena (ctx : Ctx) (src : List UInt8) (a arena a'' : Block) (n : ℕ) (passthru : Bool) :
    sentCtx (ctx.withArena a) src a'' n passthru = (sentCtx ctx src arena n passthru).withArena a'' ∧
      (sentCtx ctx src arena n passthru).arena = arena := by
  have hsent : ∀ a a'', sentCtx (ctx.withArena a) src a'' n passthru
      = (sentCtx ctx src arena n passthru).withArena a'' := by
    intro a a''
    rw [sentCtx, sentCtx, (takenIn_arena ctx src a arena a'').1, Ctx.withArena_tally, Ctx.withArena_learn]
  exact ⟨hsent a a'', congrArg Ctx.arena (hsent ctx.arena arena)⟩

theorem exitFinish_arena (ctx : Ctx) (a : Block) (src : List UInt8) (b : Blocked) (a'' : Block) (e : Exit) :
    exitFinish (ctx.withArena a) src { b with arena := a'' } e
        = { exitFinish ctx src b e with ctx := (exitFinish ctx src b e).ctx.withArena a'' } ∧
      (exitFinish ctx src b e).ctx.arena = b.arena := by
  obtain ⟨hsent, harena⟩ := sentCtx_arena ctx src a b.arena a'' (hdrSz ctx.compactMode src.length + e.size) e.passthru
  refine ⟨?_, harena⟩
  exact congrArg (CompressRet.mk .ok (b.dst.write 0 (hdrEmit (exitHeader ctx src.length e) ctx.compactMode))
    (hdrSz ctx.compactMode src.length + e.size)) hsent

theorem passthruFinish_arena (ctx : Ctx) (a : Block) (src : List UInt8) (b : Blocked) (a'' : Block)
    (dstCap dstSize : ℕ) :
    passthruFinish (ctx.withArena a) src { b with arena := a'' } dstCap dstSize
        = { passthruFinish ctx src b dstCap dstSize with
            ctx := (passthruFinish ctx src b dstCap dstSize).ctx.withArena a'' } ∧
      (passthruFinish ctx src b dstCap dstSize).ctx.arena = b.arena := by
  have hemit : emitPassthrough (ctx.withArena a).modelId (ctx.withArena a).contextSeq src b.dst dstCap
      (ctx.withArena a).compactMode = emitPassthrough ctx.modelId ctx.contextSeq src b.dst dstCap ctx.compactMode := rfl
  simp only [passthruFinish, updatePrev_appendRing, hemit]
  split
  · obtain ⟨hsent, harena⟩ := sentCtx_arena ctx src a b.arena a''
      (emitPassthrough ctx.modelId ctx.contextSeq src b.dst dstCap ctx.compactMode).2.2 true
    exact ⟨congrArg (CompressRet.mk _ _ _) hsent, harena⟩
  · obtain ⟨htaken, harena⟩ := takenIn_arena ctx src a b.arena a''
    exact ⟨congrArg (CompressRet.mk _ _ _) htaken, harena⟩

/-- **What the arena holds has no influence on `netc_compress`**: code, buffer, size and context, but for the arena,
are the same. -/
theorem compress_arena (h : a'.size = ctx.arena.size) (src : List UInt8) (dst : Out) (dstCap dstSize : ℕ) :
    ∃ a'', compress (ctx.withArena a') src dst dstCap dstSize
        = { compress ctx src dst dstCap dstSize with ctx := (compress ctx src dst dstCap dstSize).ctx.withArena a'' } ∧
      a''.size = (compress ctx src dst dstCap dstSize).ctx.arena.size := by
  obtain ⟨a'', hblocks, hsize⟩ := compressBlocks_arena h src dst dstCap
  rw [compress, compress]
  split
  · exact ⟨a', rfl, h⟩
  · split
    · exact ⟨a', rfl, h⟩
    · simp only [hblocks]
      rcases (compressBlocks ctx src dst dstCap).exit with _ | e
      · obtain ⟨heq, harena⟩ := passthruFinish_arena ctx a' src (compressBlocks ctx src dst dstCap) a'' dstCap dstSize
        exact ⟨a'', heq, by rw [harena, hsize]⟩
      · obtain ⟨heq, harena⟩ := exitFinish_arena ctx a' src (compressBlocks ctx src dst dstCap) a'' e
        exact ⟨a'', heq, by rw [harena, hsize]⟩

end Compress

/-! ### netc_decompress -/

section Decompress

variable (ctx : Ctx) (a : Block)

theorem decodePayload_arena (hdr : PktHeader) (payload : List UInt8) (dst : Out) :
    decodePayload (ctx.withArena a) hdr payload dst = decodePayload ctx hdr payload dst := by
  have hc : (ctx.withArena a).compactMode = ctx.compactMode := rfl
  have hr : (ctx.withArena a).hasRing = ctx.hasRing := rfl
  have hd : (ctx.withArena a).dict = ctx.dict := rfl
  have hl : (ctx.withArena a).getLzpTable = ctx.getLzpTable := rfl
  have ht : ∀ d, (ctx.withArena a).getTables d = ctx.getTables d := fun _ => rfl
  simp only [decodePayload, hc, hr, hd, hl, ht]
  rfl

theorem undoTransforms_arena (hdr : PktHeader) (dst : Out) :
    undoTransforms (ctx.withArena a) hdr dst = undoTransforms ctx hdr dst := by
  have hl : (ctx.withArena a).getLzpTable = ctx.getLzpTable := rfl
  have hp : ∀ dst, decompDeltaPostpass (ctx.withArena a) hdr.flags dst hdr.originalSize
      = decompDeltaPostpass ctx hdr.flags dst hdr.originalSize := fun _ => rfl
  simp only [undoTransforms, hl, hp]

theorem decompFinish_arena (hdr : PktHeader) (n : ℕ) (data : List UInt8) :
    decompFinish (ctx.withArena a) hdr n data = (decompFinish ctx hdr n data).withArena a := by
  have hseq : ∀ (c : Ctx) (seq : UInt8),
      { c.withArena a with contextSeq := seq } = { c with contextSeq := seq }.withArena a :=
    fun _ _ => rfl
  simp only [decompFinish, Ctx.withArena_updatePrev, Ctx.withArena_appendRing, Ctx.withArena_tally, hseq,
    Ctx.withArena_learn]

/-- **The arena has no part in `netc_decompress`.** -/
theorem decompress_arena (src : List UInt8) (dst : Out) (dstCap dstSize : ℕ) :
    decompress (ctx.withArena a) src dst dstCap dstSize
      = (decompress ctx src dst dstCap dstSize).map fun r => { r with ctx := r.ctx.withArena a } := by
  have hc : (ctx.withArena a).compactMode = ctx.compactMode := rfl
  have hfill : ∀ hdr, fillHeader (ctx.withArena a) hdr = fillHeader ctx hdr := fun _ => rfl
  have hmm : ∀ hdr, modelMismatch (ctx.withArena a) hdr = modelMismatch ctx hdr := fun _ => rfl
  have hhist : ∀ n, (ctx.withArena a).checkHistory n = ctx.checkHistory n := fun _ => rfl
  rw [decompress, decompress, hc]
  rcases validateHeader src dstCap ctx.compactMode with fault | (code | ⟨hdr, hdrSz⟩)
  · rfl
  · rfl
  · simp only [Exc.ok_bind, decompressBody, hfill, hmm, decodePayload_arena, undoTransforms_arena, hhist,
      decompFinish_arena]
    split
    · rfl
    · rcases Chk.sub src hdrSz (fillHeader ctx hdr).compressedSize with fault | payload
      · rfl
      · simp only [Exc.ok_bind]
        rcases decodePayload ctx (fillHeader ctx hdr) payload dst with fault | ⟨dst₁, code⟩
        · rfl
        · simp only [Exc.ok_bind]
          split
          · rfl
          · rcases undoTransforms ctx (fillHeader ctx hdr) dst₁ with fault | dst₂
            · rfl
            · simp only [Exc.ok_bind]
              rcases ctx.checkHistory (fillHeader ctx hdr).originalSize with fault | _ <;> rfl

end Decompress

/-! ### Runs -/

/-- One call: both contexts fault alike, or give one reply and differ in the arena only. -/
theorem step_arena {ctx : Ctx} {a' : Block} (h : a'.size = ctx.arena.size) (c : Call) :
    (∃ fault, step ctx c = .error fault ∧ step (ctx.withArena a') c = .error fault) ∨
      ∃ reply ctx₁ a₁, step ctx c = .ok (reply, ctx₁) ∧ step (ctx.withArena a') c = .ok (reply, ctx₁.withArena a₁) ∧
        a₁.size = ctx₁.arena.size := by
  rcases c with ⟨src, dst, dstCap, dstSize⟩ | ⟨src, dst, dstCap, dstSize⟩ | _
  · obtain ⟨a'', heq, hsize⟩ := compress_arena h src dst dstCap dstSize
    exact .inr ⟨_, _, a'', rfl, by simp only [step, heq], hsize⟩
  · have hsame := decompress_arena ctx ctx.arena src dst dstCap dstSize
    simp only [step, decompress_arena]
    rcases hr : decompress ctx src dst dstCap dstSize with fault | r
    · exact .inl ⟨fault, rfl, rfl⟩
    · -- the arena of the reply's context is the one before the call
      have hsame : decompress ctx src dst dstCap dstSize = _ := hsame
      rw [hr] at hsame
      have harena : r.ctx.arena = ctx.arena := congrArg (fun q : DecompressRet => q.ctx.arena) (Except.ok.inj hsame)
      exact .inr ⟨_, _, a', rfl, rfl, by rw [harena, h]⟩
  · exact .inr ⟨none, ctxReset ctx, a', rfl, rfl, h⟩

/-- **What the arena holds has no influence on any reply.** -/
theorem run_arena : ∀ (calls : List Call) {ctx : Ctx} {a' : Block}, a'.size = ctx.arena.size →
    (run (ctx.withArena a') calls).map Prod.fst = (run ctx calls).map Prod.fst
  | [], _, _, _ => rfl
  | c :: calls, ctx, a', h => by
    rcases step_arena h c with ⟨fault, h1, h2⟩ | ⟨reply, ctx₁, a₁, h1, h2, hsize⟩
    · simp only [run, h1, h2]
    · have hrest := run_arena calls hsize
      simp only [run, h1, h2, Exc.ok_bind]
      rcases hr : run (ctx₁.withArena a₁) calls with fault | ⟨replies, ctx₂⟩
      all_goals rcases hr' : run ctx₁ calls with fault' | ⟨replies', ctx₂'⟩
      all_goals rw [hr, hr'] at hrest
      · rw [Except.error.inj hrest]
      · cases hrest
      · cases hrest
      · have hrest : replies = replies' := Except.ok.inj hrest
        rw [hrest]
        rfl

/-! ### What a reset undoes -/

section Undo

variable (ctx : Ctx) (data : List UInt8)

theorem ctxReset_updatePrev : ctxReset (ctx.updatePrev data) = ctxReset ctx := by
  rcases ctx with ⟨_, _, _, _, _, _ | prev, _, _ | prev2, _, _, _, _, _, _, _⟩ <;> rfl

theorem ctxReset_appendRing : ctxReset (ctx.appendRing data) = ctxReset ctx := by
  rcases ctx with ⟨_, _, _, _ | ring, _, _, _, _, _, _, _, _, _, _, _⟩
  · rfl
  · simp only [Ctx.appendRing, ctxReset, Option.map_some, ringAppend_size, Option.isSome_some, if_true]
    rfl

theorem ctxReset_ctxReset : ctxReset (ctxReset ctx) = ctxReset ctx := by
  rcases ctx with ⟨dict, _, _, _ | ring, _, _ | prev, _, _ | prev2, _, _, _, _, _ | adapt, _ | lzp, _⟩
  all_goals rcases dict with _ | ⟨_, _, _, _, _, _, _, _, _, _ | table, _⟩ <;> rfl

theorem ctxReset_tally (f : Stats → Stats) : ctxReset (ctx.tally f) = ctxReset ctx := by
  rw [Ctx.tally]
  split <;> rfl

/-- The adaptive LZP table goes with the other adaptive state and with a table of the dictionary. -/
def Ctx.LzpFromDict (ctx : Ctx) : Prop :=
  ctx.adaptLzp.isSome = true → ctx.adapt.isSome = true ∧ (ctx.dict.bind Dict.lzpTable).isSome = true

theorem ctxReset_learn (h : ctx.LzpFromDict) : ctxReset (ctx.learn data) = ctxReset ctx := by
  rcases ctx with ⟨dict, _, _, _, _, _, _, _, _, _, _, _, adapt, adaptLzp, count⟩
  rcases adaptLzp with _ | l
  · rcases adapt with _ | adapt
    · rfl
    · simp only [Ctx.learn, Ctx.adaptiveUpdate, Ctx.rebuildTables]
      rcases dict with _ | d
      · split <;> rfl
      · split <;> rfl
  · obtain ⟨ha, hl⟩ := h rfl
    obtain ⟨adapt, rfl⟩ := Option.isSome_iff_exists.mp ha
    obtain ⟨lzp, hlzp⟩ := Option.isSome_iff_exists.mp hl
    simp only at hlzp
    rcases dict with _ | d
    · cases hlzp
    · have hlzp : d.lzpTable = some lzp := hlzp
      simp only [Ctx.learn, Ctx.adaptiveUpdate, Ctx.rebuildTables, ctxReset]
      split <;> simp [hlzp, lzpAdaptiveUpdate]

end Undo

section Calls

variable {ctx ctx' : Ctx}

theorem Kin.lzpFromDict (hk : Kin ctx ctx') (h : ctx.LzpFromDict) : ctx'.LzpFromDict := by
  rw [Ctx.LzpFromDict, hk.adaptLzp, hk.adapt, hk.dict]
  exact h

theorem ctxReset_takenIn (ctx : Ctx) (src : List UInt8) (arena : Block) :
    ctxReset (takenIn ctx src arena) = (ctxReset ctx).withArena arena := by
  rw [takenIn, ctxReset_updatePrev, ctxReset_appendRing]
  rfl

theorem ctxReset_sentCtx (h : ctx.LzpFromDict) (src : List UInt8) {arena : Block} (harena : arena.size = ctx.arena.size)
    (n : ℕ) (passthru : Bool) : ctxReset (sentCtx ctx src arena n passthru) = (ctxReset ctx).withArena arena := by
  have hk := (kin_takenIn ctx src harena).trans (kin_tally _ (countCompressed src.length n passthru))
  rw [sentCtx, ctxReset_learn _ _ (hk.lzpFromDict h), ctxReset_tally, ctxReset_takenIn]

theorem ctxReset_decompFinish (h : ctx.LzpFromDict) (hdr : PktHeader) (n : ℕ) (data : List UInt8) :
    ctxReset (decompFinish ctx hdr n data) = ctxReset ctx := by
  have hk := (((kin_updatePrev ctx data).trans (kin_appendRing _ data)).trans (kin_tally _ fun s => { s with
    packetsDecompressed := (s.packetsDecompressed + 1) % 2 ^ 64
    bytesIn := (s.bytesIn + n) % 2 ^ 64
    bytesOut := (s.bytesOut + data.length) % 2 ^ 64
    passthroughCount :=
      if algId hdr.algorithm = Alg.passthru then (s.passthroughCount + 1) % 2 ^ 64 else s.passthroughCount })).trans
    (kin_withSeq _ (hdr.contextSeq + 1) rfl)
  have hseq : ∀ (c : Ctx) (seq : UInt8), ctxReset { c with contextSeq := seq } = ctxReset c := fun _ _ => rfl
  rw [decompFinish, ctxReset_learn _ _ (hk.lzpFromDict h), hseq, ctxReset_tally, ctxReset_appendRing,
    ctxReset_updatePrev]

/-- A reset after a call undoes it, but for the arena. -/
theorem ctxReset_step (hl : ctx.LzpFromDict) {c : Call} {reply : Reply} (h : step ctx c = .ok (reply, ctx')) :
    ctxReset ctx' = (ctxReset ctx).withArena ctx'.arena := by
  rcases c with ⟨src, dst, dstCap, dstSize⟩ | ⟨src, dst, dstCap, dstSize⟩ | _
  · simp only [step, Except.ok.injEq, Prod.mk.injEq] at h
    rw [← h.2]
    rcases compress_cases ctx src dst dstCap dstSize with ⟨-, code, -, hr⟩ | ⟨-, -, -, -, -, arena, harena, hr⟩ |
      ⟨-, -, hsent⟩
    · rw [hr]
      rfl
    · rw [hr, ctxReset_takenIn, (takenIn_arena ctx src arena arena arena).2]
    · obtain ⟨arena, harena, hr⟩ := hsent.ctx
      rw [hr, ctxReset_sentCtx hl src harena, (sentCtx_arena ctx src arena arena arena _ _).2]
  · simp only [step] at h
    obtain ⟨r, hr, h⟩ := Exc.bind_eq_ok h
    simp only [Exc.pure_eq, Except.ok.injEq, Prod.mk.injEq] at h
    rw [← h.2]
    rcases decompress_ctx hr with hctx | ⟨hdr, n, data, hctx⟩
    · rw [hctx]
      rfl
    · have hsame : decompFinish ctx hdr n data = (decompFinish ctx hdr n data).withArena ctx.arena :=
        decompFinish_arena ctx ctx.arena hdr n data
      have harena : (decompFinish ctx hdr n data).arena = ctx.arena := (congrArg Ctx.arena hsame).trans rfl
      rw [hctx, ctxReset_decompFinish hl, harena]
      rfl
  · simp only [step, Except.ok.injEq, Prod.mk.injEq] at h
    rw [← h.2, ctxReset_ctxReset]
    rfl

/-- **A reset undoes every run**, but for the arena. -/
theorem ctxReset_run : ∀ {calls : List Call} {ctx ctx' : Ctx} {replies : List Reply}, ctx.LzpFromDict →
    run ctx calls = .ok (replies, ctx') → ctxReset ctx' = (ctxReset ctx).withArena ctx'.arena
  | [], ctx, ctx', replies, _, h => by
    simp only [run, Except.ok.injEq, Prod.mk.injEq] at h
    rw [← h.2]
    rfl
  | c :: calls, ctx, ctx', replies, hl, h => by
    obtain ⟨reply, ctx₁, replies₁, h1, h2, -⟩ := run_cons_eq_ok h
    rw [ctxReset_run ((kin_step h1).lzpFromDict hl) h2, ctxReset_step hl h1]
    rfl

/-- A new context is as a reset leaves it. -/
theorem ctxCreate_reset {pf : Platform} {dict : Option Dict} {cfg : Cfg} {junk : ℕ → UInt8}
    (h : ctxCreate pf dict cfg junk = some ctx) : ctxReset ctx = ctx ∧ ctx.LzpFromDict := by
  simp only [ctxCreate] at h
  split at h
  · cases h
  · rw [← Option.some.inj h]
    cases CfgFlag.has cfg.flags CfgFlag.stateful <;> cases CfgFlag.has cfg.flags CfgFlag.adaptive
    all_goals rcases dict with _ | ⟨_, _, _, _, _, _, _, _, _, _ | table, _⟩
    all_goals exact ⟨rfl, by simp [Ctx.LzpFromDict]⟩

/-- New contexts of one configuration differ in what their arenas held. -/
theorem ctxCreate_withArena {pf : Platform} {dict : Option Dict} {cfg : Cfg} {junk junk' : ℕ → UInt8}
    (h : ctxCreate pf dict cfg junk = some ctx) (h' : ctxCreate pf dict cfg junk' = some ctx') :
    ctx = ctx'.withArena ctx.arena ∧ ctx.arena.size = ctx'.arena.size := by
  simp only [ctxCreate] at h h'
  split at h
  · cases h
  · next hok =>
    rw [if_neg hok] at h'
    rw [← Option.some.inj h, ← Option.some.inj h']
    exact ⟨rfl, rfl⟩

end Calls

/-- **Reset.** After any calls on a context and a reset, every later sequence of calls gets the replies that a new
context with the same dictionary and configuration gives: the same codes, sizes and bytes. Nothing of the arena's
old contents is in them, nor of what the new context's arena held at first. -/
theorem reset_replies {pf : Platform} {dict : Option Dict} {cfg : Cfg} {junk junk' : ℕ → UInt8} {ctx₀ ctx fresh : Ctx}
    {calls : List Call} {replies : List Reply} (h : ctxCreate pf dict cfg junk = some ctx₀)
    (hfresh : ctxCreate pf dict cfg junk' = some fresh) (hrun : run ctx₀ calls = .ok (replies, ctx))
    (later : List Call) :
    (run (ctxReset ctx) later).map Prod.fst = (run fresh later).map Prod.fst := by
  obtain ⟨hreset, hl⟩ := ctxCreate_reset h
  have hk := kin_run hrun
  obtain ⟨hnew, hsize⟩ := ctxCreate_withArena h hfresh
  have harena : ctx₀.withArena ctx.arena = fresh.withArena ctx.arena := by
    rw [hnew]
    rfl
  rw [ctxReset_run hl hrun, hreset, harena]
  exact run_arena later (hk.arena.trans hsize)

/-- A packet and a broken one, then a reset; the new context's arena holds sevens. -/
theorem reset_replies_plain : ∃ replies ctx fresh,
    run (newCtx none (CfgFlag.stateful ||| CfgFlag.adaptive))
      [.compress [1, 2, 3] .empty 64 0, .decompress [0] .empty 64 0] = .ok (replies, ctx) ∧
    ctxCreate scalarPlatform none ⟨CfgFlag.stateful ||| CfgFlag.adaptive, 0, 0, 0⟩ (fun _ => 7) = some fresh ∧
    (run (ctxReset ctx) [.compress [1, 2, 3] .empty 64 0]).map Prod.fst
      = (run fresh [.compress [1, 2, 3] .empty 64 0]).map Prod.fst := by
  have hs : CfgFlag.has (CfgFlag.stateful ||| CfgFlag.adaptive) CfgFlag.stateful = true := by decide
  have hcreate := newCtx_create none hs
  obtain ⟨fresh, hfresh⟩ : ∃ fresh, ctxCreate scalarPlatform none ⟨CfgFlag.stateful ||| CfgFlag.adaptive, 0, 0, 0⟩
      (fun _ => 7) = some fresh := ⟨_, rfl⟩
  obtain ⟨replies, ctx, hrun, -⟩ := run_wf [.compress [1, 2, 3] .empty 64 0, .decompress [0] .empty 64 0]
    (plain_reachable hs).wf
  exact ⟨replies, ctx, fresh, hrun, hfresh, reset_replies hcreate hfresh hrun _⟩

end Netc
