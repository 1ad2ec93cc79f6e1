/-
# What a packet does not depend on

The bytes on the wire are the same on every machine. The vector level in use, what the arena held, and how
large it is beyond the largest packet, none of these shows in a reply: neither in the packets that leave nor
in those that are given back, along any sequence of calls (`host_independent`). Nor does the level show in
what training counts.

LZ77 is tried in the arena, whose size is its capacity; `lz77Encode_fills` and `lz77xEncode_fills` say that
the capacity does not matter once the result fits.

Key definitions: `Ctx.on`, `Reply.view`, `unigramCountsOn`.
Key theorems: `plan_on`, `compress_on`, `decompress_on`, `run_on`, `host_independent`.
-/
import Netc.Lib.Room
import Netc.Reset
import Netc.Simd

namespace Netc

/-! ### LZ77 in a large enough buffer -/

section Lz77

variable {src : List UInt8}

theorem flushLits_fills : ∀ (n : ℕ) {ls le : ℕ} (out : List UInt8), le ≤ src.length →
    Room.Fills List.length out.length fun cap => flushLits src cap n ls le out
  | 0, _, _, _, _ => Room.fills_const fun _ h => by rw [Except.ok.inj h]
  | n + 1, ls, le, out, hle => by
    simp only [flushLits]
    by_cases hlt : ls < le
    · simp only [if_pos hlt]
      have hlen : (UInt8.ofNat (min (le - ls) 128 - 1) :: (src.drop ls).take (min (le - ls) 128)).length
          = 1 + min (le - ls) 128 := by
        rw [List.length_cons, List.length_take, List.length_drop]
        omega
      have hrest := @flushLits_fills n (ls + min (le - ls) 128) le
        (out ++ UInt8.ofNat (min (le - ls) 128 - 1) :: (src.drop ls).take (min (le - ls) 128)) hle
      rw [List.length_append, hlen] at hrest
      refine ⟨fun h => ?_, fun h hfit => ?_⟩
      · split at h
        · cases h
        · exact (Nat.le_add_right _ _).trans (hrest.grows h)
      · split at h
        · cases h
        · have := hrest.grows h
          rw [if_neg (by omega)]
          exact hrest.capped h hfit
    · simp only [if_neg hlt]
      exact Room.fills_const fun _ h => by rw [Except.ok.inj h]

/-- The size of what an encoder has written. -/
def Lz77State.size (s : Lz77State) : ℕ := s.out.length

/-- A token behind the literals, if nothing stops the encoder and there is room. -/
theorem token_fills {out tok : List UInt8} {s : Lz77State} (hs : s.out = out ++ tok) {stop : ℕ → Prop}
    [∀ cap, Decidable (stop cap)] (hstop : ∀ cap cap', ¬stop cap → out.length + tok.length ≤ cap' → ¬stop cap') :
    Room.Fills Lz77State.size out.length fun cap =>
      (if stop cap then .error out else if cap < out.length + tok.length then .error out else .ok s :
        Except (List UInt8) Lz77State) := by
  have hsize : s.size = out.length + tok.length := by rw [Lz77State.size, hs, List.length_append]
  refine ⟨fun h => ?_, fun h hfit => ?_⟩
  · split at h
    · cases h
    · split at h
      · cases h
      · rw [← Except.ok.inj h, hsize]
        exact Nat.le_add_right _ _
  · split at h
    · cases h
    · next h1 =>
      split at h
      · cases h
      · rw [← Except.ok.inj h, hsize] at hfit
        rw [if_neg (hstop _ _ h1 hfit), if_neg (by omega), h]

theorem lz77Emit_fills {s : Lz77State} (hs : s.i ≤ src.length) (len off : ℕ) :
    Room.Fills Lz77State.size s.size fun cap => lz77Emit src cap s len off := by
  refine (flushLits_fills _ s.out hs).bind fun out => ?_
  exact @token_fills out [0x80 ||| UInt8.ofNat (len - 3), UInt8.ofNat (off - 1)] _ rfl
    (fun _ => src.length ≤ out.length) _ fun _ _ h _ => h

theorem lz77xEmit_fills {s : Lz77State} (hs : s.i ≤ src.length) (long : Bool) (len off : ℕ) :
    Room.Fills Lz77State.size s.size fun cap => lz77xEmit src cap s long len off := by
  refine (flushLits_fills _ s.out hs).bind fun out => ?_
  have htok : 0 < (lz77xToken long len off).length := by cases long <;> simp [lz77xToken]
  refine @token_fills out (lz77xToken long len off) _ rfl (fun cap => cap ≤ out.length) _ ?_
  intro cap cap' _ hfit
  omega

/-- An encoder gives up when nothing is gained any more. -/
theorem giveUp_fills {s : Lz77State} (n : ℕ) : Room.Fills Lz77State.size s.size fun _ =>
    (if n ≤ s.out.length then .error s.out else .ok s : Except (List UInt8) Lz77State) :=
  Room.fills_const fun s' h => by
    split at h
    · cases h
    · rw [Except.ok.inj h]

theorem lz77Step_fills {s : Lz77State} (hs : s.i ≤ src.length) :
    Room.Fills Lz77State.size s.size fun cap => lz77Step src cap s := by
  simp only [lz77Step, lz77Advance]
  refine Room.Fills.bind ?_ fun s' => giveUp_fills src.length
  split
  · exact @lz77Emit_fills src { s with ht := Function.update s.ht (lz77Hash3 src s.i) (some s.i) } hs _ _
  · exact Room.fills_const fun _ h => by rw [← Except.ok.inj h]; rfl

theorem lz77xStep_fills {s : Lz77State} (hs : s.i ≤ src.length) (ring : Block) (pos : ℕ) (ringHt : ℕ → Option ℕ) :
    Room.Fills Lz77State.size s.size fun cap => lz77xStep src ring pos ringHt cap s := by
  simp only [lz77xStep, lz77xAdvance]
  refine Room.Fills.bind ?_ fun s' => giveUp_fills src.length
  split
  · exact @lz77xEmit_fills src { s with ht := Function.update s.ht (lz77xHash3 src s.i) (some s.i) } hs _ _ _
  · split
    · exact @lz77xEmit_fills src { s with ht := Function.update s.ht (lz77xHash3 src s.i) (some s.i) } hs _ _ _
    · exact Room.fills_const fun _ h => by rw [← Except.ok.inj h]; rfl

/-- Either encoder, given its round. -/
theorem encode_fills {step : ℕ → Lz77State → Except (List UInt8) Lz77State}
    (h : ∀ s, s.i ≤ src.length → Room.Fills Lz77State.size s.size fun cap => step cap s) :
    Room.Fills List.length 0 (fun cap => do
      let s ← Loop.run (fun s => decide (s.i + 3 ≤ src.length)) (step cap) src.length
        { out := [], i := 0, litStart := 0, ht := fun _ => none }
      let out ← flushLits src cap (src.length - s.litStart) s.litStart src.length s.out
      if out.length < src.length then .ok out else .error out) := by
  have hloop := @Room.Fills.loop _ _ Lz77State.size (fun s => decide (s.i + 3 ≤ src.length)) (fun s cap => step cap s)
    (fun s hg => h s (by simp only [decide_eq_true_eq] at hg; omega)) src.length
    { out := [], i := 0, litStart := 0, ht := fun _ => none }
  refine hloop.bind fun s => (flushLits_fills _ s.out le_rfl).bind fun out => Room.fills_const fun out' hout => ?_
  split at hout
  · rw [Except.ok.inj hout]
  · cases hout

/-- **LZ77 in any buffer that holds its result** gives the same. -/
theorem lz77Encode_fills (src : List UInt8) : Room.Fills List.length 0 (lz77Encode src) :=
  encode_fills fun _ hs => lz77Step_fills hs

/-- **So does LZ77 over the ring.** -/
theorem lz77xEncode_fills (src : List UInt8) (ring : Option Block) (pos prevSize : ℕ) :
    Room.Fills List.length 0 (lz77xEncode src ring pos prevSize) := by
  rcases ring with _ | ring
  · exact lz77Encode_fills src
  · change Room.Fills List.length 0 fun cap => lz77xEncode src (some ring) pos prevSize cap
    by_cases h0 : ring.size = 0
    · simp only [lz77xEncode, if_pos h0]
      exact lz77Encode_fills src
    · simp only [lz77xEncode, if_neg h0]
      exact encode_fills fun _ hs => lz77xStep_fills hs ring pos _

end Lz77

/-! ### On another machine -/

/-- The context at another vector level. -/
def Ctx.atLevel (ctx : Ctx) (level : SimdLevel) : Ctx := { ctx with simdOps := level }

/-- The context on a machine with another vector level and another arena. -/
def Ctx.on (ctx : Ctx) (level : SimdLevel) (arena : Block) : Ctx := (ctx.atLevel level).withArena arena

section Plan

variable {ctx : Ctx} {src : List UInt8} {dstCap : ℕ} (level : SimdLevel) {arena : Block}

theorem roomyLzp_on (h : src.length ≤ ctx.arena.size) (h' : src.length ≤ arena.size) :
    (ctx.on level arena).roomyLzp src.length = ctx.roomyLzp src.length := by
  rw [Ctx.roomyLzp, Ctx.roomyLzp, if_pos h, if_pos (show src.length ≤ (ctx.on level arena).arena.size from h')]
  rfl

theorem sourceOf_on (h : src.length ≤ ctx.arena.size) (h' : src.length ≤ arena.size) :
    sourceOf (ctx.on level arena) src = sourceOf ctx src := by
  have hw : wantsDelta (ctx.on level arena) src.length = wantsDelta ctx src.length := by
    rw [wantsDelta, wantsDelta, decide_eq_true h,
      decide_eq_true (show src.length ≤ (ctx.on level arena).arena.size from h')]
    rfl
  rw [sourceOf, sourceOf, hw, roomyLzp_on level h h']
  rfl

theorem lz77Source_on (h : src.length ≤ ctx.arena.size) (h' : src.length ≤ arena.size) :
    lz77Source (ctx.on level arena) src = lz77Source ctx src := by
  simp only [lz77Source, sourceOf_on level h h', roomyLzp_on level h h']
  rfl

/-- The call on another machine. -/
def Job.on (j : Job) (level : SimdLevel) (arena : Block) : Job := { j with ctx := j.ctx.on level arena }

namespace Job

variable {j : Job}

/-- A trial in an arena that would hold the packet does not depend on its size. -/
theorem lz77Wins_fills {x : ℕ → Except (List UInt8) (List UInt8)} (hx : Room.Fills List.length 0 x) {cap cap' : ℕ}
    (h : j.src.length ≤ cap) (h' : j.src.length ≤ cap') (size : ℕ) :
    j.lz77Wins size (x cap') = j.lz77Wins size (x cap) := by
  refine Option.ext fun lz => ?_
  rw [lz77Wins_eq_some, lz77Wins_eq_some]
  refine ⟨fun hw => ⟨hx.capped hw.1 ?_, hw.2⟩, fun hw => ⟨hx.capped hw.1 ?_, hw.2⟩⟩
  · exact hw.2.2.1.le.trans h
  · exact hw.2.2.1.le.trans h'

variable (h : j.src.length ≤ j.ctx.arena.size) (h' : j.src.length ≤ arena.size)

include h h'

theorem planLz77_on (bytes : List UInt8) (d : Draft) : (j.on level arena).planLz77 bytes d = j.planLz77 bytes d := by
  have hwins : (j.on level arena).lz77Wins d.payload.length
      (lz77Encode (j.on level arena).src (j.on level arena).ctx.arena.size)
      = j.lz77Wins d.payload.length (lz77Encode j.src j.ctx.arena.size) :=
    lz77Wins_fills (lz77Encode_fills j.src) h h' d.payload.length
  rw [planLz77, planLz77, hwins, decide_eq_true h,
    decide_eq_true (show (j.on level arena).src.length ≤ (j.on level arena).ctx.arena.size from h')]
  rfl

theorem planLzx_on (d : Draft) : (j.on level arena).planLzx d = j.planLzx d := by
  have hwins : (j.on level arena).lz77Wins d.payload.length
      (lz77xEncode (j.on level arena).src (j.on level arena).ctx.ring
        (j.on level arena).ctx.ringPos (j.on level arena).ctx.prevPktSize (j.on level arena).ctx.arena.size)
      = j.lz77Wins d.payload.length (lz77xEncode j.src j.ctx.ring j.ctx.ringPos j.ctx.prevPktSize j.ctx.arena.size) :=
    lz77Wins_fills (lz77xEncode_fills j.src j.ctx.ring j.ctx.ringPos j.ctx.prevPktSize) h h' d.payload.length
  rw [planLzx, planLzx, hwins, wantsLzx, wantsLzx, decide_eq_true h,
    decide_eq_true (show (j.on level arena).src.length ≤ (j.on level arena).ctx.arena.size from h')]
  rfl

omit h h' in
theorem plan10_on (bytes : List UInt8) (d : Draft) : (j.on level arena).plan10 bytes d = j.plan10 bytes d := by
  have htrial : (j.on level arena).tans10Trial = j.tans10Trial := by
    have htables : (j.on level arena).tables = j.tables := rfl
    unfold tans10Trial
    rw [htables]
  have hwants : (j.on level arena).wants10 d.toChoice = j.wants10 d.toChoice := rfl
  rw [plan10, plan10, hwants, htrial]

theorem planLzxEnd_on (bytes : List UInt8) (d : Draft) :
    (j.on level arena).planLzxEnd bytes d = j.planLzxEnd bytes d := by
  rw [planLzxEnd, planLzxEnd, planLzx_on level h h', plan10_on]

theorem planTans_on (s : Source) : (j.on level arena).planTans s = j.planTans s := by
  have hcomp : (j.on level arena).planCompetition s.bytes = j.planCompetition s.bytes := by
    funext d
    have hlzp : (j.on level arena).planLzp d = j.planLzp d := rfl
    rw [planCompetition, planCompetition, hlzp, planLz77_on level h h', planLzxEnd_on level h h']
  rw [planTans, planTans, hcomp]
  rfl

theorem planRaw_on : (j.on level arena).planRaw = j.planRaw := by
  have hsrc : (j.on level arena).rawSource = j.rawSource := by
    rw [rawSource, rawSource]
    exact congrArg (fun l => lzpSource l j.src) (roomyLzp_on level h h')
  have hend : (j.on level arena).planLzxEnd j.rawSource.bytes = j.planLzxEnd j.rawSource.bytes :=
    funext fun d => planLzxEnd_on level h h' _ d
  rw [planRaw, planRaw, hsrc, hend]
  rfl

theorem planTansBlocks_on (s : Source) : (j.on level arena).planTansBlocks s = j.planTansBlocks s := by
  rw [planTansBlocks, planTansBlocks, planTans_on level h h', planRaw_on level h h']

end Job

/-- **The plan is the same on every machine** whose arena would hold the packet. -/
theorem plan_on (h : src.length ≤ ctx.arena.size) (h' : src.length ≤ arena.size) (dstCap : ℕ) :
    plan (ctx.on level arena) src dstCap = plan ctx src dstCap := by
  have hdict : planDict (ctx.on level arena) src dstCap = planDict ctx src dstCap := by
    have hd : (ctx.on level arena).dict = ctx.dict := rfl
    rw [planDict, planDict, hd, sourceOf_on level h h']
    rcases ctx.dict with _ | d
    · rfl
    · simp only
      split
      · exact @Job.planTansBlocks_on level arena ⟨ctx, d, src, dstCap⟩ h h' _
      · rfl
  have hlz : planLz77 (ctx.on level arena) src dstCap = planLz77 ctx src dstCap := by
    simp only [planLz77, lz77Source_on level h h']
    rfl
  rw [plan, plan, hdict, hlz]

end Plan

/-! ### Calls on another machine -/

section Level

variable (ctx : Ctx) (level : SimdLevel) (data : List UInt8)

theorem Ctx.atLevel_updatePrev : (ctx.atLevel level).updatePrev data = (ctx.updatePrev data).atLevel level := by
  rcases ctx with ⟨_, _, _, _, _, _ | prev, _, _ | prev2, _, _, _, _, _, _, _⟩ <;> rfl

theorem Ctx.atLevel_appendRing : (ctx.atLevel level).appendRing data = (ctx.appendRing data).atLevel level := by
  rcases ctx with ⟨_, _, _, _ | ring, _, _, _, _, _, _, _, _, _, _, _⟩ <;> rfl

theorem Ctx.atLevel_tally (f : Stats → Stats) : (ctx.atLevel level).tally f = (ctx.tally f).atLevel level := by
  have hf : (ctx.atLevel level).flags = ctx.flags := rfl
  rw [Ctx.tally, Ctx.tally, hf]
  split <;> rfl

theorem Ctx.atLevel_learn : (ctx.atLevel level).learn data = (ctx.learn data).atLevel level := by
  rcases ctx with ⟨dict, _, _, _, _, _, _, _, _, _, _, _, _ | adapt, _, count⟩
  · rfl
  · simp only [Ctx.atLevel, Ctx.learn, Ctx.adaptiveUpdate, Ctx.rebuildTables]
    split <;> rfl

theorem takenIn_atLevel (arena : Block) :
    takenIn (ctx.atLevel level) data arena = (takenIn ctx data arena).atLevel level := by
  rw [takenIn, takenIn, ← Ctx.atLevel_updatePrev, ← Ctx.atLevel_appendRing]
  rfl

theorem sentCtx_atLevel (arena : Block) (n : ℕ) (passthru : Bool) :
    sentCtx (ctx.atLevel level) data arena n passthru = (sentCtx ctx data arena n passthru).atLevel level := by
  rw [sentCtx, sentCtx, takenIn_atLevel, Ctx.atLevel_tally, Ctx.atLevel_learn]

theorem decompFinish_atLevel (hdr : PktHeader) (n : ℕ) :
    decompFinish (ctx.atLevel level) hdr n data = (decompFinish ctx hdr n data).atLevel level := by
  have hseq : ∀ (c : Ctx) (seq : UInt8),
      { c.atLevel level with contextSeq := seq } = { c with contextSeq := seq }.atLevel level := fun _ _ => rfl
  simp only [decompFinish, Ctx.atLevel_updatePrev, Ctx.atLevel_appendRing, Ctx.atLevel_tally, hseq, Ctx.atLevel_learn]

/-- The residuals are added alike at every level. -/
theorem decompDeltaPostpass_atLevel (flags : UInt8) (dst : Out) (n : ℕ) :
    decompDeltaPostpass (ctx.atLevel level) flags dst n = decompDeltaPostpass ctx flags dst n := by
  simp only [decompDeltaPostpass, bulkDecode_eq]
  rfl

theorem decodePayload_atLevel (hdr : PktHeader) (payload : List UInt8) (dst : Out) :
    decodePayload (ctx.atLevel level) hdr payload dst = decodePayload ctx hdr payload dst := by
  have hc : (ctx.atLevel level).compactMode = ctx.compactMode := rfl
  have hr : (ctx.atLevel level).hasRing = ctx.hasRing := rfl
  have hd : (ctx.atLevel level).dict = ctx.dict := rfl
  have hl : (ctx.atLevel level).getLzpTable = ctx.getLzpTable := rfl
  have ht : ∀ d, (ctx.atLevel level).getTables d = ctx.getTables d := fun _ => rfl
  simp only [decodePayload, hc, hr, hd, hl, ht]
  rfl

theorem undoTransforms_atLevel (hdr : PktHeader) (dst : Out) :
    undoTransforms (ctx.atLevel level) hdr dst = undoTransforms ctx hdr dst := by
  have hl : (ctx.atLevel level).getLzpTable = ctx.getLzpTable := rfl
  simp only [undoTransforms, hl, decompDeltaPostpass_atLevel]

/-- **`netc_decompress` is the same at every level.** -/
theorem decompress_atLevel (src : List UInt8) (dst : Out) (dstCap dstSize : ℕ) :
    decompress (ctx.atLevel level) src dst dstCap dstSize
      = (decompress ctx src dst dstCap dstSize).map fun r => { r with ctx := r.ctx.atLevel level } := by
  have hc : (ctx.atLevel level).compactMode = ctx.compactMode := rfl
  have hfill : ∀ hdr, fillHeader (ctx.atLevel level) hdr = fillHeader ctx hdr := fun _ => rfl
  have hmm : ∀ hdr, modelMismatch (ctx.atLevel level) hdr = modelMismatch ctx hdr := fun _ => rfl
  have hhist : ∀ n, (ctx.atLevel level).checkHistory n = ctx.checkHistory n := fun _ => rfl
  rw [decompress, decompress, hc]
  rcases validateHeader src dstCap ctx.compactMode with fault | (code | ⟨hdr, hdrSz⟩)
  · rfl
  · rfl
  · simp only [Exc.ok_bind, decompressBody, hfill, hmm, decodePayload_atLevel, undoTransforms_atLevel, hhist,
      decompFinish_atLevel]
    split
    · rfl
    · rcases Chk.sub src hdrSz (fillHeader ctx hdr).compressedSize with fault | payload
      · rfl
      · simp only [Exc.ok_bind]
        rcases decodePayload ctx (fillHeader ctx hdr) payload dst with fault | ⟨dst₁, code⟩
        · rfl
        · simp only [Exc.ok_bind]
          split
          · rfl
          · rcases undoTransforms ctx (fillHeader ctx hdr) dst₁ with fault | dst₂
            · rfl
            · simp only [Exc.ok_bind]
              rcases ctx.checkHistory (fillHeader ctx hdr).originalSize with fault | _ <;> rfl

theorem decompress_on (arena : Block) (src : List UInt8) (dst : Out) (dstCap dstSize : ℕ) :
    decompress (ctx.on level arena) src dst dstCap dstSize
      = (decompress ctx src dst dstCap dstSize).map fun r => { r with ctx := r.ctx.on level arena } := by
  rw [Ctx.on, decompress_arena, decompress_atLevel]
  rcases decompress ctx src dst dstCap dstSize with fault | r <;> rfl

end Level

/-- What a caller sees of a reply: the code and, after `NETC_OK`, the bytes. -/
def Reply.view (reply : Reply) : Option (Result × Option (List UInt8)) :=
  reply.map fun r => (r.code, if r.code = .ok then some (r.dst.read r.dstSize) else none)

section Calls

variable {ctx : Ctx} {arena : Block}

/-- **`netc_compress` is the same on every machine** whose arena would hold the packet: the code, the bytes,
and the context but for level and arena. -/
theorem compress_on (h : maxPacketSize ≤ ctx.arena.size) (h' : maxPacketSize ≤ arena.size) (level : SimdLevel)
    (src : List UInt8) (dst : Out) (dstCap dstSize : ℕ) :
    ∃ a, a.size = arena.size ∧
      (compress (ctx.on level arena) src dst dstCap dstSize).ctx =
        (compress ctx src dst dstCap dstSize).ctx.on level a ∧
      (compress (ctx.on level arena) src dst dstCap dstSize).code = (compress ctx src dst dstCap dstSize).code ∧
      ((compress ctx src dst dstCap dstSize).code = .ok →
        (compress (ctx.on level arena) src dst dstCap dstSize).dst.read
            (compress (ctx.on level arena) src dst dstCap dstSize).dstSize
          = (compress ctx src dst dstCap dstSize).dst.read (compress ctx src dst dstCap dstSize).dstSize) := by
  by_cases hbig : maxPacketSize < src.length
  · have hr : ∀ ctx, compress ctx src dst dstCap dstSize = ⟨.errTooBig, dst, dstSize, ctx⟩ := fun ctx => by
      rw [compress, if_pos hbig]
    rw [hr, hr]
    exact ⟨arena, rfl, rfl, rfl, fun _ => rfl⟩
  by_cases hmin : dstCap < compactHdrMin
  · have hr : ∀ ctx, compress ctx src dst dstCap dstSize = ⟨.errBufSmall, dst, dstSize, ctx⟩ := fun ctx => by
      rw [compress, if_neg hbig, if_pos hmin]
    rw [hr, hr]
    exact ⟨arena, rfl, rfl, rfl, fun _ => rfl⟩
  have hplan := plan_on level ((not_lt.mp hbig).trans h) ((not_lt.mp hbig).trans h') dstCap
  have hwire : ∀ o, wire (ctx.on level arena) src o = wire ctx src o := by rintro (_ | p) <;> rfl
  have hmode : (ctx.on level arena).compactMode = ctx.compactMode := rfl
  have hnot : ¬(maxPacketSize < src.length ∨ dstCap < compactHdrMin) := by
    rintro (h | h)
    · exact hbig h
    · exact hmin h
  rcases compress_cases ctx src dst dstCap dstSize with ⟨hno, -⟩ | ⟨-, hnone, hcap, hcode, -, a, -, hctx⟩ |
    ⟨-, hroom, hsent⟩
  · exact absurd hno hnot
  · rcases compress_cases (ctx.on level arena) src dst dstCap dstSize with ⟨hno, -⟩ |
      ⟨-, -, -, hcode', -, a', ha', hctx'⟩ | ⟨-, hroom', -⟩
    · exact absurd hno hnot
    · refine ⟨a', ha', ?_, by rw [hcode, hcode'], by rw [hcode]; simp⟩
      rw [hctx, hctx', Ctx.on, (takenIn_arena _ src arena a a').1, takenIn_atLevel]
      rfl
    · have := hroom' (hplan.trans hnone)
      rw [hmode] at this
      omega
  · rcases compress_cases (ctx.on level arena) src dst dstCap dstSize with ⟨hno, -⟩ |
      ⟨-, hnone', hcap', -⟩ | ⟨-, -, hsent'⟩
    · exact absurd hno hnot
    · have := hroom (hplan.symm.trans hnone')
      rw [hmode] at hcap'
      omega
    · obtain ⟨a, -, hctx⟩ := hsent.ctx
      obtain ⟨a', ha', hctx'⟩ := hsent'.ctx
      have hsize := hsent'.size
      rw [hplan, hwire, ← hsent.size] at hsize
      refine ⟨a', ha', ?_, by rw [hsent.code, hsent'.code], fun _ => by rw [hsent.bytes, hsent'.bytes, hplan, hwire]⟩
      rw [hctx, hctx', hsize, hplan, Ctx.on, (sentCtx_arena _ src arena a a' _ _).1, sentCtx_atLevel]
      rfl

/-- One call. -/
theorem step_on (hwf : ctx.Wf) (h : maxPacketSize ≤ ctx.arena.size) (h' : maxPacketSize ≤ arena.size)
    (level : SimdLevel) (c : Call) : ∃ reply reply' ctx₁ a, step ctx c = .ok (reply, ctx₁) ∧
      step (ctx.on level arena) c = .ok (reply', ctx₁.on level a) ∧ reply'.view = reply.view ∧ ctx₁.Wf ∧
      maxPacketSize ≤ ctx₁.arena.size ∧ maxPacketSize ≤ a.size := by
  obtain ⟨reply, ctx₁, hstep, hwf₁⟩ := step_wf hwf c
  have hsize : maxPacketSize ≤ ctx₁.arena.size := by rwa [(kin_step hstep).arena]
  rcases c with ⟨src, dst, dstCap, dstSize⟩ | ⟨src, dst, dstCap, dstSize⟩ | _
  · obtain ⟨a, ha, hctx, hcode, hbytes⟩ := compress_on h h' level src dst dstCap dstSize
    simp only [step, Except.ok.injEq, Prod.mk.injEq] at hstep
    obtain ⟨rfl, rfl⟩ := hstep
    refine ⟨_, _, _, a, rfl, by rw [step, hctx], ?_, hwf₁, hsize, by rwa [ha]⟩
    simp only [Reply.view, Option.map_some, hcode]
    split
    · next hok => rw [hbytes hok]
    · rfl
  · simp only [step] at hstep
    obtain ⟨r, hr, hstep⟩ := Exc.bind_eq_ok hstep
    simp only [Exc.pure_eq, Except.ok.injEq, Prod.mk.injEq] at hstep
    obtain ⟨rfl, rfl⟩ := hstep
    refine ⟨_, _, _, arena, by rw [step, hr]; rfl, by rw [step, decompress_on, hr]; rfl, rfl, hwf₁, hsize, h'⟩
  · simp only [step, Except.ok.injEq, Prod.mk.injEq] at hstep
    obtain ⟨rfl, rfl⟩ := hstep
    exact ⟨_, _, _, arena, rfl, rfl, rfl, hwf₁, hsize, h'⟩

/-- Calls one after another. -/
theorem run_on (level : SimdLevel) : ∀ (calls : List Call) {ctx : Ctx} {arena : Block}, ctx.Wf →
    maxPacketSize ≤ ctx.arena.size → maxPacketSize ≤ arena.size →
    ∃ replies replies' ctx₁ a, run ctx calls = .ok (replies, ctx₁) ∧
      run (ctx.on level arena) calls = .ok (replies', ctx₁.on level a) ∧
        replies'.map Reply.view = replies.map Reply.view
  | [], ctx, arena, _, _, _ => ⟨[], [], ctx, arena, rfl, rfl, rfl⟩
  | c :: calls, ctx, arena, hwf, h, h' => by
    obtain ⟨reply, reply', ctx₁, a, h1, h1', hview, hwf₁, hs, hs'⟩ := step_on hwf h h' level c
    obtain ⟨replies, replies', ctx₂, a₂, h2, h2', hviews⟩ := run_on level calls hwf₁ hs hs'
    refine ⟨reply :: replies, reply' :: replies', ctx₂, a₂, ?_, ?_, by rw [List.map_cons, List.map_cons, hview, hviews]⟩
    · simp only [run, h1, h2, Exc.ok_bind, Exc.pure_eq]
    · simp only [run, h1', h2', Exc.ok_bind, Exc.pure_eq]

end Calls

/-! ### Training -/

/-- One bucket of a packet in phase 2a, counted at a vector level in 32-bit counters. -/
def countSegmentOn (level : SimdLevel) (pkt : List UInt8) (st : ℕ × Counts ℕ) (b : ℕ) : ℕ × Counts ℕ :=
  if pkt.length ≤ st.1 then st
  else
    let segEnd := min (bucketEnd.getD b 0) pkt.length
    let segLen := segEnd - st.1
    let tmpFreq := bulkFreqCount level ((pkt.drop st.1).take segLen) fun _ => 0
    (segEnd, ⟨Function.update st.2.raw b fun s => st.2.raw b s + (tmpFreq s).toNat,
      Function.update st.2.totals b (st.2.totals b + segLen)⟩)

/-- Phase 2a at a vector level. -/
def unigramCountsOn (level : SimdLevel) (packets : List (List UInt8)) : Counts ℕ :=
  packets.foldl (fun c pkt => ((List.range Netc.ctxCount).foldl (countSegmentOn level pkt) (0, c)).2) (.zero ℕ)

section Training

variable (level : SimdLevel)

/-- A histogram that does not reach 2^32 is the count. -/
theorem toNat_foldl_bump : ∀ (data : List UInt8) {h : Hist} {f : Freq}, (∀ s, (h s).toNat = f s) →
    (∀ s, f s + data.length < 2 ^ 32) →
      ∀ s, (data.foldl Hist.bump h s).toNat = data.foldl (fun f b => bump f b.toNat) f s
  | [], _, _, h, _, s => h s
  | b :: data, hist, f, h, hlt, s => by
    rw [List.foldl_cons, List.foldl_cons]
    have hb := hlt b.toNat
    rw [List.length_cons] at hb
    refine toNat_foldl_bump data (fun s => ?_) (fun s => ?_) s
    · by_cases hs : s = b.toNat
      · subst hs
        simp only [Hist.bump, bump, Function.update_self, UInt32.toNat_add, h]
        exact Nat.mod_eq_of_lt (by simp only [UInt32.reduceToNat]; omega)
      · simp only [Hist.bump, bump, Function.update_of_ne hs, h]
    · have hs := hlt s
      rw [List.length_cons] at hs
      by_cases he : s = b.toNat
      · subst he
        simp only [bump, Function.update_self]
        omega
      · simp only [bump, Function.update_of_ne he]
        omega

/-- A bucket is counted alike at every level. -/
theorem countSegmentOn_eq (pkt : List UInt8) (st : ℕ × Counts ℕ) {b : ℕ} (hb : b < Netc.ctxCount) :
    countSegmentOn level pkt st b = countSegment pkt st b := by
  have hend : bucketEnd.getD b 0 ≤ 65536 := by
    have : ∀ b < 16, bucketEnd.getD b 0 ≤ 65536 := by decide
    exact this b hb
  have hgeneric : bulkFreqCount level ((pkt.drop st.1).take (min (bucketEnd.getD b 0) pkt.length - st.1)) (fun _ => 0)
      = freqCountGeneric ((pkt.drop st.1).take (min (bucketEnd.getD b 0) pkt.length - st.1)) fun _ => 0 := by
    cases level with
    | generic => rfl
    | sse42 => exact freqCount16_eq _ _
    | avx2 => exact freqCount32_eq _ _
    | neon => exact freqCount16_eq _ _
  have hcount : ∀ s,
      (freqCountGeneric ((pkt.drop st.1).take (min (bucketEnd.getD b 0) pkt.length - st.1)) (fun _ => 0) s).toNat
      = freqCount ((pkt.drop st.1).take (min (bucketEnd.getD b 0) pkt.length - st.1)) s := by
    refine toNat_foldl_bump _ (fun _ => rfl) fun s => ?_
    rw [List.length_take]
    omega
  simp only [countSegmentOn, countSegment, hgeneric, hcount]

/-- Training counts alike at every level. -/
theorem unigramCountsOn_eq (packets : List (List UInt8)) : unigramCountsOn level packets = unigramCounts packets := by
  have hpkt : ∀ pkt st, (List.range Netc.ctxCount).foldl (countSegmentOn level pkt) st
      = (List.range Netc.ctxCount).foldl (countSegment pkt) st := fun pkt st =>
    List.foldl_ext _ _ st fun st b hb => countSegmentOn_eq level pkt st (List.mem_range.mp hb)
  simp only [unigramCountsOn, unigramCounts, hpkt]

end Training

/-- **The machine does not show.** Contexts with one dictionary, flags and ring size, on machines of any
kind, at any vector level asked for, with arenas of any contents and of any sizes that hold a packet: along
every sequence of calls the callers see the same codes and the same bytes, and in the end the same
statistics. What training counts at the level it finds is what the plain loop counts. -/
theorem host_independent {pf pf' : Platform} {dict : Option Dict} {cfg cfg' : Cfg} {junk junk' : ℕ → UInt8}
    {ctx ctx' : Ctx} (hd : ∀ d, dict = some d → Trained d) (h : ctxCreate pf dict cfg junk = some ctx)
    (h' : ctxCreate pf' dict cfg' junk' = some ctx') (hflags : cfg'.flags = cfg.flags)
    (hring : cfg'.ringBufferSize = cfg.ringBufferSize) (harena : cfg.arenaSize = 0 ∨ maxPacketSize ≤ cfg.arenaSize)
    (harena' : cfg'.arenaSize = 0 ∨ maxPacketSize ≤ cfg'.arenaSize) (calls : List Call) :
    (∃ replies replies' ctx₁ ctx₁', run ctx calls = .ok (replies, ctx₁) ∧ run ctx' calls = .ok (replies', ctx₁') ∧
      replies'.map Reply.view = replies.map Reply.view ∧ ctx₁'.stats = ctx₁.stats) ∧
    ∀ packets, unigramCountsOn (simdOpsInit pf' 0) packets = unigramCounts packets := by
  have hwf := ctxCreate_wf (fun d hdict => (hd d hdict).sound) h
  have hsizes : ∀ n : ℕ, n = 0 ∨ maxPacketSize ≤ n → maxPacketSize ≤ if 0 < n then n else defaultArenaSize := by
    intro n hn
    have hdef : maxPacketSize ≤ defaultArenaSize := by decide
    split
    · omega
    · exact hdef
  have hsame : ctx' = ctx.on ctx'.simdOps ctx'.arena ∧
      maxPacketSize ≤ ctx.arena.size ∧ maxPacketSize ≤ ctx'.arena.size := by
    simp only [ctxCreate] at h h'
    rw [hflags, hring] at h'
    split at h
    · cases h
    · next hok =>
      rw [if_neg hok] at h'
      rw [← Option.some.inj h, ← Option.some.inj h']
      exact ⟨rfl, hsizes _ harena, hsizes _ harena'⟩
  refine ⟨?_, unigramCountsOn_eq _⟩
  obtain ⟨replies, replies', ctx₁, a, hrun, hrun', hviews⟩ := run_on ctx'.simdOps calls hwf hsame.2.1 hsame.2.2
  rw [← hsame.1] at hrun'
  exact ⟨replies, replies', ctx₁, _, hrun, hrun', hviews, rfl⟩

/-- A processor with AVX2 and a small arena beside one without: of the second packet, of the size of the first,
both take residuals, the one in registers of 32 bytes. -/
theorem host_independent_avx2 : ∃ ctx', ctxCreate ⟨true, true, false, true, true, false⟩ none
      ⟨CfgFlag.stateful ||| CfgFlag.delta, 0, 3, 65535⟩ (fun _ => 9) = some ctx' ∧ ctx'.simdOps = .avx2 ∧
    ∃ replies replies' ctx₁ ctx₁',
      run (newCtx none (CfgFlag.stateful ||| CfgFlag.delta))
          [.compress (List.replicate 40 1) .empty 64 0, .compress (List.replicate 40 2) .empty 64 0]
        = .ok (replies, ctx₁) ∧
      run ctx' [.compress (List.replicate 40 1) .empty 64 0, .compress (List.replicate 40 2) .empty 64 0]
        = .ok (replies', ctx₁') ∧
      replies'.map Reply.view = replies.map Reply.view := by
  have hs : CfgFlag.has (CfgFlag.stateful ||| CfgFlag.delta) CfgFlag.stateful = true := by decide
  refine ⟨_, rfl, rfl, ?_⟩
  obtain ⟨replies, replies', ctx₁, ctx₁', h1, h2, h3, -⟩ := (host_independent (by simp) (newCtx_create none hs)
    (show ctxCreate ⟨true, true, false, true, true, false⟩ none ⟨CfgFlag.stateful ||| CfgFlag.delta, 0, 3, 65535⟩
      (fun _ => 9) = some _ from rfl) rfl rfl (.inl rfl) (.inr (by decide))
    [.compress (List.replicate 40 1) .empty 64 0, .compress (List.replicate 40 2) .empty 64 0]).1
  exact ⟨replies, replies', ctx₁, ctx₁', h1, h2, h3⟩

end Netc
