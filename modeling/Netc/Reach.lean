/-
# Sequences of calls

The calls a program makes on a context, one after another, each with the
buffers it passes. Whatever the calls and the packets, a context keeps its
invariant and no call makes an access out of range (`run_wf`), so that what is
proved of well-formed contexts holds of every context a program can have.

Key definitions: `Call`, `step`, `run`, `Reachable`, `Kin`.
Key theorems: `compress_wf`, `step_wf`, `run_wf`, `Reachable.wf`, `decompress_inBounds`.
-/
import Netc.DecompressSpec
import Netc.Compress

namespace Netc

/-! ### Calls -/

/-- A call on a context, with the buffers of the caller: `netc_compress`,
`netc_decompress` or `netc_ctx_reset`. -/
inductive Call where
  | compress (src : List UInt8) (dst : Out) (dstCap dstSize : ℕ)
  | decompress (src : List UInt8) (dst : Out) (dstCap dstSize : ℕ)
  | reset

/-- What the caller gets back; a reset gives nothing. -/
abbrev Reply := Option StatelessRet

/-- One call. -/
def step (ctx : Ctx) : Call → Chk (Reply × Ctx)
  | .compress src dst dstCap dstSize =>
    let r := compress ctx src dst dstCap dstSize
    .ok (some ⟨r.code, r.dst, r.dstSize⟩, r.ctx)
  | .decompress src dst dstCap dstSize => do
    let r ← decompress ctx src dst dstCap dstSize
    return (some ⟨r.code, r.dst, r.dstSize⟩, r.ctx)
  | .reset => .ok (none, ctxReset ctx)

/-- Calls one after another. -/
def run : Ctx → List Call → Chk (List Reply × Ctx)
  | ctx, [] => .ok ([], ctx)
  | ctx, c :: calls => do
    let (reply, ctx) ← step ctx c
    let (replies, ctx) ← run ctx calls
    return (reply :: replies, ctx)

/-- `netc_dict_train` gave this dictionary. -/
def Trained (d : Dict) : Prop := ∃ packets modelId, dictTrain packets modelId = .ok d

/-- A context that `netc_ctx_create` made, with a trained dictionary or none. -/
def Created (ctx : Ctx) : Prop :=
  ∃ pf dict cfg junk, (∀ d, dict = some d → Trained d) ∧ ctxCreate pf dict cfg junk = some ctx

/-- A context after calls of every kind and order. -/
def Reachable (ctx : Ctx) : Prop := ∃ ctx₀ calls replies, Created ctx₀ ∧ run ctx₀ calls = .ok (replies, ctx)

/-- The first call of a run, and the rest. -/
theorem run_cons_eq_ok {c : Call} {calls : List Call} {ctx ctx' : Ctx} {replies : List Reply}
    (h : run ctx (c :: calls) = .ok (replies, ctx')) :
    ∃ reply ctx₁ replies₁, step ctx c = .ok (reply, ctx₁) ∧ run ctx₁ calls = .ok (replies₁, ctx') ∧
      replies = reply :: replies₁ := by
  rw [run] at h
  obtain ⟨⟨reply, ctx₁⟩, h1, h2⟩ := Exc.bind_eq_ok h
  obtain ⟨⟨replies₁, ctx₂⟩, h3, h4⟩ := Exc.bind_eq_ok h2
  simp only [Exc.pure_eq, Except.ok.injEq, Prod.mk.injEq] at h4
  obtain ⟨rfl, rfl⟩ := h4
  exact ⟨reply, ctx₁, replies₁, h1, h3, rfl⟩

theorem run_append : ∀ {calls rest : List Call} {ctx ctx' ctx'' : Ctx} {replies replies' : List Reply},
    run ctx calls = .ok (replies, ctx') → run ctx' rest = .ok (replies', ctx'') →
    run ctx (calls ++ rest) = .ok (replies ++ replies', ctx'')
  | [], rest, ctx, ctx', ctx'', replies, replies', h, h' => by
    simp only [run, Except.ok.injEq, Prod.mk.injEq] at h
    obtain ⟨rfl, rfl⟩ := h
    exact h'
  | c :: calls, rest, ctx, ctx', ctx'', replies, replies', h, h' => by
    obtain ⟨reply, ctx₁, replies₁, h1, h2, rfl⟩ := run_cons_eq_ok h
    simp only [List.cons_append, run, h1, Exc.ok_bind, run_append h2 h', Exc.pure_eq]

/-! ### The invariant along calls -/

section Wf

variable {ctx : Ctx}

/-- The arena and the sequence number are not part of the invariant. -/
theorem Ctx.Wf.withArena (h : ctx.Wf) (seq : UInt8) (arena : Block) :
    { ctx with contextSeq := seq, arena := arena }.Wf :=
  ⟨h.dict, h.prev, h.prev_le, h.prev_none, h.prev2, h.ring, h.tables, h.lzp⟩

theorem exitFinish_wf (h : ctx.Wf) {src : List UInt8} (hlen : src.length ≤ maxPacketSize) (b : Blocked) (e : Exit) :
    (exitFinish ctx src b e).ctx.Wf :=
  ((((h.withArena _ b.arena).appendRing src).updatePrev hlen).tally _).learn src

theorem passthruFinish_wf (h : ctx.Wf) {src : List UInt8} (hlen : src.length ≤ maxPacketSize) (b : Blocked)
    (dstCap dstSize : ℕ) : (passthruFinish ctx src b dstCap dstSize).ctx.Wf := by
  have h' := ((h.withArena (ctx.contextSeq + 1) b.arena).updatePrev hlen).appendRing src
  rw [passthruFinish]
  split
  · exact (h'.tally _).learn src
  · exact h'

/-- **Compression keeps the invariant.** -/
theorem compress_wf (h : ctx.Wf) (src : List UInt8) (dst : Out) (dstCap dstSize : ℕ) :
    (compress ctx src dst dstCap dstSize).ctx.Wf := by
  rw [compress]
  split
  · exact h
  · next hlen =>
    split
    · exact h
    · simp only
      split
      · exact exitFinish_wf h (not_lt.mp hlen) _ _
      · exact passthruFinish_wf h (not_lt.mp hlen) _ _ _

theorem decompFinish_wf (h : ctx.Wf) (hdr : PktHeader) (srcSize : ℕ) {data : List UInt8}
    (hlen : data.length ≤ maxPacketSize) : (decompFinish ctx hdr srcSize data).Wf := by
  have h' := ((h.updatePrev hlen).appendRing data).tally fun s => { s with
    packetsDecompressed := (s.packetsDecompressed + 1) % 2 ^ 64
    bytesIn := (s.bytesIn + srcSize) % 2 ^ 64
    bytesOut := (s.bytesOut + data.length) % 2 ^ 64
    passthroughCount :=
      if algId hdr.algorithm = Alg.passthru then (s.passthroughCount + 1) % 2 ^ 64 else s.passthroughCount }
  exact (h'.withArena (hdr.contextSeq + 1) _).learn data

/-- **Decompression makes no access out of range and keeps the invariant**, whatever the packet says. -/
theorem decompress_wf (h : ctx.Wf) (src : List UInt8) (dst : Out) (dstCap dstSize : ℕ) :
    ∃ r, decompress ctx src dst dstCap dstSize = .ok r ∧ r.ctx.Wf := by
  rcases decompress_cases h src dstCap with ⟨code, -, hrun⟩ | ⟨hdr, payload, ws, code, hp, -, ⟨-, hrun⟩ | ⟨-, hrun⟩⟩
  · exact ⟨_, hrun dst dstSize, h⟩
  · exact ⟨_, hrun dst dstSize, h⟩
  · obtain ⟨dst', -, hrun⟩ := hrun dst dstSize
    exact ⟨_, hrun, decompFinish_wf h hdr src.length (by rw [Out.length_read]; exact hp.size_le)⟩

/-- Every call ends and keeps the invariant. -/
theorem step_wf (h : ctx.Wf) (c : Call) : ∃ reply ctx', step ctx c = .ok (reply, ctx') ∧ ctx'.Wf := by
  cases c with
  | compress src dst dstCap dstSize => exact ⟨_, _, rfl, compress_wf h src dst dstCap dstSize⟩
  | decompress src dst dstCap dstSize =>
    obtain ⟨r, hr, hwf⟩ := decompress_wf h src dst dstCap dstSize
    exact ⟨_, _, by simp only [step, hr, Exc.ok_bind, Exc.pure_eq]; rfl, hwf⟩
  | reset => exact ⟨_, _, rfl, ctxReset_wf h⟩

theorem Ctx.Wf.step {ctx' : Ctx} (h : ctx.Wf) {c : Call} {reply : Reply} (hstep : Netc.step ctx c = .ok (reply, ctx')) :
    ctx'.Wf := by
  obtain ⟨reply₁, ctx₁, h1, hwf⟩ := step_wf h c
  rw [hstep, Except.ok.injEq, Prod.mk.injEq] at h1
  rw [h1.2]
  exact hwf

/-- **So does every sequence of calls.** -/
theorem run_wf : ∀ {ctx : Ctx} (calls : List Call), ctx.Wf →
    ∃ replies ctx', run ctx calls = .ok (replies, ctx') ∧ ctx'.Wf
  | ctx, [], h => ⟨[], ctx, rfl, h⟩
  | ctx, c :: calls, h => by
    obtain ⟨reply, ctx₁, h1, hwf⟩ := step_wf h c
    obtain ⟨replies, ctx₂, h2, hwf'⟩ := run_wf calls hwf
    exact ⟨_, _, by simp only [run, h1, h2, Exc.ok_bind, Exc.pure_eq]; rfl, hwf'⟩

theorem Ctx.Wf.run {ctx' : Ctx} (h : ctx.Wf) {calls : List Call} {replies : List Reply}
    (hrun : Netc.run ctx calls = .ok (replies, ctx')) : ctx'.Wf := by
  obtain ⟨replies₁, ctx₁, hrun₁, hwf⟩ := run_wf calls h
  rw [hrun, Except.ok.injEq, Prod.mk.injEq] at hrun₁
  rw [hrun₁.2]
  exact hwf

end Wf

/-! ### What a context keeps of its creation -/

/-- Contexts of one make: the same dictionary and configuration, and the same buffers as far as there are any and how
long they are. -/
structure Kin (ctx ctx' : Ctx) : Prop where
  dict : ctx'.dict = ctx.dict
  flags : ctx'.flags = ctx.flags
  simdOps : ctx'.simdOps = ctx.simdOps
  arena : ctx'.arena.size = ctx.arena.size
  ring : ctx'.ring.map Block.size = ctx.ring.map Block.size
  ringPos : ctx.ring = none → ctx'.ringPos = ctx.ringPos
  prevPkt : ctx'.prevPkt.isSome = ctx.prevPkt.isSome
  prev2Pkt : ctx'.prev2Pkt.isSome = ctx.prev2Pkt.isSome
  prev2PktSize : ctx.prev2Pkt = none → ctx'.prev2PktSize = ctx.prev2PktSize
  adapt : ctx'.adapt.isSome = ctx.adapt.isSome
  adaptLzp : ctx'.adaptLzp.isSome = ctx.adaptLzp.isSome
  adaptPktCount : ctx.adapt = none → ctx'.adaptPktCount = ctx.adaptPktCount

theorem Kin.refl (ctx : Ctx) : Kin ctx ctx :=
  ⟨rfl, rfl, rfl, rfl, rfl, fun _ => rfl, rfl, rfl, fun _ => rfl, rfl, rfl, fun _ => rfl⟩

section Kin

variable {ctx ctx' ctx'' : Ctx}

theorem isNone_of_isSome_eq {α : Type} {a b : Option α} (h : a.isSome = b.isSome) : a = none ↔ b = none := by
  rw [← Option.isNone_iff_eq_none, ← Option.isNone_iff_eq_none, ← Option.not_isSome, ← Option.not_isSome, h]

theorem Kin.ring_none (h : Kin ctx ctx') : ctx'.ring = none ↔ ctx.ring = none := by
  have := congrArg Option.isSome h.ring
  simp only [Option.isSome_map] at this
  exact isNone_of_isSome_eq this

theorem Kin.trans (h : Kin ctx ctx') (h' : Kin ctx' ctx'') : Kin ctx ctx'' where
  dict := h'.dict.trans h.dict
  flags := h'.flags.trans h.flags
  simdOps := h'.simdOps.trans h.simdOps
  arena := h'.arena.trans h.arena
  ring := h'.ring.trans h.ring
  ringPos hn := (h'.ringPos (h.ring_none.mpr hn)).trans (h.ringPos hn)
  prevPkt := h'.prevPkt.trans h.prevPkt
  prev2Pkt := h'.prev2Pkt.trans h.prev2Pkt
  prev2PktSize hn := (h'.prev2PktSize ((isNone_of_isSome_eq h.prev2Pkt).mpr hn)).trans (h.prev2PktSize hn)
  adapt := h'.adapt.trans h.adapt
  adaptLzp := h'.adaptLzp.trans h.adaptLzp
  adaptPktCount hn := (h'.adaptPktCount ((isNone_of_isSome_eq h.adapt).mpr hn)).trans (h.adaptPktCount hn)

theorem kin_updatePrev (ctx : Ctx) (data : List UInt8) : Kin ctx (ctx.updatePrev data) := by
  obtain ⟨h1, h2, h3, h4, h5, h6, h7, h8, h9, h10, h11, h12⟩ := Kin.refl ctx
  rw [Ctx.updatePrev]
  rcases hp : ctx.prevPkt with _ | prev
  · exact Kin.refl ctx
  · rcases hp2 : ctx.prev2Pkt with _ | prev2
    · exact ⟨h1, h2, h3, h4, h5, h6, by simp only [hp, Option.isSome_some], h8, h9, h10, h11, h12⟩
    · exact ⟨h1, h2, h3, h4, h5, h6, by simp only [hp, Option.isSome_some], by simp only [hp2, Option.isSome_some],
        by simp only [hp2, reduceCtorEq, false_imp_iff], h10, h11, h12⟩

theorem kin_appendRing (ctx : Ctx) (data : List UInt8) : Kin ctx (ctx.appendRing data) := by
  obtain ⟨h1, h2, h3, h4, h5, h6, h7, h8, h9, h10, h11, h12⟩ := Kin.refl ctx
  rw [Ctx.appendRing]
  rcases hr : ctx.ring with _ | ring
  · exact Kin.refl ctx
  · exact ⟨h1, h2, h3, h4, by simp only [hr, Option.map_some, ringAppend_size],
      by simp only [hr, reduceCtorEq, false_imp_iff], h7, h8, h9, h10, h11, h12⟩

theorem kin_tally (ctx : Ctx) (f : Stats → Stats) : Kin ctx (ctx.tally f) := by
  obtain ⟨h1, h2, h3, h4, h5, h6, h7, h8, h9, h10, h11, h12⟩ := Kin.refl ctx
  rw [Ctx.tally]
  split <;> exact ⟨h1, h2, h3, h4, h5, h6, h7, h8, h9, h10, h11, h12⟩

theorem kin_withSeq (ctx : Ctx) (seq : UInt8) {arena : Block} (h : arena.size = ctx.arena.size) :
    Kin ctx { ctx with contextSeq := seq, arena := arena } := by
  obtain ⟨h1, h2, h3, h4, h5, h6, h7, h8, h9, h10, h11, h12⟩ := Kin.refl ctx
  exact ⟨h1, h2, h3, h, h5, h6, h7, h8, h9, h10, h11, h12⟩

/-- A reset makes a context of the same make. -/
theorem kin_ctxReset (ctx : Ctx) : Kin ctx (ctxReset ctx) := by
  refine ⟨rfl, rfl, rfl, rfl, ?_, fun hn => ?_, ?_, ?_, fun hn => ?_, ?_, ?_, fun hn => ?_⟩
  · simp only [ctxReset, Option.map_map]
    rfl
  · simp [ctxReset, hn]
  · simp only [ctxReset, Option.isSome_map]
  · simp only [ctxReset, Option.isSome_map]
  · simp [ctxReset, hn]
  · simp only [ctxReset, Option.isSome_map]
  · simp only [ctxReset]
    split
    · split
      · next h _ =>
        rw [h]
        rfl
      · rfl
    · rfl
  · simp [ctxReset, hn]

theorem kin_learn (ctx : Ctx) (data : List UInt8) : Kin ctx (ctx.learn data) := by
  obtain ⟨h1, h2, h3, h4, h5, h6, h7, h8, h9, h10, h11, h12⟩ := Kin.refl ctx
  simp only [Ctx.learn, Ctx.adaptiveUpdate]
  rcases ha : ctx.adapt with _ | a
  · exact ⟨h1, h2, h3, h4, h5, h6, h7, h8, h9, h10, by simp [lzpAdaptiveUpdate], h12⟩
  · simp only
    split
    · exact ⟨h1, h2, h3, h4, h5, h6, h7, h8, h9, by simp only [ha, Option.isSome_some], by simp [lzpAdaptiveUpdate],
        by simp only [ha, reduceCtorEq, false_imp_iff]⟩
    · exact ⟨h1, h2, h3, h4, h5, h6, h7, h8, h9, by simp only [ha, Option.isSome_some], by simp [lzpAdaptiveUpdate],
        by simp only [ha, reduceCtorEq, false_imp_iff]⟩

theorem kin_decompFinish (ctx : Ctx) (hdr : PktHeader) (n : ℕ) (data : List UInt8) :
    Kin ctx (decompFinish ctx hdr n data) := by
  rw [decompFinish]
  refine Kin.trans ?_ (kin_learn _ data)
  exact (((kin_updatePrev ctx data).trans (kin_appendRing _ data)).trans (kin_tally _ _)).trans (kin_withSeq _ _ rfl)

end Kin

theorem Trained.sound {d : Dict} (h : Trained d) : d.Sound := by
  obtain ⟨packets, modelId, h⟩ := h
  exact dictTrain_sound h

theorem Created.wf {ctx : Ctx} (h : Created ctx) : ctx.Wf := by
  obtain ⟨pf, dict, cfg, junk, hd, hc⟩ := h
  exact ctxCreate_wf (fun d hdict => (hd d hdict).sound) hc

theorem Reachable.wf {ctx : Ctx} (h : Reachable ctx) : ctx.Wf := by
  obtain ⟨ctx₀, calls, replies, hc, hrun⟩ := h
  exact hc.wf.run hrun

theorem Created.reachable {ctx : Ctx} (h : Created ctx) : Reachable ctx := ⟨ctx, [], [], h, rfl⟩

/-! ### Bounds -/

/-- A call on packet `src` changed the buffer `dst` to `dst'` in the bytes of the
packet only, and these lie within the capacity. -/
def InBounds (src : List UInt8) (dstCap : ℕ) (compact : Bool) (dst dst' : Out) : Prop :=
  dst' = dst ∨ ∃ hdr n, validateHeader src dstCap compact = .ok (.ok (hdr, n)) ∧ hdr.originalSize ≤ dstCap ∧
    dst'.top ≤ max dst.top hdr.originalSize ∧ ∀ i, hdr.originalSize ≤ i → dst'.byte i = dst.byte i

theorem Writes.Within.mono {n m : ℕ} {ws : Writes} (h : ws.Within n) (hnm : n ≤ m) : ws.Within m :=
  fun w hw => (h w hw).trans hnm

/-- Writes within `n` change nothing behind it. -/
theorem applyWrites_within {n : ℕ} {ws : Writes} (h : ws.Within n) (dst : Out) :
    (dst.applyWrites 0 ws).top ≤ max dst.top n ∧ ∀ i, n ≤ i → (dst.applyWrites 0 ws).byte i = dst.byte i := by
  refine ⟨?_, fun i hi => Out.applyWrites_of_not_covers ?_⟩
  · have := @Out.applyWrites_top_le 0 (max dst.top n) _ dst (by omega) (h.mono (le_max_right _ _))
    omega
  · rintro ⟨w, hw, -, hlt⟩
    have := h w hw
    omega

/-- A pass in place after writes within `n` changes nothing behind it either. -/
theorem InPlace.within {n : ℕ} {f : List UInt8 → List UInt8} {pass : Out → Chk Out} (hpass : InPlace n f pass)
    {ws : Writes} (h : ws.Within n) {dst dst' : Out} (hrun : pass (dst.applyWrites 0 ws) = .ok dst') :
    dst'.top ≤ max dst.top n ∧ ∀ i, n ≤ i → dst'.byte i = dst.byte i := by
  obtain ⟨d, h1, -, h3, h4⟩ := hpass (dst.applyWrites 0 ws)
  obtain ⟨h5, h6⟩ := applyWrites_within h dst
  rw [hrun, Except.ok.injEq] at h1
  subst h1
  exact ⟨by omega, fun i hi => (h3 i hi).trans (h6 i hi)⟩

theorem decompress_inBounds_of_wf {ctx : Ctx} (h : ctx.Wf) (src : List UInt8) (dst : Out) (dstCap dstSize : ℕ) :
    ∃ r, decompress ctx src dst dstCap dstSize = .ok r ∧ InBounds src dstCap ctx.compactMode dst r.dst := by
  rcases decompress_cases h src dstCap with ⟨code, -, hrun⟩ | ⟨hdr, payload, ws, code, hp, hd, hrun⟩
  · exact ⟨_, hrun dst dstSize, .inl rfl⟩
  · obtain ⟨h0, n, hv, rfl, -⟩ := hp.header
    rcases hrun with ⟨-, hrun⟩ | ⟨-, hrun⟩
    · exact ⟨_, hrun dst dstSize, .inr ⟨h0, n, hv, by simpa using hp.cap_le,
        by simpa using applyWrites_within hd.within dst⟩⟩
    · obtain ⟨dst', hu, hrun⟩ := hrun dst dstSize
      exact ⟨_, hrun, .inr ⟨h0, n, hv, by simpa using hp.cap_le,
        by simpa using (undoTransforms_spec h hp.size_le).within hd.within hu⟩⟩

theorem decompressStateless_inBounds_of_sound {d : Dict} (h : d.Sound) (src : List UInt8) (dst : Out)
    (dstCap dstSize : ℕ) :
    ∃ r, decompressStateless d src dst dstCap dstSize = .ok r ∧ InBounds src dstCap false dst r.dst := by
  rcases decompressStateless_cases h src dstCap with ⟨code, -, hrun⟩ | ⟨hdr, payload, ws, code, hp, hd, hrun⟩
  · exact ⟨_, hrun dst dstSize, .inl rfl⟩
  · obtain ⟨n, hv, -⟩ := hp.header
    rcases hrun with ⟨-, hrun⟩ | ⟨-, hrun⟩
    · exact ⟨_, hrun dst dstSize, .inr ⟨hdr, n, hv, hp.cap_le, applyWrites_within hd.within dst⟩⟩
    · obtain ⟨dst', hu, hrun⟩ := hrun dst dstSize
      exact ⟨_, hrun, .inr ⟨hdr, n, hv, hp.cap_le, (statelessUndo_spec d hdr).within hd.within hu⟩⟩

/-- **Hostile packets stay in bounds.** Whatever the packet, no load, store or
table index of `netc_decompress` or `netc_decompress_stateless` is out of range, and
the buffer is written below the packet's `original_size` only. -/
theorem decompress_inBounds :
    (∀ ctx, Reachable ctx → ∀ src dst dstCap dstSize, ∃ r, decompress ctx src dst dstCap dstSize = .ok r ∧
      InBounds src dstCap ctx.compactMode dst r.dst) ∧
    (∀ d, Trained d → ∀ src dst dstCap dstSize, ∃ r, decompressStateless d src dst dstCap dstSize = .ok r ∧
      InBounds src dstCap false dst r.dst) :=
  ⟨fun _ h => decompress_inBounds_of_wf h.wf, fun _ h => decompressStateless_inBounds_of_sound h.sound⟩

/-- A processor without vector units. -/
def scalarPlatform : Platform := ⟨false, false, false, false, false, false⟩

/-- A new context with these flags and the default sizes. -/
def newCtx (dict : Option Dict) (flags : UInt32) : Ctx where
  dict := dict
  flags := flags
  simdOps := .generic
  ring := some (.zero defaultRingSize)
  ringPos := 0
  prevPkt := some (.zero maxPacketSize)
  prevPktSize := 0
  prev2Pkt := if CfgFlag.has flags CfgFlag.adaptive then some (.zero maxPacketSize) else none
  prev2PktSize := 0
  contextSeq := 0
  arena := ⟨defaultArenaSize, fun _ => 0⟩
  stats := .zero
  adapt := if CfgFlag.has flags CfgFlag.adaptive then some (.fresh dict) else none
  adaptLzp := if CfgFlag.has flags CfgFlag.adaptive then (dict.bind Dict.lzpTable).map boostLzp else none
  adaptPktCount := 0

theorem newCtx_create (dict : Option Dict) {flags : UInt32} (h : CfgFlag.has flags CfgFlag.stateful = true) :
    ctxCreate scalarPlatform dict ⟨flags, 0, 0, 0⟩ (fun _ => 0) = some (newCtx dict flags) := by
  have hsimd : simdOpsInit scalarPlatform (UInt8.toNat 0) = .generic := by decide
  simp only [ctxCreate, h, Bool.not_true, Bool.and_false, Bool.false_eq_true, if_false, Nat.lt_irrefl, if_true,
    hsimd, newCtx]

theorem newCtx_created {dict : Option Dict} (hd : ∀ d, dict = some d → Trained d) {flags : UInt32}
    (h : CfgFlag.has flags CfgFlag.stateful = true) : Created (newCtx dict flags) :=
  ⟨scalarPlatform, dict, ⟨flags, 0, 0, 0⟩, fun _ => 0, hd, newCtx_create dict h⟩

theorem newCtx_reachable {dict : Option Dict} (hd : ∀ d, dict = some d → Trained d) {flags : UInt32}
    (h : CfgFlag.has flags CfgFlag.stateful = true) : Reachable (newCtx dict flags) := (newCtx_created hd h).reachable

/-- Without a dictionary. -/
theorem plain_reachable {flags : UInt32} (h : CfgFlag.has flags CfgFlag.stateful = true) :
    Reachable (newCtx none flags) := newCtx_reachable (by simp) h

/-- An empty buffer. -/
def Out.empty : Out := ⟨fun _ => 0, 0⟩

/-- A passthrough packet of one byte, with the eight-byte header. -/
def plainPacket : List UInt8 := [1, 0, 1, 0, 0x0C, 0xFF, 0, 0, 42]

/-- An LZ77 packet of two bytes whose stream ends after the first, with the eight-byte header. -/
def cutPacket : List UInt8 := [2, 0, 2, 0, 0x84, 0xFF, 0, 0, 0, 42]

/-- After a packet was taken in, the decoder gives up in the midst of the cut one, with its first byte written. -/
theorem decompress_cut (dstSize : ℕ) : ∃ replies ctx r,
    run (newCtx none CfgFlag.stateful) [.decompress plainPacket .empty 1 0] = .ok (replies, ctx) ∧
    ctx.prevPktSize = 1 ∧ decompress ctx cutPacket .empty 2 dstSize = .ok r ∧ r.code = .errCorrupt ∧
    r.dst.read 1 = [42] :=
  ⟨_, _, _, rfl, rfl, rfl, rfl, rfl⟩

/-- The cut packet after another, and for the stateless decoder. -/
theorem decompress_inBounds_cut :
    (∃ replies ctx r, run (newCtx none CfgFlag.stateful) [.decompress plainPacket .empty 1 0] = .ok (replies, ctx) ∧
      decompress ctx cutPacket .empty 2 0 = .ok r ∧ r.code = .errCorrupt ∧ r.dst.read 1 = [42] ∧
      InBounds cutPacket 2 ctx.compactMode .empty r.dst) ∧
    ∃ d r, dictTrain [[1, 2, 3], [1, 2]] 1 = .ok d ∧ decompressStateless d cutPacket .empty 2 0 = .ok r ∧
      r.code = .errCorrupt ∧ InBounds cutPacket 2 false .empty r.dst := by
  obtain ⟨hctx, hdict⟩ := decompress_inBounds
  constructor
  · obtain ⟨replies, ctx, r, hrun, -, hr, hcode, hread⟩ := decompress_cut 0
    obtain ⟨r', hr', hin⟩ := hctx ctx ⟨_, _, _, newCtx_created (by simp) (by decide), hrun⟩ cutPacket .empty 2 0
    rw [hr, Except.ok.injEq] at hr'
    rw [← hr'] at hin
    exact ⟨replies, ctx, r, hrun, hr, hcode, hread, hin⟩
  · obtain ⟨d, hd⟩ := @dictTrain_ok [[1, 2, 3], [1, 2]] 1 (by decide)
    obtain ⟨r, hr, hin⟩ := hdict d ⟨_, _, hd⟩ cutPacket .empty 2 0
    refine ⟨d, r, hd, hr, ?_, hin⟩
    have hcode : (decompressStateless d cutPacket .empty 2 0).map StatelessRet.code = .ok .errCorrupt := rfl
    rw [hr] at hcode
    exact Except.ok.inj hcode

end Netc
