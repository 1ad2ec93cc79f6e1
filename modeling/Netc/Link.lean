/-
# Two parties on a connection

Each side of a connection has one context, for what it sends and for what it receives. Packets are under way
for some time and arrive in order; or one is lost, or something arrives that was never sent. Both sides may
reset their contexts and start anew.

Whatever happens, `netc_decompress` makes no access out of range, and a call that has room for a header stays in
its buffer (`Link.InBuffer`). As long as nothing was lost, nothing foreign was taken in, no side sent while packets
were under way to it, and no packet left with less room than `netc_compress_bound` asks for or in a form that
does not keep it (`Link.clean`), what arrives is what was sent, in order and once, and with nothing under way
the two contexts agree. A packet that is refused costs nothing, and whatever happened before, a reset on both
sides makes the connection clean again (`link_safe`).

Key definitions: `Link`, `Event`, `Link.step`, `Link.run`, `Link.InBuffer`, `Reads`, `Link.Sound`.
Key theorems: `reads_wire`, `Link.Sound.step`, `Link.Sound.inBuffer`, `link_safe`.
-/
import Netc.History
import Netc.Capacity
import Netc.Lib.Channel

namespace Netc

/-! ### Connections -/

/-- The sides of a connection. -/
inductive Side where
  | left
  | right
  deriving DecidableEq, Repr

/-- The other side. -/
def Side.other : Side → Side
  | .left => .right
  | .right => .left

/-- The contexts of both sides. -/
def sides (left right : Ctx) : Side → Ctx
  | .left => left
  | .right => right

/-- A packet of two states has an even size, so that it is kept. -/
def keepsX2 (pkt : List UInt8) : Bool :=
  match hdrRead pkt with
  | .ok hdr => !PktFlag.has hdr.flags PktFlag.x2 || hdr.originalSize % 2 == 0
  | .error _ => true

/-- A connection since its last reset: the contexts, the packets under way with the side that sent them,
what was sent and what was given to the other side, and whether all went well. -/
structure Link where
  ctx : Side → Ctx
  flight : List (Side × List UInt8)
  sent : List (Side × List UInt8)
  given : List (Side × List UInt8)
  clean : Bool

/-- What happens on a connection, with the buffers of the calls. -/
inductive Event where
  /-- A side calls `netc_compress` and sends what it gives. -/
  | send (s : Side) (src : List UInt8) (dst : Out) (dstCap dstSize : ℕ)
  /-- The oldest packet under way is given to `netc_decompress`; if it is refused it can be given again. -/
  | arrive (out : Out) (outCap outSize : ℕ)
  /-- Bytes from anywhere are given to `netc_decompress`: a copy, an old packet, noise. -/
  | stray (s : Side) (pkt : List UInt8) (out : Out) (outCap outSize : ℕ)
  /-- A packet under way is lost. -/
  | lose (i : ℕ)
  /-- Both sides call `netc_ctx_reset` and what is under way is dropped. -/
  | resync

namespace Link

/-- A new connection. -/
def new (ctx : Side → Ctx) : Link := ⟨ctx, [], [], [], true⟩

/-- The context of one side changes. -/
def withCtx (l : Link) (s : Side) (ctx : Ctx) : Link := { l with ctx := Function.update l.ctx s ctx }

/-- One event. -/
def step (l : Link) : Event → Chk Link
  | .send s src dst dstCap dstSize =>
    let r := compress (l.ctx s) src dst dstCap dstSize
    let pkt := r.dst.read r.dstSize
    let l := { l.withCtx s r.ctx with clean := l.clean && decide (compressBound src.length ≤ dstCap) }
    if r.code = .ok then
      .ok { l with
        flight := l.flight ++ [(s, pkt)]
        sent := l.sent ++ [(s, src)]
        clean := l.clean && l.flight.all (fun f => f.1 = s) && keepsX2 pkt }
    else .ok l
  | .arrive out outCap outSize =>
    match l.flight with
    | [] => .ok l
    | (s, pkt) :: flight => do
      let r ← decompress (l.ctx s.other) pkt out outCap outSize
      let l := l.withCtx s.other r.ctx
      if r.code = .ok then return { l with flight := flight, given := l.given ++ [(s, r.dst.read r.dstSize)] }
      else return l
  | .stray s pkt out outCap outSize => do
    let r ← decompress (l.ctx s) pkt out outCap outSize
    return { l.withCtx s r.ctx with clean := l.clean && decide (r.code ≠ .ok) }
  | .lose i => .ok { l with flight := l.flight.eraseIdx i, clean := l.clean && decide (l.flight.length ≤ i) }
  | .resync => .ok (new fun s => ctxReset (l.ctx s))

/-- The call of an event stays in its buffer: `netc_compress` writes below `dst_cap`, unless this is less than
a header and yet not turned down, and `netc_decompress` writes the bytes of the packet only, and these where
there is room. -/
def InBuffer (l : Link) : Event → Prop
  | .send s src dst dstCap dstSize => dstCap < compactHdrMin ∨ headerSize ≤ dstCap → dst.top ≤ dstCap →
    (compress (l.ctx s) src dst dstCap dstSize).dst.top ≤ dstCap
  | .arrive out outCap outSize => ∀ f ∈ l.flight.head?,
    ∃ r, decompress (l.ctx f.1.other) f.2 out outCap outSize = .ok r ∧ InBounds f.2 outCap false out r.dst
  | .stray s pkt out outCap outSize =>
    ∃ r, decompress (l.ctx s) pkt out outCap outSize = .ok r ∧ InBounds pkt outCap false out r.dst
  | .lose _ => True
  | .resync => True

/-- Events one after another. -/
def run : Link → List Event → Chk Link
  | l, [] => .ok l
  | l, e :: events => do
    let l ← l.step e
    l.run events

end Link

/-! ### What a packet is read as -/

/-- Every context that agrees with this one gives the packet `p` for `pkt` where there is room for it, and
refuses it where there is not. -/
def Reads (ctx : Ctx) (pkt p : List UInt8) : Prop :=
  p.length ≤ maxPacketSize ∧ ∀ dec, dec.Wf → Agree ctx dec → ∀ out outCap outSize,
    (p.length ≤ outCap → ∃ r, decompress dec pkt out outCap outSize = .ok r ∧ r.code = .ok ∧
      r.dst.read r.dstSize = p ∧ Agree (ctx.absorb p) r.ctx) ∧
    (outCap < p.length → ∃ r, decompress dec pkt out outCap outSize = .ok r ∧ r.code ≠ .ok)

/-- The contexts of both sides as copies of one state. -/
def ctxCodec : Channel.Codec Ctx (List UInt8) (List UInt8) where
  same := Agree
  absorb := Ctx.absorb
  reads := Reads
  refl := Agree.refl
  symm := Agree.symm
  trans := Agree.trans
  absorb_same h p := h.absorb p
  reads_same h _ _ hr := by
    refine ⟨hr.1, fun dec hwf hagree out outCap outSize => ?_⟩
    obtain ⟨h1, h2⟩ := hr.2 dec hwf (h.trans hagree) out outCap outSize
    refine ⟨fun hcap => ?_, h2⟩
    obtain ⟨r, hrun, hcode, hread, hctx⟩ := h1 hcap
    exact ⟨r, hrun, hcode, hread, (h.symm.absorb _).trans hctx⟩

section Reads

variable {enc : Ctx} {src : List UInt8} {dstCap : ℕ}

/-- Without room for the packet it is refused. -/
theorem decompress_no_room {dec : Ctx} (hm : dec.compactMode = false) {pkt : List UInt8} {hdr : PktHeader}
    (hread : hdrRead pkt = .ok hdr) {outCap : ℕ} (hcap : outCap < hdr.originalSize) (out : Out) (outSize : ℕ) :
    ∃ r, decompress dec pkt out outCap outSize = .ok r ∧ r.code ≠ .ok := by
  have hv : ∃ code, code ≠ .ok ∧ validateHeader pkt outCap dec.compactMode = .ok (.error code) := by
    rw [validateHeader, hm, if_neg (by simp)]
    by_cases hlen : pkt.length < headerSize
    · exact ⟨.errCorrupt, by simp, by rw [if_pos hlen]⟩
    · rw [if_neg hlen, hread, Exc.ok_bind]
      by_cases hmax : maxPacketSize < hdr.originalSize
      · exact ⟨.errCorrupt, by simp, by rw [if_pos hmax, Exc.pure_eq]⟩
      · exact ⟨.errBufSmall, by simp, by rw [if_neg hmax, if_pos hcap, Exc.pure_eq]⟩
  obtain ⟨code, hcode, hv⟩ := hv
  exact ⟨⟨code, out, outSize, dec⟩, by rw [decompress, hv, Exc.ok_bind]; rfl, hcode⟩

/-- **What is sent is read as the packet**, if two states are given an even number of bytes. -/
theorem reads_wire (hwf : enc.Wf) (hm : enc.compactMode = false) (hlen : src.length ≤ maxPacketSize)
    (heven : keepsX2 (wire enc src (plan enc src dstCap)) = true) :
    Reads enc (wire enc src (plan enc src dstCap)) src := by
  have hread := hdrRead_wire hwf hm hlen dstCap
  have hx2 : ∀ p, plan enc src dstCap = some p → PktFlag.has p.flags PktFlag.x2 = true → X2Safe enc src := by
    intro p hp hx2
    rw [keepsX2, hread] at heven
    simp only [wireHeader_originalSize hlen, Bool.or_eq_true, Bool.not_eq_true', beq_iff_eq] at heven
    refine x2Safe_even (heven.resolve_left fun hno => ?_)
    rw [hp] at hno
    exact absurd (hno.symm.trans hx2) (by decide)
  refine ⟨hlen, fun dec hwf' hagree out outCap outSize => ⟨fun hcap => ?_, fun hcap => ?_⟩⟩
  · obtain ⟨dst', hrun, hdst⟩ := wire_received hwf hwf' hagree hlen hcap hx2
      (fun hc => by rw [hm] at hc; cases hc) out outSize
    exact ⟨_, hrun, rfl, hdst, (hagree.absorb src).trans (agree_decompFinish ..)⟩
  · refine decompress_no_room (hagree.compact.trans hm) hread ?_ out outSize
    rwa [wireHeader_originalSize hlen]

end Reads

/-! ### The invariant -/

/-- A context that calls made of the new context `ctx₀`. -/
structure Descends (ctx₀ ctx : Ctx) : Prop extends Rooted ctx₀ ctx where
  kin : Kin ctx₀ ctx

section Descends

variable {ctx₀ ctx ctx' : Ctx}

theorem Descends.step (h : Descends ctx₀ ctx) {c : Call} {reply : Reply} (hstep : step ctx c = .ok (reply, ctx')) :
    Descends ctx₀ ctx' :=
  ⟨h.toRooted.step hstep, h.kin.trans (kin_step hstep)⟩

theorem Descends.compress (h : Descends ctx₀ ctx) (src : List UInt8) (dst : Out) (dstCap dstSize : ℕ) :
    Descends ctx₀ (compress ctx src dst dstCap dstSize).ctx :=
  h.step (show Netc.step ctx (.compress src dst dstCap dstSize) = .ok (_, _) from rfl)

theorem Descends.decompress (h : Descends ctx₀ ctx) {src : List UInt8} {dst : Out} {dstCap dstSize : ℕ}
    {r : DecompressRet} (hr : decompress ctx src dst dstCap dstSize = .ok r) : Descends ctx₀ r.ctx :=
  h.step (show Netc.step ctx (.decompress src dst dstCap dstSize) = .ok (some ⟨r.code, r.dst, r.dstSize⟩, r.ctx) by
    rw [Netc.step, hr]
    rfl)

theorem Created.descends (h : Created ctx₀) : Descends ctx₀ ctx₀ := ⟨h.rooted, Kin.refl ctx₀⟩

theorem Descends.compactMode (h : Descends ctx₀ ctx) : ctx.compactMode = ctx₀.compactMode :=
  congrArg (CfgFlag.has · CfgFlag.compactHdr) h.kin.flags

end Descends

@[simp] theorem Side.other_other (s : Side) : s.other.other = s := by cases s <;> rfl

theorem Side.other_ne (s : Side) : s.other ≠ s := by cases s <;> decide

theorem Side.eq_or_other (s t : Side) : t = s ∨ t = s.other := by cases s <;> cases t <;> decide

/-- Packets are under way from side `s` only; the other side is behind by them, and has been given the rest
of what was sent. -/
def Link.Flows (l : Link) (s : Side) : Prop :=
  ∃ pend, (∀ f ∈ l.flight, f.1 = s) ∧
    Channel.Behind ctxCodec (l.ctx s.other) (l.ctx s) (l.flight.map Prod.snd) pend ∧
    l.sent = l.given ++ pend.map fun p => (s, p)

/-- **The invariant of connections** that began with the new contexts `ctx₀`. -/
structure Link.Sound (ctx₀ : Side → Ctx) (l : Link) : Prop where
  descends : ∀ s, Descends (ctx₀ s) (l.ctx s)
  flows : l.clean = true → ∃ s, l.Flows s

section Invariant

variable {ctx₀ : Side → Ctx} {l l' : Link}

/-- With nothing under way it may be either side's turn. -/
theorem Link.Flows.turn {s t : Side} (h : l.Flows s) (hall : ∀ f ∈ l.flight, f.1 = t) : l.Flows t := by
  rcases hf : l.flight with _ | ⟨f, flight⟩
  · obtain ⟨pend, -, hbehind, hsent⟩ := h
    rw [hf] at hbehind
    obtain ⟨hsame, rfl⟩ := hbehind.same_of_idle
    refine ⟨[], by rw [hf]; simp, ?_, hsent⟩
    rw [hf]
    refine Channel.behind_idle ?_
    rcases Side.eq_or_other s t with rfl | rfl
    · exact hsame
    · rw [Side.other_other]
      exact hsame.symm
  · have hmem : f ∈ l.flight := by rw [hf]; simp
    obtain ⟨pend, hs, hrest⟩ := h
    rw [← hall f hmem, hs f hmem]
    exact ⟨pend, hs, hrest⟩

theorem Link.Sound.withCtx (h : l.Sound ctx₀) {s : Side} {ctx : Ctx} (hd : Descends (ctx₀ s) ctx) (t : Side) :
    Descends (ctx₀ t) ((l.withCtx s ctx).ctx t) := by
  rw [Link.withCtx]
  by_cases hts : t = s
  · subst hts
    simpa only [Function.update_self] using hd
  · simpa only [Function.update_of_ne hts] using h.descends t

theorem Link.withCtx_self (l : Link) (s : Side) : l.withCtx s (l.ctx s) = l := by
  rw [Link.withCtx, Function.update_eq_self]

/-- Sending. -/
theorem Link.Sound.send (h : l.Sound ctx₀) (hm : ∀ s, (ctx₀ s).compactMode = false) {s : Side} {src : List UInt8}
    {dst : Out} {dstCap dstSize : ℕ} (hstep : l.step (.send s src dst dstCap dstSize) = .ok l') : l'.Sound ctx₀ := by
  have hd := (h.descends s).compress src dst dstCap dstSize
  simp only [Link.step] at hstep
  by_cases hcode : (compress (l.ctx s) src dst dstCap dstSize).code = .ok
  · rw [if_pos hcode, Except.ok.injEq] at hstep
    rw [← hstep]
    refine ⟨h.withCtx hd, fun hclean => ?_⟩
    simp only [Bool.and_eq_true, decide_eq_true_eq, List.all_eq_true] at hclean
    obtain ⟨⟨⟨hclean, hroom⟩, hall⟩, hkeep⟩ := hclean
    obtain ⟨t, hflow⟩ := h.flows hclean
    obtain ⟨pend, hs, hbehind, hsent⟩ := hflow.turn hall
    rcases compress_roomy (l.ctx s) hroom dst dstSize with ⟨hno, -⟩ | hwire
    · exact absurd hcode hno
    · have hmode := (h.descends s).compactMode.trans (hm s)
      rw [hwire.bytes] at hkeep
      have hsend := hbehind.send (reads_wire (h.descends s).wf hmode (length_le_of_ok hcode) hkeep) hwire.absorbed
      refine ⟨s, pend ++ [src], ?_, ?_, ?_⟩
      · intro f hf
        rcases List.mem_append.mp hf with hf | hf
        · exact hs f hf
        · rw [List.mem_singleton.mp hf]
      · simp only [Link.withCtx, Function.update_self, Function.update_of_ne s.other_ne, List.map_append, List.map_cons,
          List.map_nil, hwire.bytes]
        exact hsend
      · simp only [Link.withCtx, hsent, List.map_append, List.map_cons, List.map_nil, List.append_assoc]
  · rw [if_neg hcode, Except.ok.injEq] at hstep
    rw [← hstep]
    refine ⟨h.withCtx hd, fun hclean => ?_⟩
    simp only [Bool.and_eq_true, decide_eq_true_eq] at hclean
    rcases compress_roomy (l.ctx s) hclean.2 dst dstSize with ⟨-, hctx⟩ | hwire
    · rw [hctx, Link.withCtx_self]
      exact h.flows hclean.1
    · exact absurd hwire.code hcode

/-- Receiving. -/
theorem Link.Sound.arrive (h : l.Sound ctx₀) {out : Out} {outCap outSize : ℕ}
    (hstep : l.step (.arrive out outCap outSize) = .ok l') : l'.Sound ctx₀ := by
  simp only [Link.step] at hstep
  rcases hf : l.flight with _ | ⟨⟨s, pkt⟩, flight⟩
  · rw [hf] at hstep
    rw [← Except.ok.inj hstep]
    exact h
  · rw [hf] at hstep
    obtain ⟨r, hr, hstep⟩ := Exc.bind_eq_ok hstep
    have hd := (h.descends s.other).decompress hr
    by_cases hcode : r.code = .ok
    · rw [if_pos hcode, Exc.pure_eq, Except.ok.injEq] at hstep
      rw [← hstep]
      refine ⟨h.withCtx hd, fun hclean => ?_⟩
      obtain ⟨t, pend, hs, hbehind, hsent⟩ := h.flows hclean
      rw [hf] at hs hbehind
      obtain rfl : s = t := hs (s, pkt) (by simp)
      obtain ⟨p, rest, rfl, hreads, hnext⟩ := hbehind.receive
      obtain ⟨hroom, hnoroom⟩ := hreads.2 _ (h.descends s.other).wf (Agree.refl _) out outCap outSize
      by_cases hcap : p.length ≤ outCap
      · obtain ⟨r', hr', -, hread, hagree⟩ := hroom hcap
        rw [hr, Except.ok.injEq] at hr'
        subst hr'
        refine ⟨s, rest, fun f hf => hs f (by simp [hf]), ?_, ?_⟩
        · simp only [Link.withCtx, Function.update_self, Function.update_of_ne s.other_ne.symm]
          exact hnext _ hagree
        · simp only [Link.withCtx, hread, hsent, List.map_cons, List.append_assoc, List.singleton_append]
      · obtain ⟨r', hr', hno⟩ := hnoroom (not_le.mp hcap)
        rw [hr, Except.ok.injEq] at hr'
        subst hr'
        exact absurd hcode hno
    · rw [if_neg hcode, Exc.pure_eq, Except.ok.injEq] at hstep
      rw [← hstep]
      refine ⟨h.withCtx hd, fun hclean => ?_⟩
      rcases decompress_taken (h.descends s.other).wf hr with ⟨-, hctx⟩ | ⟨hok, -⟩
      · rw [hctx, Link.withCtx_self]
        exact h.flows hclean
      · exact absurd hok hcode

/-- Where there is room for every packet, the oldest one under way arrives. -/
theorem Link.Sound.next (h : l.Sound ctx₀) (hclean : l.clean = true) (hne : l.flight ≠ []) {outCap : ℕ}
    (hcap : maxPacketSize ≤ outCap) (out : Out) (outSize : ℕ) : ∃ l', l.step (.arrive out outCap outSize) = .ok l' ∧
      l'.given.length = l.given.length + 1 ∧ l'.given <+: l.sent := by
  obtain ⟨⟨s, pkt⟩, flight, hf⟩ := List.exists_cons_of_ne_nil hne
  obtain ⟨t, pend, hs, hbehind, hsent⟩ := h.flows hclean
  rw [hf] at hs hbehind
  obtain rfl : s = t := hs (s, pkt) (by simp)
  obtain ⟨p, rest, rfl, hreads, -⟩ := hbehind.receive
  obtain ⟨r, hr, hcode, hread, -⟩ :=
    (hreads.2 _ (h.descends s.other).wf (Agree.refl _) out outCap outSize).1 (hreads.1.trans hcap)
  refine ⟨_, by simp only [Link.step, hf, hr, Exc.ok_bind, if_pos hcode, Exc.pure_eq]; rfl, ?_, ?_⟩
  · simp only [Link.withCtx, List.length_append, List.length_singleton]
  · simp only [Link.withCtx, hread, hsent, List.map_cons]
    exact ⟨rest.map fun p => (s, p), by rw [List.append_assoc, List.singleton_append]⟩

/-- Bytes from anywhere. -/
theorem Link.Sound.stray (h : l.Sound ctx₀) {s : Side} {pkt : List UInt8} {out : Out} {outCap outSize : ℕ}
    (hstep : l.step (.stray s pkt out outCap outSize) = .ok l') : l'.Sound ctx₀ := by
  simp only [Link.step] at hstep
  obtain ⟨r, hr, hstep⟩ := Exc.bind_eq_ok hstep
  rw [Exc.pure_eq, Except.ok.injEq] at hstep
  rw [← hstep]
  refine ⟨h.withCtx ((h.descends s).decompress hr), fun hclean => ?_⟩
  simp only [Bool.and_eq_true, decide_eq_true_eq] at hclean
  rcases decompress_taken (h.descends s).wf hr with ⟨-, hctx⟩ | ⟨hok, -⟩
  · rw [hctx, Link.withCtx_self]
    exact h.flows hclean.1
  · exact absurd hok hclean.2

/-- Losing a packet. -/
theorem Link.Sound.lose (h : l.Sound ctx₀) {i : ℕ} (hstep : l.step (.lose i) = .ok l') : l'.Sound ctx₀ := by
  simp only [Link.step, Except.ok.injEq] at hstep
  rw [← hstep]
  refine ⟨h.descends, fun hclean => ?_⟩
  simp only [Bool.and_eq_true, decide_eq_true_eq] at hclean
  rw [List.eraseIdx_of_length_le hclean.2]
  exact h.flows hclean.1

/-- Resets on both sides. -/
theorem Link.Sound.resync (h : l.Sound ctx₀) (hstart : Agree (ctx₀ .left) (ctx₀ .right))
    (hstep : l.step .resync = .ok l') : l'.Sound ctx₀ := by
  simp only [Link.step, Except.ok.injEq] at hstep
  rw [← hstep]
  refine ⟨fun s => (h.descends s).step (show Netc.step (l.ctx s) .reset = .ok (none, _) from rfl), fun _ =>
    ⟨.right, [], by simp [Link.new], Channel.behind_idle ?_, rfl⟩⟩
  simp only [Link.new, (h.descends _).reset]
  exact (agree_withArena _ _).symm.trans (hstart.trans (agree_withArena _ _))

/-- **Every event keeps the invariant.** -/
theorem Link.Sound.step (h : l.Sound ctx₀) (hm : ∀ s, (ctx₀ s).compactMode = false)
    (hstart : Agree (ctx₀ .left) (ctx₀ .right)) {e : Event} (hstep : l.step e = .ok l') : l'.Sound ctx₀ := by
  cases e with
  | send s src dst dstCap dstSize => exact h.send hm hstep
  | arrive out outCap outSize => exact h.arrive hstep
  | stray s pkt out outCap outSize => exact h.stray hstep
  | lose i => exact h.lose hstep
  | resync => exact h.resync hstart hstep

/-- Every event runs through: decoders make no access out of range. -/
theorem Link.Sound.ok (h : l.Sound ctx₀) (e : Event) : ∃ l', l.step e = .ok l' := by
  cases e with
  | send s src dst dstCap dstSize =>
    simp only [Link.step]
    split <;> exact ⟨_, rfl⟩
  | arrive out outCap outSize =>
    simp only [Link.step]
    rcases l.flight with _ | ⟨⟨s, pkt⟩, flight⟩
    · exact ⟨_, rfl⟩
    · obtain ⟨r, hr, -⟩ := decompress_wf (h.descends s.other).wf pkt out outCap outSize
      simp only [hr, Exc.ok_bind, Exc.pure_eq]
      split <;> exact ⟨_, rfl⟩
  | stray s pkt out outCap outSize =>
    obtain ⟨r, hr, -⟩ := decompress_wf (h.descends s).wf pkt out outCap outSize
    exact ⟨_, by rw [Link.step, hr, Exc.ok_bind, Exc.pure_eq]⟩
  | lose i => exact ⟨_, rfl⟩
  | resync => exact ⟨_, rfl⟩

/-- And its call stays in its buffer. -/
theorem Link.Sound.inBuffer (h : l.Sound ctx₀) (hm : ∀ s, (ctx₀ s).compactMode = false) (e : Event) :
    l.InBuffer e := by
  have hmode : ∀ s, (l.ctx s).compactMode = false := fun s => (h.descends s).compactMode.trans (hm s)
  have hread := fun s => decompress_inBounds_of_wf (h.descends s).wf
  simp only [hmode] at hread
  cases e with
  | send s src dst dstCap dstSize =>
    intro hcap hdst
    refine compress_fits (hcap.imp_right fun hcap => ?_) hdst dstSize
    rwa [hmode]
  | arrive out outCap outSize => exact fun f _ => hread f.1.other f.2 out outCap outSize
  | stray s pkt out outCap outSize => exact hread s pkt out outCap outSize
  | lose i => trivial
  | resync => trivial

theorem Link.Sound.run (hm : ∀ s, (ctx₀ s).compactMode = false) (hstart : Agree (ctx₀ .left) (ctx₀ .right)) :
    ∀ (events : List Event) {l : Link}, l.Sound ctx₀ → ∃ l', l.run events = .ok l' ∧ l'.Sound ctx₀
  | [], l, h => ⟨l, rfl, h⟩
  | e :: events, l, h => by
    obtain ⟨l₁, h1⟩ := h.ok e
    obtain ⟨l', h2, hsound⟩ := Link.Sound.run hm hstart events (h.step hm hstart h1)
    exact ⟨l', by rw [Link.run, h1, Exc.ok_bind, h2], hsound⟩

end Invariant

/-- **Connections are safe.** Two new contexts of one dictionary, ring size and adaptivity, with the
eight-byte header, and any events: sends from either side, arrivals, losses, stray packets, resets on both
sides. `netc_decompress` makes no access out of range, and whatever call comes next stays in its buffer, if it
has room for a header. While the connection is clean, what the sides were given is what was sent to them, in
order and once, and as many packets are under way as are left of it; the next one arrives wherever there is room
for it; and with nothing under way the two contexts agree. -/
theorem link_safe {pf pf' : Platform} {dict : Option Dict} {cfg cfg' : Cfg} {junk junk' : ℕ → UInt8} {left right : Ctx}
    (hd : ∀ d, dict = some d → Trained d) (hleft : ctxCreate pf dict cfg junk = some left)
    (hright : ctxCreate pf' dict cfg' junk' = some right)
    (hs : CfgFlag.has cfg'.flags CfgFlag.stateful = CfgFlag.has cfg.flags CfgFlag.stateful)
    (hc : CfgFlag.has cfg.flags CfgFlag.compactHdr = false) (hc' : CfgFlag.has cfg'.flags CfgFlag.compactHdr = false)
    (ha : CfgFlag.has cfg'.flags CfgFlag.adaptive = CfgFlag.has cfg.flags CfgFlag.adaptive)
    (hr : cfg'.ringBufferSize = cfg.ringBufferSize) (events : List Event) :
    ∃ l, (Link.new (sides left right)).run events = .ok l ∧ (∀ e, l.InBuffer e) ∧ (l.clean = true →
      l.given <+: l.sent ∧ l.sent.length = l.given.length + l.flight.length ∧
      (l.flight = [] → Agree (l.ctx .left) (l.ctx .right)) ∧
      ∀ out outCap outSize, l.flight ≠ [] → maxPacketSize ≤ outCap →
        ∃ l', l.step (.arrive out outCap outSize) = .ok l' ∧ l'.given.length = l.given.length + 1 ∧
          l'.given <+: l.sent) := by
  have hstart := (ctxCreate_inStep hleft hright hs (hc'.trans hc.symm) ha hr).toAgree
  have hm : ∀ s, (sides left right s).compactMode = false := by
    rintro (_ | _)
    · rw [sides, Ctx.compactMode, ctxCreate_flags hleft, hc]
    · rw [sides, Ctx.compactMode, ctxCreate_flags hright, hc']
  have hnew : (Link.new (sides left right)).Sound (sides left right) := by
    refine ⟨?_, fun _ => ⟨.right, [], by simp [Link.new], Channel.behind_idle hstart, rfl⟩⟩
    rintro (_ | _)
    · exact Created.descends ⟨pf, dict, cfg, junk, hd, hleft⟩
    · exact Created.descends ⟨pf', dict, cfg', junk', hd, hright⟩
  obtain ⟨l, hrun, hsound⟩ := Link.Sound.run hm hstart events hnew
  refine ⟨l, hrun, hsound.inBuffer hm, fun hclean => ?_⟩
  obtain ⟨s, pend, hall, hbehind, hsent⟩ := hsound.flows hclean
  have hlen := hbehind.underway.length_eq
  rw [List.length_map] at hlen
  refine ⟨⟨_, hsent.symm⟩, by rw [hsent, List.length_append, List.length_map, hlen], fun hidle => ?_,
    fun out outCap outSize hne hcap => hsound.next hclean hne hcap out outSize⟩
  have hright : ∀ f ∈ l.flight, f.1 = Side.right := by rw [hidle]; simp
  obtain ⟨pend', -, hbehind', -⟩ := Link.Flows.turn ⟨pend, hall, hbehind, hsent⟩ hright
  rw [hidle] at hbehind'
  exact hbehind'.same_of_idle.1

/-- A packet from the left, noise that is refused on the right, and the packet arrives. -/
theorem link_safe_plain : ∃ l, (Link.new (sides (newCtx none CfgFlag.stateful) (newCtx none CfgFlag.stateful))).run
    [.send .left [1, 2] .empty 64 0, .stray .right [7] .empty 64 0] = .ok l ∧ l.clean = true ∧
    l.sent = [(.left, [1, 2])] ∧ ∃ l', l.step (.arrive .empty 65535 0) = .ok l' ∧ l'.given = [(.left, [1, 2])] := by
  have hs : CfgFlag.has CfgFlag.stateful CfgFlag.stateful = true := by decide
  have hcreate := newCtx_create none hs
  have hsent : Sent (newCtx none CfgFlag.stateful) [1, 2] 64
      (compress (newCtx none CfgFlag.stateful) [1, 2] .empty 64 0) :=
    (@smallTransfer_fits [1, 2] (by decide)).sent _
  have hkeep : keepsX2 ((compress (newCtx none CfgFlag.stateful) [1, 2] .empty 64 0).dst.read
      (compress (newCtx none CfgFlag.stateful) [1, 2] .empty 64 0).dstSize) = true := by
    have hlen : [(1 : UInt8), 2].length ≤ maxPacketSize := by decide
    rw [hsent.bytes, keepsX2, hdrRead_wire (plain_reachable hs).wf (by decide) hlen]
    simp only [wireHeader_originalSize hlen]
    simp
  have hnoise : decompress (newCtx none CfgFlag.stateful) [7] .empty 64 0
      = .ok ⟨.errCorrupt, .empty, 0, newCtx none CfgFlag.stateful⟩ := rfl
  obtain ⟨l, hrun, -, h⟩ := link_safe (by simp) hcreate hcreate rfl (by decide) (by decide) rfl rfl
    [.send .left [1, 2] .empty 64 0, .stray .right [7] .empty 64 0]
  have hl := hrun
  simp only [Link.run, Link.step, Link.new, Link.withCtx, sides, hsent.code, if_true, Exc.ok_bind, hkeep,
    Function.update_of_ne (show Side.right ≠ Side.left by decide), hnoise, Exc.pure_eq, Except.ok.injEq] at hl
  have hclean : l.clean = true := by rw [← hl]; decide
  have hlog : l.sent = [(.left, [1, 2])] ∧ l.given = [] ∧ l.flight ≠ [] := by rw [← hl]; simp
  obtain ⟨-, -, -, harrive⟩ := h hclean
  obtain ⟨l', hstep, hlen, hpre⟩ := harrive .empty 65535 0 hlog.2.2 (by decide)
  refine ⟨l, hrun, hclean, hlog.1, l', hstep, ?_⟩
  rw [hlog.1] at hpre
  rw [hlog.2.1] at hlen
  exact hpre.eq_of_length hlen

end Netc
