/-
# What a call of netc_compress does

A call is turned down at its entry, or it sends the packet the plan names, or
it sends the packet as it is; then the history takes the packet in. The last
of these needs room for the packet and its header, and that is
checked when the history has taken the packet in already (`compress_cases`).

Key definitions: `wire`, `takenIn`, `sentCtx`, `Sent`.
Key theorems: `compress_cases`, `kin_run`.
-/
import Netc.Announced
import Netc.Reach

namespace Netc

/-! ### What is sent -/

/-- The packet on the wire: in the format of the plan, or as it is. -/
def wire (ctx : Ctx) (src : List UInt8) : Option Packet → List UInt8
  | some p => hdrEmit (exitHeader ctx src.length p.exit) ctx.compactMode ++ p.payload
  | none => hdrEmit (passthruHeader ctx.modelId ctx.contextSeq src.length) ctx.compactMode ++ src

/-- Whether the packet counts as a passthrough. -/
def sentPassthru : Option Packet → Bool
  | some p => p.passthru
  | none => true

/-- The history takes the packet in. -/
def takenIn (ctx : Ctx) (src : List UInt8) (arena : Block) : Ctx :=
  ({ ctx with contextSeq := ctx.contextSeq + 1, arena := arena }.appendRing src).updatePrev src

/-- The context after a packet was sent, with what is left in the arena. -/
def sentCtx (ctx : Ctx) (src : List UInt8) (arena : Block) (outSize : ℕ) (passthru : Bool) : Ctx :=
  ((takenIn ctx src arena).tally (countCompressed src.length outSize passthru)).learn src

/-- The packet was sent. -/
structure Sent (ctx : Ctx) (src : List UInt8) (dstCap : ℕ) (r : CompressRet) : Prop where
  code : r.code = .ok
  size : r.dstSize = (wire ctx src (plan ctx src dstCap)).length
  bytes : r.dst.read r.dstSize = wire ctx src (plan ctx src dstCap)
  ctx : ∃ arena, arena.size = ctx.arena.size ∧
    r.ctx = sentCtx ctx src arena r.dstSize (sentPassthru (plan ctx src dstCap))

theorem updatePrev_appendRing (ctx : Ctx) (a b : List UInt8) :
    (ctx.updatePrev a).appendRing b = (ctx.appendRing b).updatePrev a := by
  simp only [Ctx.updatePrev, Ctx.appendRing]
  cases hp : ctx.prevPkt <;> cases hp2 : ctx.prev2Pkt <;> cases hr : ctx.ring <;> simp only [hp, hp2, hr]

theorem length_passthruHeader (modelId seq : UInt8) {n : ℕ} (hn : n ≤ maxPacketSize) (compact : Bool) :
    (hdrEmit (passthruHeader modelId seq n) compact).length = hdrSz compact n := by
  have : n % 2 ^ 16 = n := Nat.mod_eq_of_lt (by have : maxPacketSize = 65535 := rfl; omega)
  rw [length_hdrEmit, passthruHeader, this]

theorem length_exitHeader (ctx : Ctx) (e : Exit) {n : ℕ} (hn : n ≤ maxPacketSize) :
    (hdrEmit (exitHeader ctx n e) ctx.compactMode).length = hdrSz ctx.compactMode n := by
  have : n % 2 ^ 16 = n := Nat.mod_eq_of_lt (by have : maxPacketSize = 65535 := rfl; omega)
  rw [length_hdrEmit, exitHeader, this]

/-- A header put in front of a payload that stands behind its room. -/
theorem read_header {dst : Out} {hdr payload : List UInt8} {n : ℕ} (hn : hdr.length = n)
    (h : ByteMem.slice dst.byte n payload.length = payload) :
    (dst.write 0 hdr).read (n + payload.length) = hdr ++ payload := by
  rw [Out.read, Out.write_byte, ByteMem.slice_add, Nat.zero_add, ByteMem.slice_write_eq _ _ hn,
    ByteMem.slice_write_of_ge (by omega), h]

section Cases

variable {ctx : Ctx} {src : List UInt8} {dstCap : ℕ}

theorem exitFinish_sent (hlen : src.length ≤ maxPacketSize) {p : Packet} (hp : plan ctx src dstCap = some p)
    {b : Blocked} (hb : ByteMem.slice b.dst.byte (hdrSz ctx.compactMode src.length) p.payload.length = p.payload)
    (harena : b.arena.size = ctx.arena.size) : Sent ctx src dstCap (exitFinish ctx src b p.exit) := by
  have hhdr := length_exitHeader ctx p.exit hlen
  refine ⟨rfl, ?_, ?_, b.arena, harena, ?_⟩
  · rw [hp, wire, List.length_append, hhdr]
    rfl
  · rw [hp, wire]
    exact read_header hhdr hb
  · rw [hp]
    rfl

theorem passthruFinish_sent (hlen : src.length ≤ maxPacketSize) (hp : plan ctx src dstCap = none) {b : Blocked}
    (harena : b.arena.size = ctx.arena.size) (hcap : hdrSz ctx.compactMode src.length + src.length ≤ dstCap)
    (dstSize : ℕ) : Sent ctx src dstCap (passthruFinish ctx src b dstCap dstSize) := by
  have hhdr := length_passthruHeader ctx.modelId ctx.contextSeq hlen ctx.compactMode
  have hemit : emitPassthrough ctx.modelId ctx.contextSeq src b.dst dstCap ctx.compactMode
      = (.ok, (b.dst.write 0 (hdrEmit (passthruHeader ctx.modelId ctx.contextSeq src.length) ctx.compactMode)).write
        (hdrSz ctx.compactMode src.length) src, hdrSz ctx.compactMode src.length + src.length) := by
    simp only [emitPassthrough, hhdr]
    rw [if_neg (by omega)]
  simp only [passthruFinish, hemit, if_true]
  refine ⟨rfl, ?_, ?_, b.arena, harena, ?_⟩
  · rw [hp, wire, List.length_append, hhdr]
  · rw [hp, wire]
    simp only [Out.read, Out.write_byte]
    rw [ByteMem.slice_add, Nat.zero_add, ByteMem.slice_write_of_le (by omega), ByteMem.slice_write_eq _ _ hhdr,
      ByteMem.slice_write_self]
  · rw [hp, updatePrev_appendRing]
    rfl

/-- **The ways a call of `netc_compress` ends.** -/
theorem compress_cases (ctx : Ctx) (src : List UInt8) (dst : Out) (dstCap dstSize : ℕ) :
    ((maxPacketSize < src.length ∨ dstCap < compactHdrMin) ∧ ∃ code, code ≠ .ok ∧
      compress ctx src dst dstCap dstSize = ⟨code, dst, dstSize, ctx⟩) ∨
    (¬(maxPacketSize < src.length ∨ dstCap < compactHdrMin) ∧ plan ctx src dstCap = none ∧
      dstCap < hdrSz ctx.compactMode src.length + src.length ∧
      (compress ctx src dst dstCap dstSize).code = .errBufSmall ∧
      (compress ctx src dst dstCap dstSize).dstSize = dstSize ∧
      ∃ arena, arena.size = ctx.arena.size ∧ (compress ctx src dst dstCap dstSize).ctx = takenIn ctx src arena) ∨
    (¬(maxPacketSize < src.length ∨ dstCap < compactHdrMin) ∧
      (plan ctx src dstCap = none → hdrSz ctx.compactMode src.length + src.length ≤ dstCap) ∧
      Sent ctx src dstCap (compress ctx src dst dstCap dstSize)) := by
  by_cases h1 : maxPacketSize < src.length
  · exact .inl ⟨.inl h1, .errTooBig, by simp, by rw [compress, if_pos h1]⟩
  by_cases h2 : dstCap < compactHdrMin
  · exact .inl ⟨.inr h2, .errBufSmall, by simp, by rw [compress, if_neg h1, if_pos h2]⟩
  have hentry : ¬(maxPacketSize < src.length ∨ dstCap < compactHdrMin) := by
    simp only [h1, h2, or_self, not_false_eq_true]
  obtain ⟨hexit, hpayload, harena⟩ := compressBlocks_plan ctx src dst dstCap
  refine .inr ?_
  simp only [compress, if_neg h1, if_neg h2]
  cases hp : plan ctx src dstCap with
  | some p =>
    rw [hp, Option.map_some] at hexit
    rw [hexit]
    exact .inr ⟨hentry, by simp, exitFinish_sent (not_lt.mp h1) hp (hpayload p hp) harena⟩
  | none =>
    rw [hp, Option.map_none] at hexit
    rw [hexit]
    simp only
    by_cases hcap : hdrSz ctx.compactMode src.length + src.length ≤ dstCap
    · exact .inr ⟨hentry, fun _ => hcap, passthruFinish_sent (not_lt.mp h1) hp harena hcap dstSize⟩
    · refine .inl ⟨hentry, trivial, not_le.mp hcap, ?_⟩
      have hhdr := length_passthruHeader ctx.modelId ctx.contextSeq (not_lt.mp h1) ctx.compactMode
      have hemit : (emitPassthrough ctx.modelId ctx.contextSeq src (compressBlocks ctx src dst dstCap).dst dstCap
          ctx.compactMode).1 = .errBufSmall := by
        simp only [emitPassthrough, hhdr]
        rw [if_pos (by omega)]
      simp only [passthruFinish, hemit, reduceCtorEq, if_false]
      exact ⟨trivial, trivial, _, harena, by rw [updatePrev_appendRing]; rfl⟩

end Cases

/-! ### What a context keeps along calls -/

theorem kin_takenIn (ctx : Ctx) (src : List UInt8) {arena : Block} (h : arena.size = ctx.arena.size) :
    Kin ctx (takenIn ctx src arena) :=
  ((kin_withSeq ctx _ h).trans (kin_appendRing _ src)).trans (kin_updatePrev _ src)

theorem kin_sentCtx (ctx : Ctx) (src : List UInt8) {arena : Block} (h : arena.size = ctx.arena.size) (outSize : ℕ)
    (passthru : Bool) : Kin ctx (sentCtx ctx src arena outSize passthru) :=
  ((kin_takenIn ctx src h).trans (kin_tally _ _)).trans (kin_learn _ src)

theorem kin_compress (ctx : Ctx) (src : List UInt8) (dst : Out) (dstCap dstSize : ℕ) :
    Kin ctx (compress ctx src dst dstCap dstSize).ctx := by
  rcases compress_cases ctx src dst dstCap dstSize with ⟨-, code, -, h⟩ | ⟨-, -, -, -, -, arena, harena, h⟩ |
    ⟨-, -, hsent⟩
  · rw [h]
    exact Kin.refl ctx
  · rw [h]
    exact kin_takenIn ctx src harena
  · obtain ⟨arena, harena, h⟩ := hsent.ctx
    rw [h]
    exact kin_sentCtx ctx src harena _ _

/-- A call of `netc_decompress` leaves the context as it is, or takes a packet in. -/
theorem decompress_ctx {ctx : Ctx} {src : List UInt8} {dst : Out} {dstCap dstSize : ℕ} {r : DecompressRet}
    (h : decompress ctx src dst dstCap dstSize = .ok r) :
    r.ctx = ctx ∨ ∃ hdr n data, r.ctx = decompFinish ctx hdr n data := by
  rw [decompress] at h
  obtain ⟨v, -, h⟩ := Exc.bind_eq_ok h
  rcases v with code | ⟨hdr, hdrSz⟩
  · rw [← Except.ok.inj h]
    exact .inl rfl
  · simp only [decompressBody] at h
    split at h
    · rw [← Except.ok.inj h]
      exact .inl rfl
    · obtain ⟨payload, -, h⟩ := Exc.bind_eq_ok h
      obtain ⟨⟨dst₁, code⟩, -, h⟩ := Exc.bind_eq_ok h
      simp only at h
      split at h
      · rw [← Except.ok.inj h]
        exact .inl rfl
      · obtain ⟨dst₂, -, h⟩ := Exc.bind_eq_ok h
        obtain ⟨-, -, h⟩ := Exc.bind_eq_ok h
        rw [← Except.ok.inj h]
        exact .inr ⟨_, _, _, rfl⟩

theorem kin_decompress {ctx : Ctx} {src : List UInt8} {dst : Out} {dstCap dstSize : ℕ} {r : DecompressRet}
    (h : decompress ctx src dst dstCap dstSize = .ok r) : Kin ctx r.ctx := by
  rcases decompress_ctx h with h | ⟨hdr, n, data, h⟩
  · rw [h]
    exact Kin.refl ctx
  · rw [h]
    exact kin_decompFinish ctx hdr n data

theorem kin_step {ctx ctx' : Ctx} {c : Call} {reply : Reply} (h : step ctx c = .ok (reply, ctx')) :
    Kin ctx ctx' := by
  rcases c with ⟨src, dst, dstCap, dstSize⟩ | ⟨src, dst, dstCap, dstSize⟩ | _
  · simp only [step, Except.ok.injEq, Prod.mk.injEq] at h
    rw [← h.2]
    exact kin_compress ..
  · simp only [step] at h
    obtain ⟨r, hr, h⟩ := Exc.bind_eq_ok h
    simp only [Exc.pure_eq, Except.ok.injEq, Prod.mk.injEq] at h
    rw [← h.2]
    exact kin_decompress hr
  · simp only [step, Except.ok.injEq, Prod.mk.injEq] at h
    rw [← h.2]
    exact kin_ctxReset ctx

/-- **A context keeps its make**, whatever the calls. -/
theorem kin_run : ∀ {calls : List Call} {ctx ctx' : Ctx} {replies : List Reply},
    run ctx calls = .ok (replies, ctx') → Kin ctx ctx'
  | [], ctx, ctx', replies, h => by
    simp only [run, Except.ok.injEq, Prod.mk.injEq] at h
    rw [← h.2]
    exact Kin.refl ctx
  | c :: calls, ctx, ctx', replies, h => by
    obtain ⟨reply, ctx₁, replies₁, h1, h2, -⟩ := run_cons_eq_ok h
    exact (kin_step h1).trans (kin_run h2)

end Netc
