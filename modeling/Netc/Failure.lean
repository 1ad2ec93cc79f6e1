/-
# Failed calls

What a call that fails leaves of the context. A failed decompression leaves all
of it, so that a corrupt packet among good ones changes nothing for these
(`decompress_failed`). A failed compression does so if it is turned down at its entry;
if it fails because the packet has to be sent as it is and does not fit, the
history has taken the packet in before (`compress_untouched_iff`).

Key definitions: `Untouched`, `Accepted`.
Key theorems: `decompress_failed`, `compress_untouched_iff`.
-/
import Netc.CompressSpec

namespace Netc

/-! ### Decompression -/

theorem decompressBody_failed {ctx : Ctx} {src : List UInt8} {hdr : PktHeader} {n : ℕ} {dst : Out} {dstSize : ℕ}
    {r : DecompressRet} (h : decompressBody ctx src hdr n dst dstSize = .ok r) (hcode : r.code ≠ .ok) :
    r.ctx = ctx ∧ r.dstSize = dstSize := by
  rw [decompressBody] at h
  split at h
  · obtain rfl := Except.ok.inj h
    exact ⟨rfl, rfl⟩
  · obtain ⟨payload, -, h⟩ := Exc.bind_eq_ok h
    obtain ⟨⟨dst', code⟩, -, h⟩ := Exc.bind_eq_ok h
    simp only at h
    split at h
    · obtain rfl := Except.ok.inj h
      exact ⟨rfl, rfl⟩
    · -- past the decoder nothing fails
      obtain ⟨dst'', -, h⟩ := Exc.bind_eq_ok h
      obtain ⟨_, -, h⟩ := Exc.bind_eq_ok h
      obtain rfl := Except.ok.inj h
      exact absurd rfl hcode

/-- A failed decompression leaves the context and `*dst_size` as they were. -/
theorem decompress_of_failed {ctx : Ctx} {src : List UInt8} {dst : Out} {dstCap dstSize : ℕ} {r : DecompressRet}
    (h : decompress ctx src dst dstCap dstSize = .ok r) (hcode : r.code ≠ .ok) :
    r.ctx = ctx ∧ r.dstSize = dstSize := by
  rw [decompress] at h
  obtain ⟨v, -, h⟩ := Exc.bind_eq_ok h
  cases v with
  | error code =>
    obtain rfl := Except.ok.inj h
    exact ⟨rfl, rfl⟩
  | ok p => exact decompressBody_failed h hcode

/-- **A failed decompression changes nothing.** It leaves the context and `*dst_size` as they were; in a
sequence of calls, a packet that fails may be put anywhere: the other calls give what they gave
without it, and so does the context in the end. -/
theorem decompress_failed (ctx : Ctx) (src : List UInt8) (dst : Out) (dstCap dstSize : ℕ) (r : DecompressRet)
    (h : decompress ctx src dst dstCap dstSize = .ok r) (hcode : r.code ≠ .ok) :
    r.ctx = ctx ∧ r.dstSize = dstSize ∧
    ∀ ctx₀ before after replies replies' ctx', run ctx₀ before = .ok (replies, ctx) →
      run ctx after = .ok (replies', ctx') →
      run ctx₀ (before ++ after) = .ok (replies ++ replies', ctx') ∧
      run ctx₀ (before ++ .decompress src dst dstCap dstSize :: after)
        = .ok (replies ++ some ⟨r.code, r.dst, dstSize⟩ :: replies', ctx') := by
  obtain ⟨hctx, hsize⟩ := decompress_of_failed h hcode
  refine ⟨hctx, hsize, fun ctx₀ before after replies replies' ctx' h1 h2 => ⟨run_append h1 h2, run_append h1 ?_⟩⟩
  simp only [run, step, h, Exc.ok_bind, Exc.pure_eq, hctx, hsize, h2]

/-- A packet that is cut in its stream, between two others that are taken in. -/
theorem decompress_failed_cut : ∃ replies ctx replies' ctx' r,
    run (newCtx none CfgFlag.stateful) [.decompress plainPacket .empty 1 0] = .ok (replies, ctx) ∧
    run ctx [.decompress plainPacket .empty 1 0] = .ok (replies', ctx') ∧
    decompress ctx cutPacket .empty 2 3 = .ok r ∧ r.code = .errCorrupt ∧ r.dst.read 1 = [42] ∧
    r.ctx = ctx ∧ r.dstSize = 3 ∧
    run (newCtx none CfgFlag.stateful)
        [.decompress plainPacket .empty 1 0, .decompress cutPacket .empty 2 3, .decompress plainPacket .empty 1 0]
      = .ok (replies ++ some ⟨r.code, r.dst, 3⟩ :: replies', ctx') := by
  obtain ⟨replies, ctx, r, hrun, -, hr, hcode, hread⟩ := decompress_cut 3
  obtain ⟨replies', ctx', hrun', -⟩ := run_wf [.decompress plainPacket .empty 1 0]
    (Reachable.wf ⟨_, _, _, newCtx_created (by simp) (by decide), hrun⟩)
  obtain ⟨hctx, hsize, hput⟩ := decompress_failed ctx cutPacket .empty 2 3 r hr (by simp [hcode])
  exact ⟨replies, ctx, replies', ctx', r, hrun, hrun', hr, hcode, hread, hctx, hsize, (hput _ _ _ _ _ _ hrun hrun').2⟩

/-! ### Compression -/

/-- A call that failed left all of the context but the scratch arena as it was. -/
def Untouched (ctx : Ctx) (r : CompressRet) : Prop := r.code ≠ .ok → { r.ctx with arena := ctx.arena } = ctx

/-- Some encoder makes the packet shorter within the capacity: tANS of its source, or of the
packet itself if that was residuals, or LZ77. -/
def Accepted (ctx : Ctx) (src : List UInt8) (dstCap : ℕ) : Prop :=
  0 < src.length ∧
  ((∃ d, ctx.dict = some d ∧ ((Job.firstDraft ⟨ctx, d, src, dstCap⟩).isSome ∨
      ((sourceOf ctx src).didDelta = true ∧ (Job.tansDraft ⟨ctx, d, src, dstCap⟩ (Job.rawSource ⟨ctx, d, src, dstCap⟩)
        (Job.rawFlags ⟨ctx, d, src, dstCap⟩ (Job.rawSource ⟨ctx, d, src, dstCap⟩).didLzp)).isSome))) ∨
    (hdrSz ctx.compactMode src.length < dstCap ∧
      ((∃ lz, lz77Encode (lz77Source ctx src).bytes (dstCap - hdrSz ctx.compactMode src.length) = .ok lz) ∨
        (64 ≤ src.length ∧ ctx.hasRing = true ∧ 0 < ctx.prevPktSize ∧
          ∃ lz, lz77xEncode src ctx.ring ctx.ringPos ctx.prevPktSize (dstCap - hdrSz ctx.compactMode src.length)
            = .ok lz))))

/-- tANS gives a packet just when it drafts one of the source, or of the packet itself after residuals. -/
theorem Job.planTansBlocks_isSome (j : Job) (s : Source) :
    (j.planTansBlocks s).isSome ↔ (j.tansDraft s (j.tansCtxFlags s.didDelta s.didLzp)).isSome ∨
      (s.didDelta = true ∧ (j.tansDraft j.rawSource (j.rawFlags j.rawSource.didLzp)).isSome) := by
  unfold Job.planTansBlocks Job.planTans
  rcases j.tansDraft s (j.tansCtxFlags s.didDelta s.didLzp) with _ | w
  · rcases hd : s.didDelta with _ | _
    · simp
    · simp [Job.planRaw]
  · simp

theorem planDict_isSome (ctx : Ctx) (src : List UInt8) (dstCap : ℕ) :
    (planDict ctx src dstCap).isSome ↔ 0 < src.length ∧ ∃ d, ctx.dict = some d ∧
      ((Job.firstDraft ⟨ctx, d, src, dstCap⟩).isSome ∨ ((sourceOf ctx src).didDelta = true ∧
        (Job.tansDraft ⟨ctx, d, src, dstCap⟩ (Job.rawSource ⟨ctx, d, src, dstCap⟩)
          (Job.rawFlags ⟨ctx, d, src, dstCap⟩ (Job.rawSource ⟨ctx, d, src, dstCap⟩).didLzp)).isSome)) := by
  rw [planDict]
  rcases hd : ctx.dict with _ | d
  · simp
  · simp only [Option.some.injEq, exists_eq_left']
    by_cases h0 : 0 < src.length
    · rw [if_pos h0, Job.planTansBlocks_isSome]
      simp only [h0, true_and, Job.firstDraft]
    · simp [h0]

theorem planLz77_isSome (ctx : Ctx) (src : List UInt8) (dstCap : ℕ) :
    (planLz77 ctx src dstCap).isSome ↔ 0 < src.length ∧ hdrSz ctx.compactMode src.length < dstCap ∧
      ((∃ lz, lz77Encode (lz77Source ctx src).bytes (dstCap - hdrSz ctx.compactMode src.length) = .ok lz) ∨
        (64 ≤ src.length ∧ ctx.hasRing = true ∧ 0 < ctx.prevPktSize ∧
          ∃ lz, lz77xEncode src ctx.ring ctx.ringPos ctx.prevPktSize (dstCap - hdrSz ctx.compactMode src.length)
            = .ok lz)) := by
  rw [planLz77]
  by_cases hc : 0 < src.length ∧ hdrSz ctx.compactMode src.length < dstCap
  · simp only [hc, if_true, true_and, and_self]
    cases lz77Encode (lz77Source ctx src).bytes (dstCap - hdrSz ctx.compactMode src.length) with
    | ok lz => simp
    | error e =>
      simp only [reduceCtorEq, exists_false, false_or]
      cases hx : decide (64 ≤ src.length) && ctx.hasRing && decide (0 < ctx.prevPktSize) with
      | false =>
        simp only [Bool.and_eq_false_iff, decide_eq_false_iff_not] at hx
        simp only [Bool.false_eq_true, if_false, Option.isSome_none, false_iff]
        rintro ⟨h1, h2, h3, -⟩
        rcases hx with (hx | hx) | hx
        · exact hx h1
        · rw [h2] at hx
          cases hx
        · exact hx h3
      | true =>
        simp only [Bool.and_eq_true, decide_eq_true_eq] at hx
        simp only [if_true, hx, true_and]
        cases lz77xEncode src ctx.ring ctx.ringPos ctx.prevPktSize (dstCap - hdrSz ctx.compactMode src.length) with
        | ok lz => simp
        | error e => simp
  · simp only [if_neg hc, Option.isSome_none, Bool.false_eq_true, false_iff]
    exact fun h => hc ⟨h.1, h.2.1⟩

/-- The plan names a packet just when some encoder is accepted. -/
theorem plan_isSome_iff (ctx : Ctx) (src : List UInt8) (dstCap : ℕ) :
    (plan ctx src dstCap).isSome ↔ Accepted ctx src dstCap := by
  have h1 := planDict_isSome ctx src dstCap
  have h2 := planLz77_isSome ctx src dstCap
  rw [Accepted, and_or_left, ← h1, ← h2, plan]
  cases planDict ctx src dstCap with
  | some p => simp
  | none => simp

theorem takenIn_contextSeq (ctx : Ctx) (src : List UInt8) (arena : Block) :
    (takenIn ctx src arena).contextSeq = ctx.contextSeq + 1 := by
  rw [takenIn, Ctx.updatePrev_contextSeq, Ctx.appendRing_contextSeq]

theorem succ_ne (x : UInt8) : x + 1 ≠ x := by
  intro h
  have := congrArg UInt8.toNat h
  rw [UInt8.toNat_add, UInt8.toNat_one] at this
  have := x.toNat_lt
  omega

/-- **When a failed compression leaves the context as it was**: the call is turned down at
its entry, or some encoder makes the packet shorter, or it fits as it is. Else the
history takes the packet in although it is not sent. -/
theorem compress_untouched_iff (ctx : Ctx) (src : List UInt8) (dst : Out) (dstCap dstSize : ℕ) :
    Untouched ctx (compress ctx src dst dstCap dstSize) ↔
      maxPacketSize < src.length ∨ dstCap < compactHdrMin ∨ Accepted ctx src dstCap ∨
        hdrSz ctx.compactMode src.length + src.length ≤ dstCap := by
  rw [← plan_isSome_iff]
  rcases compress_cases ctx src dst dstCap dstSize with
    ⟨he, code, -, hrun⟩ | ⟨hne, hp, hcap, hcode, -, arena, -, hctx⟩ | ⟨hne, hcap, hsent⟩
  · rw [hrun]
    exact ⟨fun _ => or_assoc.mp (.inl he), fun _ _ => rfl⟩
  · constructor
    · intro h
      have := congrArg Ctx.contextSeq (h (by rw [hcode]; simp))
      simp only [hctx, takenIn_contextSeq] at this
      exact absurd this (succ_ne _)
    · intro h
      rw [hp] at h
      rw [← or_assoc] at h
      rcases h with h | h | h
      · exact absurd h hne
      · cases h
      · omega
  · refine ⟨fun _ => ?_, fun _ h => absurd hsent.code h⟩
    cases hp : plan ctx src dstCap with
    | some p => exact .inr (.inr (.inl rfl))
    | none => exact .inr (.inr (.inr (hcap hp)))

/-- A packet of one byte in a buffer of the header's size: the call fails with
`NETC_ERR_BUF_SMALL`, and the sequence number has moved on. -/
theorem compress_touched :
    Reachable (newCtx none CfgFlag.stateful) ∧
    (compress (newCtx none CfgFlag.stateful) [1] .empty 8 0).code = .errBufSmall ∧
    ¬Untouched (newCtx none CfgFlag.stateful) (compress (newCtx none CfgFlag.stateful) [1] .empty 8 0) := by
  have hp : plan (newCtx none CfgFlag.stateful) [1] 8 = none := rfl
  refine ⟨plain_reachable (by decide), ?_⟩
  rcases compress_cases (newCtx none CfgFlag.stateful) [1] .empty 8 0 with
    ⟨he, -⟩ | ⟨-, -, -, hcode, -, arena, -, hctx⟩ | ⟨-, hcap, -⟩
  · exact absurd he (by decide)
  · refine ⟨hcode, fun h => ?_⟩
    have := congrArg Ctx.contextSeq (h (by rw [hcode]; simp))
    simp only [hctx, takenIn_contextSeq] at this
    exact absurd this (by decide)
  · exact absurd (hcap hp) (by decide)

end Netc
