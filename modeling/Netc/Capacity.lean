/-
# The capacity of the output buffer

`netc_compress` is given room for `dst_cap` bytes. Its entry check compares
this with the smallest header of any mode; then `payload_cap`, the room behind
the header of the mode at hand, is computed by a subtraction that wraps if there is none,
the trial encoders are given that much, and the header is emitted whether or
not it fits. If it does fit, nothing wraps, and every write, also those of
trials that are given up, ends at `dst_cap`; if it does not, the header is
written past it (`compress_capacity_iff`).

Key definitions: `Attempt.Fits`, `CapacityKept`.
Key theorems: `tryTansCompress_fits`, `compressBlocks_fits`, `compress_fits`, `compress_capacity_iff`.
-/
import Netc.CompressSpec

namespace Netc

/-! ### Writers -/

/-- The writer has room for `cap` bytes and stayed in it. -/
def Bsw.Fits (cap : ℕ) (w : Bsw) : Prop := w.cap = cap ∧ w.out.length ≤ cap

section Writers

variable {cap : ℕ} {w : Bsw}

theorem bswInit_fits (cap : ℕ) : (bswInit cap).Fits cap := ⟨rfl, Nat.zero_le _⟩

theorem bswWrite_fits (h : w.Fits cap) (v nb : ℕ) : Exc.Post (Bsw.Fits cap) (Bsw.Fits cap) (bswWrite w v nb) := by
  obtain ⟨hcap, hlen⟩ := h
  unfold bswWrite
  dsimp only
  split
  · split
    · exact ⟨hcap, hlen⟩
    · refine ⟨hcap, ?_⟩
      simp only [List.length_append, Digits.length_leBytes]
      omega
  · exact ⟨hcap, hlen⟩

theorem bswFlushByte_fits (h : w.Fits cap) : Exc.Post (Bsw.Fits cap) (Bsw.Fits cap) (bswFlushByte w) := by
  obtain ⟨hcap, hlen⟩ := h
  unfold bswFlushByte
  split
  · exact ⟨hcap, hlen⟩
  · refine ⟨hcap, ?_⟩
    simp only [List.length_append, List.length_singleton]
    omega

theorem bswFlush_fits (h : w.Fits cap) : Exc.Post (Bsw.Fits cap) (Bsw.Fits cap) (bswFlush w) := by
  unfold bswFlush
  exact Loop.run_post (fun _ hw _ => bswFlushByte_fits hw) _ _ h

theorem Bsw.Fits.out_nil (h : w.Fits 0) : w.out = [] := List.length_eq_zero_iff.mp (Nat.le_zero.mp h.2)

/-- A flush has a byte to store at least. -/
theorem bswFlush_noRoom (h : w.Fits 0) : ∃ w', bswFlush w = .error w' ∧ w'.out = [] := by
  have hfull : w.cap ≤ w.out.length := by
    rw [h.1]
    exact Nat.zero_le _
  refine ⟨{ w with accum := (w.accum ||| 1 <<< w.bits) % 2 ^ 64, bits := w.bits + 1 }, ?_, h.out_nil⟩
  unfold bswFlush
  refine Loop.run_error w.bits ?_ ?_
  · exact decide_eq_true (Nat.succ_pos _)
  · rw [bswFlushByte, if_pos hfull]

theorem encodeStep_fits (check : Bool) (tbl : Table) (sym : UInt8) (X : ℕ) (h : w.Fits cap) :
    Exc.Post (fun p => p.2.Fits cap) (Bsw.Fits cap) (encodeStep check tbl sym X w) := by
  unfold encodeStep
  dsimp only
  split
  · exact h
  · split
    · have hw := bswWrite_fits h (X &&& (1 <<< tbl.nb sym.toNat X - 1)) (tbl.nb sym.toNat X)
      split
      · next heq =>
        rw [heq] at hw
        exact hw
      · next heq =>
        rw [heq] at hw
        exact hw
    · exact h

theorem encodeRun_fits (check : Bool) (sel : ℕ → UInt8 → Option Table) : ∀ (src : List UInt8) (i : ℕ) (prev : UInt8)
    (X : ℕ) {w : Bsw}, w.Fits cap → Exc.Post (fun p => p.2.Fits cap) (Bsw.Fits cap) (encodeRun check sel i prev src X w)
  | [], _, _, _, _, h => h
  | b :: src, i, prev, X, w, h => by
    have hrest := encodeRun_fits check sel src (i + 1) b X h
    rw [encodeRun]
    rcases hr : encodeRun check sel (i + 1) b src X w with w' | ⟨X', w'⟩
    · rw [hr] at hrest
      exact hrest
    · rw [hr] at hrest
      dsimp only
      split
      · exact hrest
      · exact encodeStep_fits check _ b X' hrest

theorem encodeX2Run_fits (tbl : Table) : ∀ (src : List UInt8) {w : Bsw}, w.Fits cap →
    Exc.Post (fun p => p.2.2.Fits cap) (Bsw.Fits cap) (encodeX2Run tbl src w)
  | [], _, h => h
  | [a], w, h => by
    have hstep := encodeStep_fits false tbl a tans12.size h
    rw [encodeX2Run]
    rcases hr : encodeStep false tbl a tans12.size w with w' | ⟨X, w'⟩
    · rw [hr] at hstep
      exact hstep
    · rw [hr] at hstep
      exact hstep
  | a :: b :: src, w, h => by
    have hrest := encodeX2Run_fits tbl src h
    rw [encodeX2Run]
    rcases hr : encodeX2Run tbl src w with w' | ⟨X0, X1, w'⟩
    · rw [hr] at hrest
      exact hrest
    · rw [hr] at hrest
      have hb := encodeStep_fits false tbl b X1 hrest
      dsimp only
      rcases hr₁ : encodeStep false tbl b X1 w' with w₁ | ⟨X1', w₁⟩
      · rw [hr₁] at hb
        exact hb
      · rw [hr₁] at hb
        have ha := encodeStep_fits false tbl a X0 hb
        dsimp only
        rcases hr₂ : encodeStep false tbl a X0 w₁ with w₂ | ⟨X0', w₂⟩
        · rw [hr₂] at ha
          exact ha
        · rw [hr₂] at ha
          exact ha

theorem encodeReturn_fits {r : Except Bsw (ℕ × Bsw)} (h : Exc.Post (fun p => p.2.Fits cap) (Bsw.Fits cap) r) :
    (encodeReturn r).2.Fits cap := by
  rcases r with w | p
  · exact h
  · exact h

end Writers

/-! ### Attempts -/

/-- What an encoder wrote, and the payload it left, end at `cap`. -/
structure Attempt.Fits {α : Type} (cap : ℕ) (a : Attempt α) : Prop where
  left : a.left.Within cap
  result : ∀ r, a.result = some r → r.1.length ≤ cap

section Attempts

variable {cap : ℕ} {α : Type}

theorem fits_none (cap : ℕ) : (⟨[], none⟩ : Attempt α).Fits cap := ⟨Writes.within_nil cap, by simp⟩

/-- The bits of a trial that failed, behind the room for the states. -/
theorem fits_failed {k : ℕ} {w : Bsw} (hk : k ≤ cap) (h : w.Fits (cap - k)) :
    (⟨[(k, w.out)], none⟩ : Attempt α).Fits cap := by
  have hlen := h.2
  refine ⟨Writes.within_cons.mpr ⟨?_, Writes.within_nil cap⟩, by simp⟩
  dsimp only
  omega

theorem closeStream_fits {compact : Bool} {r : ℕ × Bsw} (hs : stateSz compact ≤ cap)
    (h : r.2.Fits (cap - stateSz compact)) : (closeStream compact r).Fits cap := by
  have hf := bswFlush_fits h
  unfold closeStream
  split
  · exact fits_failed hs h
  · split
    · next heq =>
      rw [heq] at hf
      exact fits_failed hs hf
    · next w heq =>
      rw [heq] at hf
      have hlen := hf.2
      refine ⟨Writes.within_nil cap, fun p hp => ?_⟩
      obtain rfl := Option.some.inj hp
      simp only [List.length_append, length_writeState]
      omega

/-- **An encoder without room** fails and has written nothing. -/
theorem closeStream_noRoom {r : ℕ × Bsw} (compact : Bool) (h : r.2.Fits 0) :
    closeStream compact r = ⟨[(stateSz compact, [])], none⟩ := by
  unfold closeStream
  split
  · rw [h.out_nil]
  · obtain ⟨w, hw, hout⟩ := bswFlush_noRoom h
    rw [hw]
    dsimp only
    rw [hout]

theorem tansX2Attempt_fits (tbl : Table) (src : List UInt8) {compact : Bool} (hs : 2 * stateSz compact ≤ cap) :
    (tansX2Attempt tbl src cap compact).Fits cap := by
  have henc : Exc.Post (fun p : ℕ × ℕ × Bsw => p.2.2.Fits (cap - 2 * stateSz compact))
      (Bsw.Fits (cap - 2 * stateSz compact)) (tansEncodeX2 tbl src (bswInit (cap - 2 * stateSz compact))) := by
    unfold tansEncodeX2
    split
    · exact bswInit_fits _
    · exact encodeX2Run_fits tbl src (bswInit_fits _)
  unfold tansX2Attempt
  split
  · next heq =>
    rw [heq] at henc
    exact fits_failed hs henc
  · next X0 X1 w heq =>
    rw [heq] at henc
    have hf := bswFlush_fits henc
    split
    · next heq' =>
      rw [heq'] at hf
      exact fits_failed hs hf
    · next heq' =>
      rw [heq'] at hf
      have hlen := hf.2
      refine ⟨Writes.within_nil cap, fun p hp => ?_⟩
      obtain rfl := Option.some.inj hp
      simp only [List.length_append, length_writeState]
      omega

theorem tansEncodeWith_fits (P : TansParams) (check : Bool) (tbl : Table) (src : List UInt8) (X cap : ℕ) :
    (tansEncodeWith P check tbl src (bswInit cap) X).2.Fits cap := by
  unfold tansEncodeWith
  split
  · exact bswInit_fits cap
  · exact encodeReturn_fits (encodeRun_fits _ _ src 0 0 _ (bswInit_fits cap))

theorem tansOneAttempt_fits (tbl : Table) (src : List UInt8) (cap : ℕ) (compact : Bool) :
    (tansOneAttempt tbl src cap compact).Fits cap := by
  unfold tansOneAttempt
  split
  · exact fits_none cap
  · next hs => exact closeStream_fits (by omega) (tansEncodeWith_fits ..)

theorem tansSingleWithTable_fits (tbl : Table) (src : List UInt8) (cap : ℕ) (ctxFlags : UInt32) (compact : Bool) :
    (tansSingleWithTable tbl src cap ctxFlags compact).Fits cap := by
  have hone := tansOneAttempt_fits tbl src cap compact
  have hx2 : (if wantsX2 src.length cap ctxFlags compact then tansX2Attempt tbl src cap compact
      else ⟨[], none⟩).Fits cap := by
    split
    · next hw =>
      simp only [wantsX2, Bool.and_eq_true, decide_eq_true_eq] at hw
      exact tansX2Attempt_fits tbl src hw.2
    · exact fits_none cap
  unfold tansSingleWithTable
  split
  · exact fits_none cap
  · dsimp only
    split
    · next p heq =>
      refine ⟨hx2.left, fun r hr => ?_⟩
      obtain rfl := Option.some.inj hr
      exact hx2.result _ heq
    · refine ⟨Writes.within_append.mpr ⟨hx2.left, hone.left⟩, fun r hr => ?_⟩
      obtain ⟨p, hp, rfl⟩ := Option.map_eq_some_iff.mp hr
      exact hone.result p hp

theorem tansSingleRegion_fits (d : Dict) (tables : ℕ → Table) (src : List UInt8) (cap : ℕ) (ctxFlags : UInt32)
    (compact : Bool) : (tansSingleRegion d tables src cap ctxFlags compact).Fits cap := by
  unfold tansSingleRegion
  split
  · exact fits_none cap
  · next tbl idx _ =>
    have h := tansSingleWithTable_fits tbl src cap ctxFlags compact
    refine ⟨h.left, fun r hr => ?_⟩
    obtain ⟨p, hp, rfl⟩ := Option.map_eq_some_iff.mp hr
    exact h.result p hp

theorem pctxBest_le (d : Dict) (tables : ℕ → Table) (src : List UInt8) (cap : ℕ) (ctxFlags : UInt32) (compact : Bool)
    (p : List UInt8) : (pctxBest d tables src cap ctxFlags compact p).1.length ≤ p.length := by
  unfold pctxBest
  split
  · split
    · split
      · next hlt => exact hlt.le
      · exact le_rfl
    · exact le_rfl
  · exact le_rfl

theorem pctxOrSingle_fits (d : Dict) (tables : ℕ → Table) (src : List UInt8) (ctxFlags : UInt32) (compact : Bool)
    {p : List UInt8} (hs : stateSz compact ≤ cap) (hp : p.length ≤ cap) :
    (pctxOrSingle d tables src cap ctxFlags compact p).Fits cap := by
  have hbest := (pctxBest_le d tables src cap ctxFlags compact p).trans hp
  have hleft : Writes.Within cap [(stateSz compact, p.drop (stateSz compact)),
      (stateSz compact, (pctxBest d tables src cap ctxFlags compact p).1.drop (stateSz compact))] := by
    simp only [Writes.within_cons, List.length_drop]
    exact ⟨by omega, by omega, Writes.within_nil cap⟩
  unfold pctxOrSingle
  dsimp only
  split
  · split
    · next hlt =>
      refine ⟨hleft, fun r hr => ?_⟩
      obtain rfl := Option.some.inj hr
      exact hlt.le.trans hbest
    · refine ⟨hleft, fun r hr => ?_⟩
      obtain rfl := Option.some.inj hr
      exact hbest
  · refine ⟨hleft, fun r hr => ?_⟩
    obtain rfl := Option.some.inj hr
    exact hbest

/-- **A tANS encoder stays in its buffer**, in the trials it gives up and in what it leaves. -/
theorem tryTansCompress_fits (d : Dict) (tables : ℕ → Table) (src : List UInt8) (cap : ℕ) (ctxFlags : UInt32)
    (compact : Bool) : (tryTansCompress d tables src cap ctxFlags compact).Fits cap := by
  have hsr := tansSingleRegion_fits d tables src cap ctxFlags compact
  have hpctx : (if stateSz compact ≤ cap then pctxAttempt tables src cap compact else ⟨[], none⟩).Fits cap := by
    split
    · next hs =>
      refine closeStream_fits hs ?_
      unfold tansEncodePctx
      split
      · exact bswInit_fits _
      · exact encodeReturn_fits (encodeRun_fits _ _ src 0 0 _ (bswInit_fits _))
    · exact fits_none cap
  unfold tryTansCompress
  split
  · exact fits_none cap
  · split
    · exact hsr
    · split
      · exact fits_none cap
      · dsimp only
        split
        · next p heq =>
          have hs : stateSz compact ≤ cap := by
            by_contra hs
            rw [if_neg hs] at heq
            cases heq
          exact pctxOrSingle_fits d tables src ctxFlags compact hs (hpctx.result _ heq)
        · split
          · exact ⟨hpctx.left, by simp⟩
          · exact ⟨Writes.within_append.mpr ⟨hpctx.left, hsr.left⟩, hsr.result⟩

theorem Out.apply_top_le {dst : Out} {base : ℕ} {a : Attempt α} (hd : dst.top ≤ base + cap) (h : a.Fits cap) :
    (dst.apply base a).top ≤ base + cap := by
  have hleft := Out.applyWrites_top_le hd h.left
  unfold Out.apply
  split
  · exact hleft
  · next r heq =>
    have hlen := h.result r heq
    exact Out.write_top_le hleft (by omega)

end Attempts

/-! ### The blocks of the compressor -/

theorem length_written_lz77 (src : List UInt8) (cap : ℕ) : (written (lz77Encode src cap)).length ≤ cap := by
  have h := lz77Encode_spec src cap
  rcases hr : lz77Encode src cap with out | out
  · rw [hr] at h
    exact h
  · rw [hr] at h
    exact h.2.2

theorem length_written_lz77x {ctx : Ctx} (hring : ctx.hasRing = true) (src : List UInt8) (prevSize cap : ℕ) :
    (written (lz77xEncode src ctx.ring ctx.ringPos prevSize cap)).length ≤ cap := by
  unfold Ctx.hasRing at hring
  rcases hctx : ctx.ring with _ | ring
  · simp [hctx] at hring
  · have hpos : 0 < ring.size := by simpa [hctx, Nat.pos_iff_ne_zero] using hring
    have h := lz77xEncode_spec hpos src ctx.ringPos prevSize cap
    rcases hr : lz77xEncode src (some ring) ctx.ringPos prevSize cap with out | out
    · rw [hr] at h
      exact h
    · rw [hr] at h
      exact h.2.2

section Blocks

variable {j : Job} {w : Work}

/-- The payload in the buffer ends at the capacity, and so did every write. -/
def Work.Fits (j : Job) (w : Work) : Prop := w.dst.top ≤ j.dstCap ∧ j.hdrSize + w.size ≤ j.dstCap

theorem Job.payloadCap_eq (hcap : j.hdrSize ≤ j.dstCap) : j.payloadCap = j.dstCap - j.hdrSize := subSize_of_le hcap

theorem lzpTrial_fits (hw : w.Fits j) : (j.lzpTrial w).Fits j := by
  obtain ⟨htop, hsize⟩ := hw
  unfold Job.lzpTrial
  split
  · exact ⟨htop, hsize⟩
  · split
    · split
      · split
        · next hlt => exact ⟨Out.write_top_le htop (by omega), by dsimp only; omega⟩
        · exact ⟨htop, hsize⟩
      · exact ⟨htop, hsize⟩
    · exact ⟨htop, hsize⟩

theorem lz77CaseA_fits (hw : w.Fits j) : (j.lz77CaseA w).1.Fits j := by
  unfold Job.lz77CaseA
  dsimp only
  split
  · next lz heq =>
    obtain ⟨-, -, -, hlz⟩ := Job.lz77Wins_eq_some.mp heq
    refine ⟨Out.write_top_le hw.1 ?_, hw.2⟩
    rw [ByteMem.length_slice]
    exact hlz
  · exact hw

theorem lz77CaseB_fits (hcap : j.hdrSize ≤ j.dstCap) (hw : w.Fits j) (residuals : List UInt8) :
    (j.lz77CaseB w residuals).1.Fits j := by
  have hlen := length_written_lz77 residuals j.payloadCap
  rw [Job.payloadCap_eq hcap] at hlen
  have htop : (w.dst.write j.hdrSize (written (lz77Encode residuals j.payloadCap))).top ≤ j.dstCap := by
    rw [Job.payloadCap_eq hcap]
    exact Out.write_top_le hw.1 (by omega)
  unfold Job.lz77CaseB
  dsimp only
  split
  · exact ⟨htop, hw.2⟩
  · refine ⟨Out.write_top_le htop ?_, hw.2⟩
    rw [ByteMem.length_slice]
    exact hw.2

theorem lz77Compete_fits (hcap : j.hdrSize ≤ j.dstCap) (inArena : Bool) (hw : w.Fits j) :
    (j.lz77Compete inArena w).1.Fits j := by
  unfold Job.lz77Compete
  split
  · split
    · exact lz77CaseA_fits hw
    · split
      · dsimp only
        split
        · exact hw
        · exact lz77CaseB_fits hcap hw _
      · exact hw
  · exact hw

theorem lzxCompete_fits (hw : w.Fits j) : (j.lzxCompete w).1.Fits j := by
  unfold Job.lzxCompete
  split
  · dsimp only
    split
    · next lz heq =>
      obtain ⟨-, -, -, hlz⟩ := Job.lz77Wins_eq_some.mp heq
      refine ⟨Out.write_top_le hw.1 ?_, hw.2⟩
      rw [ByteMem.length_slice]
      exact hlz
    · exact hw
  · exact hw

theorem tans10Compete_fits (inArena : Bool) (hw : w.Fits j) : (j.tans10Compete inArena w).Fits j := by
  obtain ⟨htop, hsize⟩ := hw
  unfold Job.tans10Compete
  split
  · split
    · next p heq =>
      obtain ⟨-, -, -, hlt⟩ := Job.tans10Trial_eq heq
      exact ⟨Out.write_top_le htop (by omega), by dsimp only; omega⟩
    · exact ⟨htop, hsize⟩
  · exact ⟨htop, hsize⟩

theorem lzxThenEnd_fits (inArena : Bool) (hw : w.Fits j) : (j.lzxThenEnd inArena w).dst.top ≤ j.dstCap := by
  have hlzx := lzxCompete_fits hw
  unfold Job.lzxThenEnd
  split
  · next heq =>
    rw [heq] at hlzx
    exact hlzx.1
  · next heq =>
    rw [heq] at hlzx
    exact (tans10Compete_fits inArena hlzx).1

theorem competition_fits (hcap : j.hdrSize ≤ j.dstCap) (inArena : Bool) (hw : w.Fits j) :
    (j.competition inArena w).dst.top ≤ j.dstCap := by
  have hlz := lz77Compete_fits hcap inArena (lzpTrial_fits hw)
  unfold Job.competition
  split
  · next heq =>
    rw [heq] at hlz
    exact hlz.1
  · next heq =>
    rw [heq] at hlz
    exact lzxThenEnd_fits inArena hlz

/-- The buffer after the tANS attempt of a block, and the payload in it. -/
theorem tansAttempt_fits (hcap : j.hdrSize ≤ j.dstCap) {dst : Out} (hdst : dst.top ≤ j.dstCap) (bytes : List UInt8)
    (flags : UInt32) :
    (dst.apply j.hdrSize (tryTansCompress j.dict j.tables bytes j.payloadRoom flags j.compact)).top ≤ j.dstCap ∧
      ∀ r, (tryTansCompress j.dict j.tables bytes j.payloadRoom flags j.compact).result = some r →
        j.hdrSize + r.1.length ≤ j.dstCap := by
  have ha := tryTansCompress_fits j.dict j.tables bytes j.payloadRoom flags j.compact
  have hp : j.payloadRoom = j.dstCap - j.hdrSize := rfl
  constructor
  · have := @Out.apply_top_le _ _ dst j.hdrSize _ (by omega) ha
    omega
  · intro r hr
    have := ha.result r hr
    omega

theorem tansBlock_fits (hcap : j.hdrSize ≤ j.dstCap) (p : Prep) {dst : Out} (hdst : dst.top ≤ j.dstCap) :
    (j.tansBlock p dst).dst.top ≤ j.dstCap := by
  obtain ⟨htop, hres⟩ := tansAttempt_fits hcap hdst (followSrc p.inArena p.arena j.src)
    (j.tansCtxFlags p.didDelta p.didLzp)
  unfold Job.tansBlock
  dsimp only
  split
  · next payload info heq =>
    split
    · exact competition_fits hcap p.inArena ⟨htop, hres _ heq⟩
    · exact htop
  · exact htop

theorem rawFallback_fits (hcap : j.hdrSize ≤ j.dstCap) (arena : Block) {dst : Out} (hdst : dst.top ≤ j.dstCap) :
    (j.rawFallback arena dst).dst.top ≤ j.dstCap := by
  obtain ⟨htop, hres⟩ := tansAttempt_fits hcap hdst
    (followSrc (j.rawLzp arena).isSome (j.rawArena arena) j.src) (j.rawFlags (j.rawLzp arena).isSome)
  unfold Job.rawFallback
  dsimp only
  split
  · next payload info heq =>
    split
    · exact lzxThenEnd_fits _ ⟨htop, hres _ heq⟩
    · exact htop
  · exact htop

theorem tansBlocks_fits (hcap : j.hdrSize ≤ j.dstCap) (p : Prep) {dst : Out} (hdst : dst.top ≤ j.dstCap) :
    (j.tansBlocks p dst).dst.top ≤ j.dstCap := by
  have hblock := tansBlock_fits hcap p hdst
  unfold Job.tansBlocks
  dsimp only
  split
  · exact rawFallback_fits hcap _ hblock
  · exact hblock

end Blocks

/-! ### The call -/

section Call

variable {ctx : Ctx} {src : List UInt8} {dstCap : ℕ}

theorem lz77Block_fits (p : Prep) {dst : Out} (hdst : dst.top ≤ dstCap) :
    (lz77Block ctx src dstCap p dst).1.top ≤ dstCap := by
  unfold lz77Block
  dsimp only
  split
  · next hroom =>
    have hlz : ∀ l : List UInt8, (dst.write (hdrSz ctx.compactMode src.length)
        (written (lz77Encode l (dstCap - hdrSz ctx.compactMode src.length)))).top ≤ dstCap := by
      intro l
      have hlen := length_written_lz77 l (dstCap - hdrSz ctx.compactMode src.length)
      exact Out.write_top_le hdst (by omega)
    split
    · exact hlz _
    · split
      · next hring =>
        simp only [Bool.and_eq_true] at hring
        have hlen := length_written_lz77x hring.1.2 src ctx.prevPktSize (dstCap - hdrSz ctx.compactMode src.length)
        split
        · exact Out.write_top_le (hlz _) (by omega)
        · exact Out.write_top_le (hlz _) (by omega)
      · exact hlz _
  · exact hdst

/-- **With room for the header, every block stays in the buffer.** -/
theorem compressBlocks_fits (hcap : hdrSz ctx.compactMode src.length ≤ dstCap) {dst : Out} (hdst : dst.top ≤ dstCap) :
    (compressBlocks ctx src dst dstCap).dst.top ≤ dstCap := by
  unfold compressBlocks
  dsimp only
  rcases ctx.dict with _ | d
  · exact lz77Block_fits _ hdst
  · dsimp only
    by_cases hpos : 0 < src.length
    · rw [if_pos hpos]
      have hb := @tansBlocks_fits ⟨ctx, d, src, dstCap⟩ hcap (prepass ctx src) _ hdst
      split
      · exact hb
      · exact lz77Block_fits _ hb
    · rw [if_neg hpos]
      exact lz77Block_fits _ hdst

/-- The subtraction that yields `payload_cap` does not wrap, where it is made: with a
dictionary, for a packet that is not empty, behind the checks at the entry. -/
def CapNotWrapped (ctx : Ctx) (src : List UInt8) (dstCap : ℕ) : Prop :=
  ∀ d, ctx.dict = some d → 0 < src.length → src.length ≤ maxPacketSize → compactHdrMin ≤ dstCap →
    (Job.mk ctx d src dstCap).hdrSize + (Job.mk ctx d src dstCap).payloadCap = dstCap

/-- A call computes its capacities right and writes below `dst_cap` only. -/
structure CapacityKept (ctx : Ctx) (src : List UInt8) (dstCap : ℕ) : Prop where
  cap : CapNotWrapped ctx src dstCap
  writes : ∀ dst dstSize, dst.top ≤ dstCap → (compress ctx src dst dstCap dstSize).dst.top ≤ dstCap

theorem hdrSz_pos (compact : Bool) (n : ℕ) : 0 < hdrSz compact n := by
  unfold hdrSz compactHdrMin compactHdrMax headerSize
  split
  · split <;> norm_num
  · norm_num

theorem Out.top_le_write (dst : Out) (off : ℕ) (bs : List UInt8) : dst.top ≤ (dst.write off bs).top := by
  unfold Out.write
  split
  · exact le_rfl
  · exact le_max_left _ _

theorem exitFinish_top (hlen : src.length ≤ maxPacketSize) (b : Blocked) (e : Exit) :
    (exitFinish ctx src b e).dst.top = max b.dst.top (hdrSz ctx.compactMode src.length) := by
  have hhdr := length_exitHeader ctx e hlen
  have hpos : hdrSz ctx.compactMode src.length ≠ 0 := (hdrSz_pos ..).ne'
  simp only [exitFinish, Out.write, hhdr, if_neg hpos, Nat.zero_add]

theorem passthruFinish_top (hlen : src.length ≤ maxPacketSize) (b : Blocked) (dstSize : ℕ) :
    max b.dst.top (hdrSz ctx.compactMode src.length) ≤ (passthruFinish ctx src b dstCap dstSize).dst.top ∧
      (hdrSz ctx.compactMode src.length ≤ dstCap → b.dst.top ≤ dstCap →
        (passthruFinish ctx src b dstCap dstSize).dst.top ≤ dstCap) := by
  have hhdr := length_passthruHeader ctx.modelId ctx.contextSeq hlen ctx.compactMode
  have hpos : hdrSz ctx.compactMode src.length ≠ 0 := (hdrSz_pos ..).ne'
  have hemit : (emitPassthrough ctx.modelId ctx.contextSeq src b.dst dstCap ctx.compactMode).2.1
      = (passthruFinish ctx src b dstCap dstSize).dst := by
    unfold passthruFinish
    dsimp only
    split
    · rfl
    · rfl
  rw [← hemit]
  simp only [emitPassthrough, hhdr]
  by_cases hroom : dstCap < hdrSz ctx.compactMode src.length + src.length
  · rw [if_pos hroom]
    simp only [Out.write, hhdr, if_neg hpos, Nat.zero_add]
    exact ⟨le_rfl, fun h h' => by omega⟩
  · rw [if_neg hroom]
    have htop : (b.dst.write 0 (hdrEmit (passthruHeader ctx.modelId ctx.contextSeq src.length) ctx.compactMode)).top
        = max b.dst.top (hdrSz ctx.compactMode src.length) := by
      simp only [Out.write, hhdr, if_neg hpos, Nat.zero_add]
    refine ⟨?_, fun h h' => Out.write_top_le (by omega) (by omega)⟩
    rw [← htop]
    exact Out.top_le_write ..

/-- A call that is not turned down writes its header. -/
theorem CapacityKept.room (hlen : src.length ≤ maxPacketSize) (h : CapacityKept ctx src dstCap) :
    dstCap < compactHdrMin ∨ hdrSz ctx.compactMode src.length ≤ dstCap := by
  by_contra hno
  obtain ⟨hmin, hroom⟩ := not_or.mp hno
  have htop := h.writes ⟨fun _ => 0, 0⟩ 0 (Nat.zero_le _)
  unfold compress at htop
  rw [if_neg (by omega), if_neg hmin] at htop
  dsimp only at htop
  split at htop
  · rw [exitFinish_top hlen] at htop
    omega
  · have hle := (@passthruFinish_top ctx src dstCap hlen (compressBlocks ctx src ⟨fun _ => 0, 0⟩ dstCap) 0).1
    omega

/-- **A call stays in its buffer** if it is turned down at the entry or has room for the header of its mode. -/
theorem compress_fits (h : dstCap < compactHdrMin ∨ hdrSz ctx.compactMode src.length ≤ dstCap) {dst : Out}
    (hdst : dst.top ≤ dstCap) (dstSize : ℕ) : (compress ctx src dst dstCap dstSize).dst.top ≤ dstCap := by
  unfold compress
  split
  · exact hdst
  · next hlen =>
    split
    · exact hdst
    · next hmin =>
      have hcap := h.resolve_left hmin
      have hblocks := compressBlocks_fits hcap hdst
      dsimp only
      split
      · rw [exitFinish_top (not_lt.mp hlen)]
        omega
      · exact (passthruFinish_top (not_lt.mp hlen) _ dstSize).2 hcap hblocks

/-- **The capacity is kept** exactly by the calls that have room for the header of
their mode, or are turned down at the entry. -/
theorem compress_capacity_iff (ctx : Ctx) (src : List UInt8) (hlen : src.length ≤ maxPacketSize) (dstCap : ℕ) :
    CapacityKept ctx src dstCap ↔ dstCap < compactHdrMin ∨ hdrSz ctx.compactMode src.length ≤ dstCap := by
  constructor
  · exact CapacityKept.room hlen
  · intro h
    refine ⟨fun d _ _ _ hmin => ?_, fun dst dstSize hdst => compress_fits h hdst dstSize⟩
    have hcap : (Job.mk ctx d src dstCap).hdrSize ≤ (Job.mk ctx d src dstCap).dstCap := h.resolve_left (by omega)
    rw [Job.payloadCap_eq hcap]
    exact Nat.add_sub_cancel' hcap

theorem compress_capacity_plain : CapacityKept (newCtx none CfgFlag.stateful) [1] 8 :=
  (compress_capacity_iff _ [1] (by decide) 8).mpr (.inr (by decide))

/-- The smallest capacity of any mode, in the mode with the eight-byte header: the header is
written past it, and with a dictionary the room behind the header wraps. -/
theorem compress_capacity_exceeded :
    (Reachable (newCtx none CfgFlag.stateful) ∧ ¬CapacityKept (newCtx none CfgFlag.stateful) [1] 2) ∧
    ∃ d, dictTrain [] 1 = .ok d ∧ Reachable (newCtx (some d) CfgFlag.stateful) ∧
      ¬CapNotWrapped (newCtx (some d) CfgFlag.stateful) [1] 2 := by
  refine ⟨⟨plain_reachable (by decide), fun h => ?_⟩, ?_⟩
  · exact absurd (h.room (by decide)) (by decide)
  · obtain ⟨d, hd⟩ := @dictTrain_ok [] 1 (by decide)
    refine ⟨d, hd, newCtx_reachable (fun _ h => ?_) (by decide), fun h => ?_⟩
    · rw [← Option.some.inj h]
      exact ⟨[], 1, hd⟩
    · have hc : (newCtx (some d) CfgFlag.stateful).compactMode = false :=
        show CfgFlag.has CfgFlag.stateful CfgFlag.compactHdr = false by decide
      have hwrap := h d rfl (by decide) (by decide) (by decide)
      simp only [Job.hdrSize, Job.payloadCap, Job.compact, hc] at hwrap
      exact absurd hwrap (by decide)

end Call

end Netc
