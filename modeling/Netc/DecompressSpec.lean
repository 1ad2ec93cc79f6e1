/-
# What a call of netc_decompress does

On a well-formed context a call ends in one of three ways: the packet is
turned down at its header, its payload is turned down by the decoder, or it
is decoded, its transforms are undone and the history takes it in
(`decompress_cases`). What is decoded does not depend on the buffer, and the
post-passes are functions of the decoded bytes that lose nothing
(`undo_injective`).

Key definitions: `decompPrediction`, `undo`, `Parsed`.
Key theorems: `decompress_cases`, `decompressStateless_cases`, `undo_injective`.
-/
import Netc.DecodeSafe

namespace Netc

/-! ### The post-passes as functions of the bytes -/

theorem residualByte_restoreByte (i : ℕ) (r p : UInt8) : residualByte i (restoreByte i r p) p = r := by
  simp only [restoreByte, residualByte]
  split
  · rw [UInt8.xor_assoc, UInt8.xor_self, UInt8.xor_zero]
  · exact UInt8.add_sub_cancel r p

/-- Encoding against the packet decoded against gives the residuals. -/
theorem deltaEncode_deltaDecode (prev : ℕ → UInt8) (l : List UInt8) : deltaEncode prev (deltaDecode prev l) = l := by
  refine List.ext_getElem (by simp) fun i h1 h2 => ?_
  simp [deltaDecode, deltaEncode, residualByte_restoreByte]

/-- The prediction the delta post-pass restores a packet of `n` bytes from, if it is made. -/
def decompPrediction (ctx : Ctx) (flags : UInt8) (n : ℕ) : Option (ℕ → UInt8) :=
  match ctx.prevPkt with
  | none => none
  | some prev =>
    if PktFlag.has flags PktFlag.delta && decide (ctx.prevPktSize = n) then
      match ctx.prev2Pkt with
      | some prev2 =>
        some (if PktFlag.has flags PktFlag.rle && ctx.prev2PktSize == n then predicted prev2.byte prev.byte
          else prev.byte)
      | none => some prev.byte
    else none

section Prediction

variable {ctx : Ctx} {flags : UInt8} {n : ℕ}

/-- Without the delta flag there is no prediction. -/
theorem decompPrediction_none (hf : PktFlag.has flags PktFlag.delta = false) (n : ℕ) :
    decompPrediction ctx flags n = none := by
  unfold decompPrediction
  rcases ctx.prevPkt with _ | prev
  · rfl
  · simp only [hf, Bool.false_and, Bool.false_eq_true, if_false]

/-- The prediction of order 1. -/
theorem decompPrediction_order1 {prev : Block} (hf : PktFlag.has flags PktFlag.delta = true)
    (hr : PktFlag.has flags PktFlag.rle = false) (hp : ctx.prevPkt = some prev) (hsize : ctx.prevPktSize = n) :
    decompPrediction ctx flags n = some prev.byte := by
  unfold decompPrediction
  simp only [hp, hf, hsize, hr, decide_true, Bool.and_self, if_true, Bool.false_and, Bool.false_eq_true, if_false]
  rcases ctx.prev2Pkt with _ | prev2 <;> rfl

/-- The prediction of order 2. -/
theorem decompPrediction_order2 {prev prev2 : Block}
    (hf : PktFlag.has flags PktFlag.delta = true) (hr : PktFlag.has flags PktFlag.rle = true)
    (hp : ctx.prevPkt = some prev) (hsize : ctx.prevPktSize = n) (h2 : ctx.prev2Pkt = some prev2)
    (hs2 : ctx.prev2PktSize = n) : decompPrediction ctx flags n = some (predicted prev2.byte prev.byte) := by
  unfold decompPrediction
  simp only [hp, hf, hsize, hr, h2, hs2, decide_true, Bool.and_self, if_true, beq_self_eq_true]

end Prediction

/-- Residuals restored from a prediction, if there is one. -/
def restored (prediction : Option (ℕ → UInt8)) (l : List UInt8) : List UInt8 :=
  match prediction with
  | none => l
  | some p => deltaDecode p l

/-- The inverse of the LZP filter, as bytes. -/
def unfiltered (lzp : Option LzpTable) (l : List UInt8) : List UInt8 :=
  match lzp with
  | none => l
  | some lzp =>
    match lzpXorUnfilter lzp l with
    | .ok out => out
    | .error _ => l

/-- The algorithm byte announces the LZP filter. -/
def LzpAnnounced (algorithm : UInt8) : Prop :=
  algId algorithm = Alg.lzp ∨ (algId algorithm = Alg.tansPctx ∧ algorithm &&& 0xF0 ≠ 0)

instance (algorithm : UInt8) : Decidable (LzpAnnounced algorithm) := inferInstanceAs (Decidable (_ ∨ _))

/-- The decoded bytes with the packet's transforms undone. -/
def undo (ctx : Ctx) (hdr : PktHeader) (l : List UInt8) : List UInt8 :=
  let prediction := decompPrediction ctx hdr.flags l.length
  if algId hdr.algorithm = Alg.passthru then
    if PktFlag.has hdr.flags PktFlag.lz77 then restored prediction l else l
  else if algId hdr.algorithm = Alg.lz77x then l
  else if LzpAnnounced hdr.algorithm then restored prediction (unfiltered ctx.getLzpTable l)
  else restored prediction l

/-- The decoded bytes with the packet's filter undone, on the stateless path. -/
def undoStateless (d : Dict) (hdr : PktHeader) (l : List UInt8) : List UInt8 :=
  if LzpAnnounced hdr.algorithm then unfiltered d.lzpTable l else l

@[simp] theorem length_restored (prediction : Option (ℕ → UInt8)) (l : List UInt8) :
    (restored prediction l).length = l.length := by
  cases prediction <;> simp [restored]

@[simp] theorem length_unfiltered (lzp : Option LzpTable) (l : List UInt8) : (unfiltered lzp l).length = l.length := by
  cases lzp with
  | none => rfl
  | some lzp =>
    obtain ⟨out, h, hlen⟩ := lzpXorUnfilter_ok lzp l
    simp [unfiltered, h, hlen]

theorem restored_injective (prediction : Option (ℕ → UInt8)) : Function.Injective (restored prediction) := by
  cases prediction with
  | none => exact fun _ _ h => h
  | some p =>
    intro a b h
    simp only [restored] at h
    rw [← deltaEncode_deltaDecode p a, h, deltaEncode_deltaDecode]

theorem unfiltered_injective (lzp : Option LzpTable) : Function.Injective (unfiltered lzp) := by
  cases lzp with
  | none => exact fun _ _ h => h
  | some lzp =>
    intro a b h
    obtain ⟨oa, ha, -⟩ := lzpXorUnfilter_ok lzp a
    obtain ⟨ob, hb, -⟩ := lzpXorUnfilter_ok lzp b
    simp only [unfiltered, ha, hb] at h
    rw [← lzpFilterFrom_lzpUnfilterFrom lzp a 0 0 oa ha, ← lzpFilterFrom_lzpUnfilterFrom lzp b 0 0 ob hb, h]

@[simp] theorem length_undo (ctx : Ctx) (hdr : PktHeader) (l : List UInt8) : (undo ctx hdr l).length = l.length := by
  simp only [undo]
  repeat' split
  all_goals simp

/-- **The post-passes lose nothing.** -/
theorem undo_injective (ctx : Ctx) (hdr : PktHeader) {a b : List UInt8} (hlen : a.length = b.length)
    (h : undo ctx hdr a = undo ctx hdr b) : a = b := by
  simp only [undo, hlen] at h
  split at h
  · split at h
    · exact restored_injective _ h
    · exact h
  · split at h
    · exact h
    · split at h
      · exact unfiltered_injective _ (restored_injective _ h)
      · exact restored_injective _ h

theorem undoStateless_injective (d : Dict) (hdr : PktHeader) {a b : List UInt8}
    (h : undoStateless d hdr a = undoStateless d hdr b) : a = b := by
  simp only [undoStateless] at h
  split at h
  · exact unfiltered_injective _ h
  · exact h

/-- A pass over the first `n` bytes of a buffer, in place: it computes `f` of
them and touches nothing behind them. -/
def InPlace (n : ℕ) (f : List UInt8 → List UInt8) (pass : Out → Chk Out) : Prop :=
  ∀ dst, ∃ dst', pass dst = .ok dst' ∧ dst'.read n = f (dst.read n) ∧ (∀ i, n ≤ i → dst'.byte i = dst.byte i) ∧
    dst'.top ≤ max dst.top n

theorem inPlace_id (n : ℕ) : InPlace n id fun dst => .ok dst :=
  fun dst => ⟨dst, rfl, rfl, fun _ _ => rfl, le_max_left _ _⟩

theorem inPlace_restored_none (n : ℕ) : InPlace n (restored none) fun dst => .ok dst := inPlace_id n

theorem inPlace_write {n : ℕ} {f : List UInt8 → List UInt8} (hf : ∀ l, (f l).length = l.length) :
    InPlace n f fun dst => .ok (dst.write 0 (f (dst.read n))) := by
  intro dst
  have hlen : (f (dst.read n)).length = n := by rw [hf, Out.length_read]
  refine ⟨_, rfl, Out.read_write _ hlen, fun i hi => ByteMem.write_of_ge (by omega), ?_⟩
  exact Out.write_top_le (le_max_left _ _) (by omega)

/-- One pass after another. -/
theorem InPlace.comp {n : ℕ} {f g : List UInt8 → List UInt8} {p q : Out → Chk Out} (hp : InPlace n f p)
    (hq : InPlace n g q) : InPlace n (fun l => g (f l)) fun dst => p dst >>= q := by
  intro dst
  obtain ⟨d1, h1, h2, h3, h4⟩ := hp dst
  obtain ⟨d2, h5, h6, h7, h8⟩ := hq d1
  refine ⟨d2, by simp only [h1, Exc.ok_bind, h5], by rw [h6, h2], fun i hi => by rw [h7 i hi, h3 i hi], by omega⟩

theorem InPlace.congr {n : ℕ} {f g : List UInt8 → List UInt8} {p : Out → Chk Out} (hp : InPlace n f p)
    (h : ∀ l, l.length = n → f l = g l) : InPlace n g p := by
  intro dst
  obtain ⟨d1, h1, h2, h3⟩ := hp dst
  exact ⟨d1, h1, by rw [h2, h _ (Out.length_read dst n)], h3⟩

/-- The bulk pass of every level is `deltaDecode`. -/
theorem inPlace_bulkDecode (level : SimdLevel) (prev : ℕ → UInt8) (n : ℕ) :
    InPlace n (deltaDecode prev) fun dst => .ok ⟨bulkDecode level prev dst.byte n, max dst.top n⟩ := by
  intro dst
  refine ⟨_, rfl, ?_, fun i hi => ?_, Nat.le_refl _⟩
  · simp only [bulkDecode_eq, Out.read]
    exact ByteMem.slice_write_eq _ _ (by simp)
  · simp only [bulkDecode_eq]
    exact ByteMem.write_of_ge (by simpa using hi)

theorem Block.read_ok {b : Block} {n : ℕ} (h : n ≤ b.size) : b.read n = .ok (ByteMem.slice b.byte 0 n) := if_pos h

section Passes

variable {ctx : Ctx}

/-- The delta post-pass, if it does not fail at its reads of the history. -/
theorem decompDeltaPostpass_inPlace {flags : UInt8} {n : ℕ} {dst dst' : Out}
    (hok : decompDeltaPostpass ctx flags dst n = .ok dst') :
    InPlace n (restored (decompPrediction ctx flags n)) fun dst => decompDeltaPostpass ctx flags dst n := by
  unfold decompDeltaPostpass at hok ⊢
  unfold decompPrediction
  cases hf : PktFlag.has flags PktFlag.delta with
  | false => cases ctx.prevPkt <;> simpa using inPlace_restored_none n
  | true =>
    simp only [hf, Bool.not_true, Bool.false_eq_true, if_false] at hok
    cases hp : ctx.prevPkt with
    | none => simpa using inPlace_restored_none n
    | some prev =>
      simp only [hp] at hok
      by_cases hsize : ctx.prevPktSize = n
      · simp only [hsize, ne_eq, not_true_eq_false, if_false] at hok
        obtain ⟨bs, hprev, hok⟩ := Exc.bind_eq_ok hok
        simp only [hsize, ne_eq, not_true_eq_false, if_false, hprev, Exc.ok_bind, decide_true, Bool.and_true,
          Bool.not_true, Bool.false_eq_true, if_true]
        cases hp2 : ctx.prev2Pkt with
        | none => exact inPlace_bulkDecode ctx.simdOps prev.byte n
        | some prev2 =>
          simp only [hp2] at hok ⊢
          split at hok
          · next ho =>
            obtain ⟨bs2, hprev2, -⟩ := Exc.bind_eq_ok hok
            simp only [if_pos ho, hprev2, Exc.ok_bind, Exc.pure_eq]
            exact inPlace_write (fun l => length_deltaDecodeOrder2 _ _ l)
          · next ho =>
            simp only [if_neg ho]
            exact inPlace_bulkDecode ctx.simdOps prev.byte n
      · simp only [ne_eq, hsize, not_false_eq_true, if_true, Bool.not_true, Bool.false_eq_true, if_false,
          decide_false, Bool.and_false]
        exact inPlace_restored_none n

theorem Ctx.Wf.decompDeltaPostpass_ok (h : ctx.Wf) (flags : UInt8) {n : ℕ} (hn : n ≤ maxPacketSize) (dst : Out) :
    ∃ dst', decompDeltaPostpass ctx flags dst n = .ok dst' := by
  have hread : ∀ {b : Block}, b.size = maxPacketSize → ∃ bs, b.read n = .ok bs := fun hb =>
    ⟨_, Block.read_ok (by rw [hb]; exact hn)⟩
  unfold decompDeltaPostpass
  split
  · exact ⟨_, rfl⟩
  · split
    · exact ⟨_, rfl⟩
    · next prev hp =>
      obtain ⟨bs, hbs⟩ := hread (h.prev prev hp)
      split
      · exact ⟨_, rfl⟩
      · rw [hbs, Exc.ok_bind]
        split
        · next prev2 hp2 =>
          obtain ⟨bs2, hbs2⟩ := hread (h.prev2 prev2 hp2)
          split
          · rw [hbs2]
            exact ⟨_, rfl⟩
          · exact ⟨_, rfl⟩
        · exact ⟨_, rfl⟩

theorem unfilterInPlace_spec (lzp : Option LzpTable) (n : ℕ) :
    InPlace n (unfiltered lzp) fun dst => unfilterInPlace lzp dst n := by
  cases lzp with
  | none => exact inPlace_id n
  | some lzp =>
    intro dst
    obtain ⟨out, h, hlen⟩ := lzpXorUnfilter_ok lzp (dst.read n)
    have hu : unfiltered (some lzp) (dst.read n) = out := by simp only [unfiltered, h]
    obtain ⟨d, h1, h2⟩ := inPlace_write (n := n) (length_unfiltered (some lzp)) dst
    simp only [hu] at h1 h2
    refine ⟨d, ?_, by rw [hu]; exact h2⟩
    simp only [unfilterInPlace, h, Exc.ok_bind, Exc.pure_eq]
    exact h1

/-- The packet goes through the delta post-pass. -/
def RunsPostpass (hdr : PktHeader) : Prop :=
  (algId hdr.algorithm = Alg.passthru → PktFlag.has hdr.flags PktFlag.lz77 = true) ∧ algId hdr.algorithm ≠ Alg.lz77x

theorem undoTransforms_inPlace {hdr : PktHeader}
    (hdelta : RunsPostpass hdr → InPlace hdr.originalSize (restored (decompPrediction ctx hdr.flags hdr.originalSize))
      fun dst => decompDeltaPostpass ctx hdr.flags dst hdr.originalSize) :
    InPlace hdr.originalSize (undo ctx hdr) (undoTransforms ctx hdr) := by
  refine InPlace.congr (f := fun l =>
    if algId hdr.algorithm = Alg.passthru then
      if PktFlag.has hdr.flags PktFlag.lz77 then restored (decompPrediction ctx hdr.flags hdr.originalSize) l else l
    else if algId hdr.algorithm = Alg.lz77x then l
    else if LzpAnnounced hdr.algorithm then
      restored (decompPrediction ctx hdr.flags hdr.originalSize) (unfiltered ctx.getLzpTable l)
    else restored (decompPrediction ctx hdr.flags hdr.originalSize) l) ?_ fun l hl => by simp only [undo, hl]
  unfold undoTransforms
  simp only
  by_cases hp : algId hdr.algorithm = Alg.passthru
  · simp only [if_pos hp]
    cases hlz : PktFlag.has hdr.flags PktFlag.lz77 with
    | true => exact hdelta ⟨fun _ => hlz, by rw [hp]; decide⟩
    | false => exact inPlace_id _
  simp only [if_neg hp]
  by_cases hx : algId hdr.algorithm = Alg.lz77x
  · simp only [if_pos hx]
    exact inPlace_id _
  simp only [if_neg hx]
  have hdelta := hdelta ⟨fun h => absurd h hp, hx⟩
  by_cases hl : LzpAnnounced hdr.algorithm
  · simp only [if_pos hl]
    rw [LzpAnnounced] at hl
    simp only [if_pos hl]
    exact (unfilterInPlace_spec ctx.getLzpTable _).comp hdelta
  · simp only [if_neg hl]
    rw [LzpAnnounced] at hl
    simp only [if_neg hl]
    exact hdelta

theorem undoTransforms_spec (h : ctx.Wf) {hdr : PktHeader} (hn : hdr.originalSize ≤ maxPacketSize) :
    InPlace hdr.originalSize (undo ctx hdr) (undoTransforms ctx hdr) := by
  obtain ⟨dst', hok⟩ := h.decompDeltaPostpass_ok hdr.flags hn ⟨fun _ => 0, 0⟩
  exact undoTransforms_inPlace fun _ => decompDeltaPostpass_inPlace hok

/-- A post-pass that was made did not fail, so that it computes what it does on every buffer. -/
theorem undoTransforms_read {hdr : PktHeader} {dst dst' : Out} (hok : undoTransforms ctx hdr dst = .ok dst') :
    dst'.read hdr.originalSize = undo ctx hdr (dst.read hdr.originalSize) := by
  have hpost : RunsPostpass hdr → ∃ dst₁, decompDeltaPostpass ctx hdr.flags dst₁ hdr.originalSize = .ok dst' := by
    rintro ⟨hp, hx⟩
    unfold undoTransforms at hok
    simp only [if_neg hx] at hok
    split at hok
    · next h =>
      rw [if_pos (hp h)] at hok
      exact ⟨dst, hok⟩
    · split at hok
      · obtain ⟨dst₁, -, hok⟩ := Exc.bind_eq_ok hok
        exact ⟨dst₁, hok⟩
      · exact ⟨dst, hok⟩
  obtain ⟨o, ho, hread, -⟩ := @undoTransforms_inPlace ctx hdr (fun h => by
    obtain ⟨dst₁, h₁⟩ := hpost h
    exact decompDeltaPostpass_inPlace h₁) dst
  rw [hok, Except.ok.injEq] at ho
  rw [ho, hread]

theorem statelessUndo_spec (d : Dict) (hdr : PktHeader) :
    InPlace hdr.originalSize (undoStateless d hdr) (statelessUndo d hdr) := by
  unfold statelessUndo undoStateless
  simp only
  by_cases hl : LzpAnnounced hdr.algorithm
  · simp only [if_pos hl]
    rw [LzpAnnounced] at hl
    simp only [if_pos hl]
    exact unfilterInPlace_spec d.lzpTable _
  · simp only [if_neg hl]
    rw [LzpAnnounced] at hl
    simp only [if_neg hl]
    exact inPlace_id _

end Passes

/-! ### The three ways a call ends -/

/-- The packet `src` has header `hdr` and payload `payload`, and is one for this
context: what `netc_decompress` knows before it decodes. -/
structure Parsed (ctx : Ctx) (src : List UInt8) (dstCap : ℕ) (hdr : PktHeader) (payload : List UInt8) : Prop where
  header : ∃ h n, validateHeader src dstCap ctx.compactMode = .ok (.ok (h, n)) ∧ hdr = fillHeader ctx h ∧
    payload = (src.drop n).take hdr.compressedSize
  model : modelMismatch ctx hdr = false
  size_le : hdr.originalSize ≤ maxPacketSize
  cap_le : hdr.originalSize ≤ dstCap
  length : payload.length = hdr.compressedSize

/-- The packet `src` has header `hdr` and payload `payload`, on the stateless path. -/
structure ParsedStateless (d : Dict) (src : List UInt8) (dstCap : ℕ) (hdr : PktHeader) (payload : List UInt8) :
    Prop where
  header : ∃ n, validateHeader src dstCap false = .ok (.ok (hdr, n)) ∧
    payload = (src.drop n).take hdr.compressedSize
  model : (!PktFlag.has hdr.flags PktFlag.passthru && hdr.modelId != d.modelId) = false
  no_delta : PktFlag.has hdr.flags PktFlag.delta = false
  size_le : hdr.originalSize ≤ maxPacketSize
  cap_le : hdr.originalSize ≤ dstCap
  length : payload.length = hdr.compressedSize

@[simp] theorem fillHeader_originalSize (ctx : Ctx) (h : PktHeader) :
    (fillHeader ctx h).originalSize = h.originalSize := by
  rw [fillHeader]
  split <;> rfl

@[simp] theorem fillHeader_compressedSize (ctx : Ctx) (h : PktHeader) :
    (fillHeader ctx h).compressedSize = h.compressedSize := by
  rw [fillHeader]
  split <;> rfl

theorem Ctx.Wf.checkHistory {ctx : Ctx} (h : ctx.Wf) {n : ℕ} (hn : n ≤ maxPacketSize) :
    ctx.checkHistory n = .ok () := by
  have hle := h.prev_le
  rw [Ctx.checkHistory, if_neg, if_neg, if_neg]
  · simp only [Option.any_eq_true, not_exists, not_and, decide_eq_true_eq]
    intro r hr
    have := h.ring r hr
    omega
  · simp only [Option.any_eq_true, not_exists, not_and, decide_eq_true_eq]
    intro p hp
    have := h.prev2 p hp
    omega
  · simp only [Option.any_eq_true, not_exists, not_and, decide_eq_true_eq]
    intro p hp
    have := h.prev p hp
    omega

/-- The writes `ws` are what decoding the payload comes to, with return code `code`. -/
structure Decodes (n : ℕ) (hdr : PktHeader) (payload : List UInt8) (f : Out → Chk (Out × Result)) (ws : Writes)
    (code : Result) : Prop where
  run : ∀ dst, f dst = .ok (dst.applyWrites 0 ws, code)
  within : ws.Within n
  covers : code = .ok → ∀ i < n, ws.Covers i ↔ Listed hdr payload i

section Cases

variable {ctx : Ctx} {src : List UInt8}

/-- What an accepted packet went through, on any context. -/
theorem decompress_eq_ok {dst : Out} {dstCap dstSize : ℕ} {r : DecompressRet}
    (h : decompress ctx src dst dstCap dstSize = .ok r) (hcode : r.code = .ok) :
    ∃ hdr payload decoded, Parsed ctx src dstCap hdr payload ∧
      decodePayload ctx hdr payload dst = .ok (decoded, .ok) ∧ undoTransforms ctx hdr decoded = .ok r.dst ∧
      r.dstSize = hdr.originalSize := by
  obtain ⟨v, hv, hpost⟩ := validateHeader_ok src dstCap ctx.compactMode
  rw [decompress, hv, Exc.ok_bind] at h
  rcases v with code | ⟨h0, n⟩
  · obtain rfl := Except.ok.inj h
    exact absurd hcode hpost
  · obtain ⟨hsize, hcap, hlen⟩ := hpost
    simp only at hsize hcap hlen h
    rw [decompressBody] at h
    split at h
    · obtain rfl := Except.ok.inj h
      cases hcode
    · next hm =>
      obtain ⟨payload, hsub, h⟩ := Exc.bind_eq_ok h
      obtain ⟨⟨decoded, code⟩, hdec, h⟩ := Exc.bind_eq_ok h
      simp only at h
      split at h
      · next hne =>
        obtain rfl := Except.ok.inj h
        exact absurd hcode hne
      · next hok =>
        obtain ⟨dst', hundo, h⟩ := Exc.bind_eq_ok h
        obtain ⟨_, -, h⟩ := Exc.bind_eq_ok h
        obtain rfl := Except.ok.inj h
        rw [Chk.sub_of_le (by simpa using hlen), Except.ok.injEq] at hsub
        rw [not_not] at hok
        subst hsub hok
        refine ⟨fillHeader ctx h0, _, decoded, ⟨⟨h0, n, hv, rfl, rfl⟩, ?_, ?_, ?_, ?_⟩, hdec, hundo, rfl⟩
        · simpa using hm
        · simpa using hsize
        · simpa using hcap
        · simp only [List.length_take, List.length_drop, fillHeader_compressedSize]
          omega

/-- **The three ways a call of `netc_decompress` ends.** -/
theorem decompress_cases (h : ctx.Wf) (src : List UInt8) (dstCap : ℕ) :
    (∃ code, code ≠ .ok ∧ ∀ dst dstSize, decompress ctx src dst dstCap dstSize = .ok ⟨code, dst, dstSize, ctx⟩) ∨
    ∃ hdr payload ws code, Parsed ctx src dstCap hdr payload ∧
      Decodes hdr.originalSize hdr payload (decodePayload ctx hdr payload) ws code ∧
      ((code ≠ .ok ∧ ∀ dst dstSize,
          decompress ctx src dst dstCap dstSize = .ok ⟨code, dst.applyWrites 0 ws, dstSize, ctx⟩) ∨
        (code = .ok ∧ ∀ dst dstSize, ∃ dst', undoTransforms ctx hdr (dst.applyWrites 0 ws) = .ok dst' ∧
          decompress ctx src dst dstCap dstSize = .ok ⟨.ok, dst', hdr.originalSize,
            decompFinish ctx hdr src.length (dst'.read hdr.originalSize)⟩)) := by
  obtain ⟨r, hr, hpost⟩ := validateHeader_ok src dstCap ctx.compactMode
  simp only [decompress, hr, Exc.ok_bind]
  cases r with
  | error code => exact .inl ⟨code, hpost, fun _ _ => rfl⟩
  | ok p =>
    obtain ⟨h0, n⟩ := p
    obtain ⟨hsize, hcap, hlen⟩ := hpost
    simp only at hsize hcap hlen
    simp only [decompressBody]
    cases hm : modelMismatch ctx (fillHeader ctx h0) with
    | true => exact .inl ⟨.errVersion, by simp, fun _ _ => by simp only [if_true]⟩
    | false =>
      refine .inr ?_
      have hplen : ((src.drop n).take (fillHeader ctx h0).compressedSize).length
          = (fillHeader ctx h0).compressedSize := by
        simp only [List.length_take, List.length_drop, fillHeader_compressedSize]
        omega
      have hsub := Chk.sub_of_le (l := src) (i := n) (n := (fillHeader ctx h0).compressedSize)
        (by simpa using hlen)
      have hn : (fillHeader ctx h0).originalSize ≤ maxPacketSize := by simpa using hsize
      obtain ⟨ws, code, h1, h2, h3⟩ := decodePayload_spec h hn hplen
      refine ⟨_, _, ws, code, ⟨⟨h0, n, hr, rfl, rfl⟩, hm, hn, by simpa using hcap, hplen⟩, ⟨h1, h2, h3⟩, ?_⟩
      simp only [Bool.false_eq_true, if_false, hsub, Exc.ok_bind, h1]
      by_cases hcode : code = .ok
      · refine .inr ⟨hcode, fun dst dstSize => ?_⟩
        obtain ⟨dst', hu, -⟩ := undoTransforms_spec h hn (dst.applyWrites 0 ws)
        refine ⟨dst', hu, ?_⟩
        simp only [hcode, ne_eq, not_true_eq_false, if_false, hu, Exc.ok_bind, h.checkHistory hn, Exc.pure_eq]
      · refine .inl ⟨hcode, fun dst dstSize => ?_⟩
        simp only [ne_eq, hcode, not_false_eq_true, if_true, Exc.pure_eq]

/-- **The three ways a call of `netc_decompress_stateless` ends.** -/
theorem decompressStateless_cases {d : Dict} (h : d.Sound) (src : List UInt8) (dstCap : ℕ) :
    (∃ code, code ≠ .ok ∧ ∀ dst dstSize, decompressStateless d src dst dstCap dstSize = .ok ⟨code, dst, dstSize⟩) ∨
    ∃ hdr payload ws code, ParsedStateless d src dstCap hdr payload ∧
      Decodes hdr.originalSize hdr payload (statelessPayload d hdr payload) ws code ∧
      ((code ≠ .ok ∧ ∀ dst dstSize,
          decompressStateless d src dst dstCap dstSize = .ok ⟨code, dst.applyWrites 0 ws, dstSize⟩) ∨
        (code = .ok ∧ ∀ dst dstSize, ∃ dst', statelessUndo d hdr (dst.applyWrites 0 ws) = .ok dst' ∧
          decompressStateless d src dst dstCap dstSize = .ok ⟨.ok, dst', hdr.originalSize⟩)) := by
  obtain ⟨r, hr, hpost⟩ := validateHeader_ok src dstCap false
  simp only [decompressStateless, hr, Exc.ok_bind]
  cases r with
  | error code => exact .inl ⟨code, hpost, fun _ _ => rfl⟩
  | ok p =>
    obtain ⟨hdr, n⟩ := p
    obtain ⟨hsize, hcap, hlen⟩ := hpost
    simp only at hsize hcap hlen
    simp only [statelessBody]
    cases hm : !PktFlag.has hdr.flags PktFlag.passthru && hdr.modelId != d.modelId with
    | true => exact .inl ⟨.errVersion, by simp, fun _ _ => by simp only [if_true]⟩
    | false =>
      cases hdelta : PktFlag.has hdr.flags PktFlag.delta with
      | true =>
        exact .inl ⟨.errCorrupt, by simp, fun _ _ => by simp only [Bool.false_eq_true, if_false, if_true]⟩
      | false =>
        refine .inr ?_
        have hplen : ((src.drop n).take hdr.compressedSize).length = hdr.compressedSize := by
          simp only [List.length_take, List.length_drop]
          omega
        have hsub := Chk.sub_of_le hlen
        obtain ⟨ws, code, h1, h2, h3⟩ := statelessPayload_spec h hsize hplen
        refine ⟨hdr, _, ws, code, ⟨⟨n, hr, rfl⟩, hm, hdelta, hsize, hcap, hplen⟩, ⟨h1, h2, h3⟩, ?_⟩
        simp only [Bool.false_eq_true, if_false, hsub, Exc.ok_bind, h1]
        by_cases hcode : code = .ok
        · refine .inr ⟨hcode, fun dst dstSize => ?_⟩
          obtain ⟨dst', hu, -⟩ := statelessUndo_spec d hdr (dst.applyWrites 0 ws)
          refine ⟨dst', hu, ?_⟩
          simp only [hcode, ne_eq, not_true_eq_false, if_false, hu, Exc.ok_bind, Exc.pure_eq]
        · refine .inl ⟨hcode, fun dst dstSize => ?_⟩
          simp only [ne_eq, hcode, not_false_eq_true, if_true, Exc.pure_eq]

end Cases

end Netc
