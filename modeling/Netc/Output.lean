/-
# What an accepted packet decodes to

Two things a caller takes for granted of a packet that `netc_decompress`
accepts. Its bytes come from the packet and the context, not from
what the output buffer held before: that is so just when every byte lies in
a region the packet lists (`decompress_independent_iff`). And every transform its header
announces was undone: that is so just when the history that residuals need is there, and
the table that the filter needs (`decompress_undone_iff`).

Key definitions: `Independent`, `RegionsListed`, `Undone`, `HistoryHeld`, `FilterHeld`.
Key theorems: `decompress_independent_iff`, `decompress_undone_iff`.
-/
import Netc.Reach

namespace Netc

/-! ### Accepted packets -/

/-- `netc_decompress` returns `NETC_OK` on this packet. -/
def Accepts (ctx : Ctx) (src : List UInt8) (dstCap : ℕ) : Prop :=
  ∃ dst dstSize r, decompress ctx src dst dstCap dstSize = .ok r ∧ r.code = .ok

/-- `netc_decompress_stateless` returns `NETC_OK` on this packet. -/
def AcceptsStateless (d : Dict) (src : List UInt8) (dstCap : ℕ) : Prop :=
  ∃ dst dstSize r, decompressStateless d src dst dstCap dstSize = .ok r ∧ r.code = .ok

section Accepted

variable {src : List UInt8} {dstCap : ℕ}

/-- An accepted packet is accepted with every buffer. -/
theorem Accepts.cases {ctx : Ctx} (h : ctx.Wf) (hacc : Accepts ctx src dstCap) :
    ∃ hdr payload ws, Parsed ctx src dstCap hdr payload ∧
      Decodes hdr.originalSize hdr payload (decodePayload ctx hdr payload) ws .ok ∧
      ∀ dst dstSize, ∃ dst', undoTransforms ctx hdr (dst.applyWrites 0 ws) = .ok dst' ∧
        decompress ctx src dst dstCap dstSize = .ok ⟨.ok, dst', hdr.originalSize,
          decompFinish ctx hdr src.length (dst'.read hdr.originalSize)⟩ := by
  obtain ⟨dst, dstSize, r, hr, hcode⟩ := hacc
  rcases decompress_cases h src dstCap with
    ⟨code, hne, hrun⟩ | ⟨hdr, payload, ws, code, hp, hd, ⟨hne, hrun⟩ | ⟨rfl, hrun⟩⟩
  · rw [hrun, Except.ok.injEq] at hr
    subst hr
    exact absurd hcode hne
  · rw [hrun, Except.ok.injEq] at hr
    subst hr
    exact absurd hcode hne
  · exact ⟨hdr, payload, ws, hp, hd, hrun⟩

theorem AcceptsStateless.cases {d : Dict} (h : d.Sound) (hacc : AcceptsStateless d src dstCap) :
    ∃ hdr payload ws, ParsedStateless d src dstCap hdr payload ∧
      Decodes hdr.originalSize hdr payload (statelessPayload d hdr payload) ws .ok ∧
      ∀ dst dstSize, ∃ dst', statelessUndo d hdr (dst.applyWrites 0 ws) = .ok dst' ∧
        decompressStateless d src dst dstCap dstSize = .ok ⟨.ok, dst', hdr.originalSize⟩ := by
  obtain ⟨dst, dstSize, r, hr, hcode⟩ := hacc
  rcases decompressStateless_cases h src dstCap with
    ⟨code, hne, hrun⟩ | ⟨hdr, payload, ws, code, hp, hd, ⟨hne, hrun⟩ | ⟨rfl, hrun⟩⟩
  · rw [hrun, Except.ok.injEq] at hr
    subst hr
    exact absurd hcode hne
  · rw [hrun, Except.ok.injEq] at hr
    subst hr
    exact absurd hcode hne
  · exact ⟨hdr, payload, ws, hp, hd, hrun⟩

/-- A packet has one header and one payload. -/
theorem Parsed.unique {ctx : Ctx} {hdr hdr' : PktHeader} {payload payload' : List UInt8}
    (h : Parsed ctx src dstCap hdr payload) (h' : Parsed ctx src dstCap hdr' payload') :
    hdr = hdr' ∧ payload = payload' := by
  obtain ⟨h0, n, hv, rfl, rfl⟩ := h.header
  obtain ⟨h0', n', hv', rfl, rfl⟩ := h'.header
  rw [hv, Except.ok.injEq, Except.ok.injEq, Prod.mk.injEq] at hv'
  obtain ⟨rfl, rfl⟩ := hv'
  exact ⟨rfl, rfl⟩

theorem ParsedStateless.unique {d : Dict} {hdr hdr' : PktHeader} {payload payload' : List UInt8}
    (h : ParsedStateless d src dstCap hdr payload) (h' : ParsedStateless d src dstCap hdr' payload') :
    hdr = hdr' ∧ payload = payload' := by
  obtain ⟨n, hv, rfl⟩ := h.header
  obtain ⟨n', hv', rfl⟩ := h'.header
  rw [hv, Except.ok.injEq, Except.ok.injEq, Prod.mk.injEq] at hv'
  obtain ⟨rfl, rfl⟩ := hv'
  exact ⟨rfl, rfl⟩

end Accepted

/-! ### Writes that cover the packet -/

section Covered

variable {n : ℕ} {ws : Writes}

/-- Where the writes reach every byte, nothing is left of the buffer before. -/
theorem read_of_covers (h : ∀ i < n, ws.Covers i) (dst dst' : Out) :
    (dst.applyWrites 0 ws).read n = (dst'.applyWrites 0 ws).read n :=
  ByteMem.slice_congr fun i _ hi => Out.applyWrites_of_covers (h i (by omega))

/-- A buffer of one value. -/
def Out.filled (b : UInt8) : Out := ⟨fun _ => b, 0⟩

/-- A byte the writes do not reach shows what was there. -/
theorem covers_of_read (h : ((Out.filled 0).applyWrites 0 ws).read n = ((Out.filled 1).applyWrites 0 ws).read n) :
    ∀ i < n, ws.Covers i := by
  intro i hi
  by_contra hc
  have hbyte := ByteMem.apply_eq_of_slice_eq h (Nat.zero_le i) (by omega)
  rw [Out.applyWrites_of_not_covers hc, Out.applyWrites_of_not_covers hc] at hbyte
  have h01 : (0 : UInt8) = 1 := hbyte
  exact absurd h01 (by decide)

/-- A pass that loses nothing, after the writes: its result shows nothing of the buffer before just
when the writes reach every byte. -/
theorem InPlace.independent_iff {f : List UInt8 → List UInt8} {pass : Out → Chk Out} (hpass : InPlace n f pass)
    (hinj : ∀ a b : List UInt8, a.length = b.length → f a = f b → a = b) :
    (∀ (dst dst' o o' : Out), pass (dst.applyWrites 0 ws) = .ok o → pass (dst'.applyWrites 0 ws) = .ok o' →
      o'.read n = o.read n) ↔ ∀ i < n, ws.Covers i := by
  have hread : ∀ (dst o : Out), pass (dst.applyWrites 0 ws) = .ok o → o.read n = f ((dst.applyWrites 0 ws).read n) := by
    intro dst o ho
    obtain ⟨o', h1, h2, -⟩ := hpass (dst.applyWrites 0 ws)
    rw [ho, Except.ok.injEq] at h1
    rw [h1, h2]
  constructor
  · intro h
    obtain ⟨o, ho, -⟩ := hpass ((Out.filled 0).applyWrites 0 ws)
    obtain ⟨o', ho', -⟩ := hpass ((Out.filled 1).applyWrites 0 ws)
    have heq := h _ _ _ _ ho ho'
    rw [hread _ _ ho, hread _ _ ho'] at heq
    exact covers_of_read (hinj _ _ (by simp) heq).symm
  · intro h dst dst' o o' ho ho'
    rw [hread _ _ ho, hread _ _ ho', read_of_covers h dst' dst]

end Covered

/-! ### The buffer before the call -/

/-- Two calls of `netc_decompress` that differ in what the buffer held give the same: return code, size,
bytes and context. -/
def Independent (ctx : Ctx) (src : List UInt8) (dstCap : ℕ) : Prop :=
  ∀ dst dst' dstSize r, decompress ctx src dst dstCap dstSize = .ok r → r.code = .ok →
    ∃ r', decompress ctx src dst' dstCap dstSize = .ok r' ∧ r'.code = .ok ∧ r'.dstSize = r.dstSize ∧
      r'.dst.read r.dstSize = r.dst.read r.dstSize ∧ r'.ctx = r.ctx

/-- Two calls of `netc_decompress_stateless` that differ in what the buffer held give the same. -/
def IndependentStateless (d : Dict) (src : List UInt8) (dstCap : ℕ) : Prop :=
  ∀ dst dst' dstSize r, decompressStateless d src dst dstCap dstSize = .ok r → r.code = .ok →
    ∃ r', decompressStateless d src dst' dstCap dstSize = .ok r' ∧ r'.code = .ok ∧ r'.dstSize = r.dstSize ∧
      r'.dst.read r.dstSize = r.dst.read r.dstSize

/-- Every byte of the packet lies in a region its payload lists. -/
def RegionsListed (ctx : Ctx) (src : List UInt8) (dstCap : ℕ) : Prop :=
  ∀ hdr payload, Parsed ctx src dstCap hdr payload → ∀ i < hdr.originalSize, Listed hdr payload i

/-- Every byte of the packet lies in a region its payload lists, on the stateless path. -/
def RegionsListedStateless (d : Dict) (src : List UInt8) (dstCap : ℕ) : Prop :=
  ∀ hdr payload, ParsedStateless d src dstCap hdr payload → ∀ i < hdr.originalSize, Listed hdr payload i

/-- Calls that return the result of a pass over the writes are related just when the results are. -/
theorem calls_agree_iff {ρ : Type} {P : ρ → Prop} {R : ρ → ρ → Prop} {call : Out → ℕ → Chk ρ} {ret : Out → ρ}
    {pass : Out → Chk Out} {ws : Writes} {n : ℕ}
    (hrun : ∀ dst dstSize, ∃ o, pass (dst.applyWrites 0 ws) = .ok o ∧ call dst dstSize = .ok (ret o))
    (hP : ∀ o, P (ret o)) (hR : ∀ o o', R (ret o) (ret o') ↔ o'.read n = o.read n) :
    (∀ dst dst' dstSize r, call dst dstSize = .ok r → P r → ∃ r', call dst' dstSize = .ok r' ∧ R r r') ↔
      ∀ dst dst' o o' : Out, pass (dst.applyWrites 0 ws) = .ok o → pass (dst'.applyWrites 0 ws) = .ok o' →
        o'.read n = o.read n := by
  constructor
  · intro hind dst dst' o o' ho ho'
    obtain ⟨o₁, hu₁, hr₁⟩ := hrun dst 0
    obtain ⟨o₂, hu₂, hr₂⟩ := hrun dst' 0
    obtain ⟨r', hr', hrel⟩ := hind dst dst' 0 _ hr₁ (hP o₁)
    rw [ho, Except.ok.injEq] at hu₁
    rw [ho', Except.ok.injEq] at hu₂
    rw [hr₂, Except.ok.injEq] at hr'
    rwa [← hr', ← hu₁, ← hu₂, hR] at hrel
  · intro hind dst dst' dstSize r hr _
    obtain ⟨o₁, hu₁, hr₁⟩ := hrun dst dstSize
    obtain ⟨o₂, hu₂, hr₂⟩ := hrun dst' dstSize
    rw [hr₁, Except.ok.injEq] at hr
    exact ⟨_, hr₂, hr ▸ (hR o₁ o₂).mpr (hind dst dst' o₁ o₂ hu₁ hu₂)⟩

theorem independent_iff_of_wf {ctx : Ctx} (h : ctx.Wf) {src : List UInt8} {dstCap : ℕ}
    (hacc : Accepts ctx src dstCap) : Independent ctx src dstCap ↔ RegionsListed ctx src dstCap := by
  obtain ⟨hdr, payload, ws, hp, hd, hrun⟩ := hacc.cases h
  have hlisted : RegionsListed ctx src dstCap ↔ ∀ i < hdr.originalSize, ws.Covers i := by
    constructor
    · exact fun hl i hi => (hd.covers rfl i hi).mpr (hl hdr payload hp i hi)
    · intro hc hdr' payload' hp' i hi
      obtain ⟨rfl, rfl⟩ := hp.unique hp'
      exact (hd.covers rfl i hi).mp (hc i hi)
  rw [hlisted, ← (undoTransforms_spec h hp.size_le).independent_iff fun a b hlen => undo_injective ctx hdr hlen]
  unfold Independent
  refine calls_agree_iff hrun ?_ fun o o' => ?_
  · exact fun _ => rfl
  constructor
  · exact fun hrel => hrel.2.2.1
  · exact fun hread => ⟨rfl, rfl, hread, by simp only [hread]⟩

theorem independentStateless_iff_of_sound {d : Dict} (h : d.Sound) {src : List UInt8} {dstCap : ℕ}
    (hacc : AcceptsStateless d src dstCap) :
    IndependentStateless d src dstCap ↔ RegionsListedStateless d src dstCap := by
  obtain ⟨hdr, payload, ws, hp, hd, hrun⟩ := hacc.cases h
  have hlisted : RegionsListedStateless d src dstCap ↔ ∀ i < hdr.originalSize, ws.Covers i := by
    constructor
    · exact fun hl i hi => (hd.covers rfl i hi).mpr (hl hdr payload hp i hi)
    · intro hc hdr' payload' hp' i hi
      obtain ⟨rfl, rfl⟩ := hp.unique hp'
      exact (hd.covers rfl i hi).mp (hc i hi)
  rw [hlisted, ← (statelessUndo_spec d hdr).independent_iff fun a b _ => undoStateless_injective d hdr]
  unfold IndependentStateless
  refine calls_agree_iff hrun ?_ fun o o' => ?_
  · exact fun _ => rfl
  constructor
  · exact fun hrel => hrel.2.2
  · exact fun hread => ⟨rfl, rfl, hread⟩

/-- **When the output shows nothing of the buffer before.** An accepted packet decodes to the same bytes and
leaves the same context whatever the buffer held, just when each of its bytes lies in a region
its payload lists: a multi-region payload may list fewer regions than the packet has. -/
theorem decompress_independent_iff (src : List UInt8) (dstCap : ℕ) :
    (∀ ctx, Reachable ctx → Accepts ctx src dstCap →
      (Independent ctx src dstCap ↔ RegionsListed ctx src dstCap)) ∧
    (∀ d, Trained d → AcceptsStateless d src dstCap →
      (IndependentStateless d src dstCap ↔ RegionsListedStateless d src dstCap)) :=
  ⟨fun _ h hacc => independent_iff_of_wf h.wf hacc,
    fun _ h hacc => independentStateless_iff_of_sound h.sound hacc⟩

theorem decompress_independent_plain :
    (Independent (newCtx none CfgFlag.stateful) plainPacket 1 ↔
      RegionsListed (newCtx none CfgFlag.stateful) plainPacket 1) ∧
    ∃ d, dictTrain [] 1 = .ok d ∧
      (IndependentStateless d plainPacket 1 ↔ RegionsListedStateless d plainPacket 1) := by
  obtain ⟨d, hd⟩ := @dictTrain_ok [] 1 (by decide)
  obtain ⟨hctx, hdict⟩ := decompress_independent_iff plainPacket 1
  exact ⟨hctx _ (plain_reachable (by decide)) ⟨.empty, 0, _, rfl, rfl⟩,
    d, hd, hdict d ⟨[], 1, hd⟩ ⟨.empty, 0, _, rfl, rfl⟩⟩

/-- A packet of one byte that lists no region. -/
def hollowPacket : List UInt8 := [1, 0, 9, 0, 0x18, 0x01, 1, 0, 1, 0, 0, 0, 0, 0, 0, 0, 0]

theorem decompress_hollow {d : Dict} (hd : d.modelId = 1) (dst : Out) :
    ∃ ctx, decompress (newCtx (some d) CfgFlag.stateful) hollowPacket dst 1 0 = .ok ⟨.ok, dst, 1, ctx⟩ := by
  have hv : validateHeader hollowPacket 1 false = .ok (.ok (⟨1, 9, 0x18, 0x01, 1, 0⟩, 8)) := by decide
  have hm : modelMismatch (newCtx (some d) CfgFlag.stateful) ⟨1, 9, 0x18, 0x01, 1, 0⟩ = false := by
    simp only [modelMismatch, newCtx, hd]
    decide
  have hsub : Chk.sub hollowPacket 8 9 = .ok [1, 0, 0, 0, 0, 0, 0, 0, 0] := by decide
  have hdec : decodePayload (newCtx (some d) CfgFlag.stateful) ⟨1, 9, 0x18, 0x01, 1, 0⟩ [1, 0, 0, 0, 0, 0, 0, 0, 0] dst
      = .ok (dst, .ok) := rfl
  have hundo : undoTransforms (newCtx (some d) CfgFlag.stateful) ⟨1, 9, 0x18, 0x01, 1, 0⟩ dst = .ok dst := rfl
  have hhist : (newCtx (some d) CfgFlag.stateful).checkHistory 1 = .ok () := rfl
  have hc : (newCtx (some d) CfgFlag.stateful).compactMode = false :=
    show CfgFlag.has CfgFlag.stateful CfgFlag.compactHdr = false by decide
  refine ⟨decompFinish (newCtx (some d) CfgFlag.stateful) ⟨1, 9, 0x18, 0x01, 1, 0⟩ hollowPacket.length (dst.read 1), ?_⟩
  simp only [decompress, hc, hv, Exc.ok_bind, fillHeader, Bool.false_eq_true, if_false, decompressBody, hm, hsub, hdec,
    hundo, hhist, ne_eq, not_true_eq_false, Exc.pure_eq]

/-- The hollow packet is accepted, and the byte it decodes to is the one the buffer held. -/
theorem decompress_dependent :
    ∃ d, dictTrain [] 1 = .ok d ∧ Reachable (newCtx (some d) CfgFlag.stateful) ∧
      ¬Independent (newCtx (some d) CfgFlag.stateful) hollowPacket 1 := by
  obtain ⟨d, hd⟩ := @dictTrain_ok [] 1 (by decide)
  refine ⟨d, hd, newCtx_reachable (fun _ h => ?_) (by decide), fun h => ?_⟩
  · rw [← Option.some.inj h]
    exact ⟨[], 1, hd⟩
  · obtain ⟨c₀, h₀⟩ := decompress_hollow (dictTrain_modelId hd) (.filled 0)
    obtain ⟨c₁, h₁⟩ := decompress_hollow (dictTrain_modelId hd) (.filled 1)
    obtain ⟨r', hr', -, -, hread, -⟩ := h (.filled 0) (.filled 1) 0 _ h₀ rfl
    rw [h₁, Except.ok.injEq] at hr'
    subst hr'
    have hbyte : (Out.filled 1).read 1 = (Out.filled 0).read 1 := hread
    exact absurd hbyte (by decide)

/-! ### The announced transforms -/

/-- The header announces residuals: the delta flag, on an entropy-coded or LZ77 packet. -/
def DeltaAnnounced (hdr : PktHeader) : Prop :=
  PktFlag.has hdr.flags PktFlag.delta = true ∧
    (algId hdr.algorithm = Alg.passthru → PktFlag.has hdr.flags PktFlag.lz77 = true)

instance (hdr : PktHeader) : Decidable (DeltaAnnounced hdr) := inferInstanceAs (Decidable (_ ∧ (_ → _)))

/-- `out` is `decoded` with the announced LZP filter undone by a table. -/
def LzpUndone (ctx : Ctx) (hdr : PktHeader) (decoded out : List UInt8) : Prop :=
  if LzpAnnounced hdr.algorithm then ∃ lzp, ctx.getLzpTable = some lzp ∧ lzpXorUnfilter lzp decoded = .ok out
  else out = decoded

/-- `out` is `decoded` with the announced residuals undone: of order 1 against a stored packet of the same length, of
order 2 against two of them. -/
def DeltaUndone (ctx : Ctx) (hdr : PktHeader) (decoded out : List UInt8) : Prop :=
  if DeltaAnnounced hdr then
    ∃ prev, ctx.prevPkt = some prev ∧ ctx.prevPktSize = decoded.length ∧
      if PktFlag.has hdr.flags PktFlag.rle then
        ∃ prev2, ctx.prev2Pkt = some prev2 ∧ ctx.prev2PktSize = decoded.length ∧
          out = deltaDecodeOrder2 prev2.byte prev.byte decoded
      else out = deltaDecode prev.byte decoded
  else out = decoded

/-- `out` is the decoded payload with every announced transform undone. -/
def Undone (ctx : Ctx) (hdr : PktHeader) (decoded out : List UInt8) : Prop :=
  ∃ mid, LzpUndone ctx hdr decoded mid ∧ DeltaUndone ctx hdr mid out

/-- The bytes a call gives back are those of the decoded payload with every announced transform undone. -/
def TransformsUndone (ctx : Ctx) (src : List UInt8) (dst : Out) (dstCap dstSize : ℕ) : Prop :=
  ∀ hdr payload decoded r, Parsed ctx src dstCap hdr payload → decodePayload ctx hdr payload dst = .ok (decoded, .ok) →
    decompress ctx src dst dstCap dstSize = .ok r →
    r.dstSize = hdr.originalSize ∧ Undone ctx hdr (decoded.read hdr.originalSize) (r.dst.read r.dstSize)

/-- The history has what the packet's residuals were made from: a previous packet of its length, and for order
2 another one. LZ77X packets are not restored at all, so that their prediction must be zero. -/
def HistoryHeld (ctx : Ctx) (src : List UInt8) (dstCap : ℕ) : Prop :=
  ∀ hdr payload, Parsed ctx src dstCap hdr payload → DeltaAnnounced hdr →
    ∃ prev, ctx.prevPkt = some prev ∧ ctx.prevPktSize = hdr.originalSize ∧
      (PktFlag.has hdr.flags PktFlag.rle = true →
        ∃ prev2, ctx.prev2Pkt = some prev2 ∧ ctx.prev2PktSize = hdr.originalSize) ∧
      (algId hdr.algorithm = Alg.lz77x →
        ∀ p, decompPrediction ctx hdr.flags hdr.originalSize = some p → ∀ i < hdr.originalSize, p i = 0)

/-- Where the packet announces the LZP filter the context has a table to undo it with. A dictionary that was
trained has one; a loaded one need not. -/
def FilterHeld (ctx : Ctx) (src : List UInt8) (dstCap : ℕ) : Prop :=
  ∀ hdr payload, Parsed ctx src dstCap hdr payload → LzpAnnounced hdr.algorithm → ctx.getLzpTable.isSome = true

section Undone

variable {ctx : Ctx} {hdr : PktHeader}

/-- The filter is undone just when there is a table to undo it with. -/
theorem lzpUndone_iff (l out : List UInt8) :
    LzpUndone ctx hdr l out ↔ (LzpAnnounced hdr.algorithm → ctx.getLzpTable.isSome = true) ∧
      out = if LzpAnnounced hdr.algorithm then unfiltered ctx.getLzpTable l else l := by
  unfold LzpUndone
  by_cases hl : LzpAnnounced hdr.algorithm
  · simp only [hl, if_true, true_imp_iff]
    rcases hlzp : ctx.getLzpTable with _ | lzp
    · simp
    · obtain ⟨o, ho, -⟩ := lzpXorUnfilter_ok lzp l
      simp only [Option.isSome_some, true_and, unfiltered, ho]
      constructor
      · rintro ⟨lzp', hlzp', ho'⟩
        rw [← Option.some.inj hlzp', ho, Except.ok.injEq] at ho'
        exact ho'.symm
      · rintro rfl
        exact ⟨lzp, rfl, ho⟩
  · simp only [hl, if_false, false_imp_iff, true_and]

/-- The delta post-pass undoes the residuals just when the packets it needs are there. -/
theorem restored_undone_iff (hf : PktFlag.has hdr.flags PktFlag.delta = true) (l : List UInt8) :
    (∃ prev, ctx.prevPkt = some prev ∧ ctx.prevPktSize = l.length ∧
      if PktFlag.has hdr.flags PktFlag.rle then
        ∃ prev2, ctx.prev2Pkt = some prev2 ∧ ctx.prev2PktSize = l.length ∧
          restored (decompPrediction ctx hdr.flags l.length) l = deltaDecodeOrder2 prev2.byte prev.byte l
      else restored (decompPrediction ctx hdr.flags l.length) l = deltaDecode prev.byte l) ↔
    ∃ prev, ctx.prevPkt = some prev ∧ ctx.prevPktSize = l.length ∧
      (PktFlag.has hdr.flags PktFlag.rle = true →
        ∃ prev2, ctx.prev2Pkt = some prev2 ∧ ctx.prev2PktSize = l.length) := by
  refine exists_congr fun prev => and_congr_right fun hp => and_congr_right fun hsize => ?_
  rcases hr : PktFlag.has hdr.flags PktFlag.rle with _ | _
  · simp only [Bool.false_eq_true, if_false, false_imp_iff, iff_true]
    rw [decompPrediction_order1 hf hr hp hsize]
    rfl
  · simp only [if_true, true_imp_iff]
    constructor
    · rintro ⟨prev2, h2, hs2, -⟩
      exact ⟨prev2, h2, hs2⟩
    · rintro ⟨prev2, h2, hs2⟩
      refine ⟨prev2, h2, hs2, ?_⟩
      rw [decompPrediction_order2 hf hr hp hsize h2 hs2]
      rfl

/-- A prediction that leaves the bytes as they are is zero. -/
theorem restoreByte_eq_self {i : ℕ} {r p : UInt8} : restoreByte i r p = r ↔ p = 0 := by
  unfold restoreByte
  split
  · constructor
    · intro h
      have := congrArg (fun x => r ^^^ x) h
      simpa only [← UInt8.xor_assoc, UInt8.xor_self, UInt8.zero_xor] using this
    · rintro rfl
      exact UInt8.xor_zero
  · exact UInt8.add_eq_left

theorem deltaDecode_eq_self {p : ℕ → UInt8} {l : List UInt8} : deltaDecode p l = l ↔ ∀ i < l.length, p i = 0 := by
  constructor
  · intro h i hi
    have hget : (deltaDecode p l)[i]? = l[i]? := by rw [h]
    simp only [deltaDecode, List.getElem?_mapIdx, List.getElem?_eq_getElem hi, Option.map_some,
      Option.some.injEq] at hget
    exact restoreByte_eq_self.mp hget
  · intro h
    refine List.ext_getElem (by simp) fun i h1 h2 => ?_
    simp only [deltaDecode, List.getElem_mapIdx]
    exact restoreByte_eq_self.mpr (h i h2)

/-- What the post-passes make of the decoded bytes, with the filter apart. -/
theorem undo_eq (hl : algId hdr.algorithm = Alg.lz77x ∨ ¬DeltaAnnounced hdr) (l : List UInt8) :
    undo ctx hdr l = if LzpAnnounced hdr.algorithm then unfiltered ctx.getLzpTable l else l := by
  have hpass : algId hdr.algorithm = Alg.passthru ∨ algId hdr.algorithm = Alg.lz77x → ¬LzpAnnounced hdr.algorithm := by
    rintro (h | h) <;> simp [LzpAnnounced, h, Alg.passthru, Alg.lz77x, Alg.lzp, Alg.tansPctx]
  have hnone : ¬DeltaAnnounced hdr →
      (algId hdr.algorithm = Alg.passthru → PktFlag.has hdr.flags PktFlag.lz77 = true) →
      ∀ n, decompPrediction ctx hdr.flags n = none := by
    intro hd hz n
    have hf : PktFlag.has hdr.flags PktFlag.delta = false := by
      rw [Bool.eq_false_iff]
      exact fun hf => hd ⟨hf, hz⟩
    exact decompPrediction_none hf n
  unfold undo
  simp only
  by_cases hp : algId hdr.algorithm = Alg.passthru
  · rw [if_pos hp, if_neg (hpass (.inl hp))]
    split
    · next hz =>
      rcases hl with hx | hd
      · rw [hp] at hx
        exact absurd hx (by decide)
      · rw [hnone hd fun _ => hz]
        rfl
    · rfl
  · rw [if_neg hp]
    by_cases hx : algId hdr.algorithm = Alg.lz77x
    · rw [if_pos hx, if_neg (hpass (.inr hx))]
    · have hd := hl.resolve_left hx
      rw [if_neg hx, hnone hd fun h => absurd h hp]
      rfl

theorem undo_eq_restored (hx : algId hdr.algorithm ≠ Alg.lz77x) (hd : DeltaAnnounced hdr) (l : List UInt8) :
    undo ctx hdr l = restored (decompPrediction ctx hdr.flags l.length)
      (if LzpAnnounced hdr.algorithm then unfiltered ctx.getLzpTable l else l) := by
  unfold undo
  simp only
  by_cases hp : algId hdr.algorithm = Alg.passthru
  · have hl : ¬LzpAnnounced hdr.algorithm := by simp [LzpAnnounced, hp, Alg.passthru, Alg.lzp, Alg.tansPctx]
    rw [if_pos hp, if_pos (hd.2 hp), if_neg hl]
  · rw [if_neg hp, if_neg hx]
    split <;> rfl

/-- The passes undo what the header announces just when the context has what that takes. -/
theorem undone_iff (l : List UInt8) :
    Undone ctx hdr l (undo ctx hdr l) ↔ (LzpAnnounced hdr.algorithm → ctx.getLzpTable.isSome = true) ∧
      (DeltaAnnounced hdr →
        ∃ prev, ctx.prevPkt = some prev ∧ ctx.prevPktSize = l.length ∧
          (PktFlag.has hdr.flags PktFlag.rle = true →
            ∃ prev2, ctx.prev2Pkt = some prev2 ∧ ctx.prev2PktSize = l.length) ∧
          (algId hdr.algorithm = Alg.lz77x →
            ∀ p, decompPrediction ctx hdr.flags l.length = some p → ∀ i < l.length, p i = 0)) := by
  unfold Undone
  simp only [lzpUndone_iff, and_assoc, exists_and_left, exists_eq_left]
  refine and_congr_right fun _ => ?_
  generalize hmid : (if LzpAnnounced hdr.algorithm then unfiltered ctx.getLzpTable l else l) = mid
  have hlen : mid.length = l.length := by
    rw [← hmid]
    split <;> simp
  unfold DeltaUndone
  by_cases hd : DeltaAnnounced hdr
  · rw [if_pos hd, imp_iff_right hd, ← hlen]
    by_cases hx : algId hdr.algorithm = Alg.lz77x
    · have hundo : undo ctx hdr l = mid := by rw [undo_eq (.inl hx), hmid]
      simp only [hundo, hx, true_imp_iff]
      -- the bytes stay as they are: that is what the residuals come to if the prediction is zero
      have hzero : ∀ q : ℕ → UInt8, mid = deltaDecode q mid ↔ ∀ i < mid.length, q i = 0 :=
        fun q => eq_comm.trans deltaDecode_eq_self
      refine exists_congr fun prev => and_congr_right fun hp => and_congr_right fun hsize => ?_
      rcases hr : PktFlag.has hdr.flags PktFlag.rle with _ | _
      · have hpred := decompPrediction_order1 hd.1 hr hp hsize
        simp only [Bool.false_eq_true, if_false, false_imp_iff, true_and, hpred, Option.some.injEq, forall_eq', hzero]
      · simp only [if_true, true_imp_iff, deltaDecodeOrder2, hzero]
        constructor
        · rintro ⟨prev2, h2, hs2, hz⟩
          refine ⟨⟨prev2, h2, hs2⟩, fun p hpred => ?_⟩
          rw [decompPrediction_order2 hd.1 hr hp hsize h2 hs2] at hpred
          rw [← Option.some.inj hpred]
          exact hz
        · rintro ⟨⟨prev2, h2, hs2⟩, hz⟩
          exact ⟨prev2, h2, hs2, hz _ (decompPrediction_order2 hd.1 hr hp hsize h2 hs2)⟩
    · rw [undo_eq_restored hx hd, hmid, ← hlen, restored_undone_iff hd.1]
      simp only [hx, false_imp_iff, and_true]
  · rw [if_neg hd, undo_eq (.inr hd), hmid]
    exact iff_of_true rfl fun h => absurd h hd

end Undone

/-- **When an accepted packet has every announced transform undone**: the history has a previous packet of
its length, and for residuals of order 2 another one; and there is a table if the LZP filter is announced. Else
residuals or filtered bytes are given out as the packet. The context is any, with any dictionary. -/
theorem decompress_undone_iff (ctx : Ctx) (src : List UInt8) (dst : Out) (dstCap dstSize : ℕ) (r : DecompressRet)
    (hrun : decompress ctx src dst dstCap dstSize = .ok r) (hcode : r.code = .ok) :
    TransformsUndone ctx src dst dstCap dstSize ↔ HistoryHeld ctx src dstCap ∧ FilterHeld ctx src dstCap := by
  obtain ⟨hdr, payload, decoded, hp, hdec, hundo, hsize⟩ := decompress_eq_ok hrun hcode
  have hiff := @undone_iff ctx hdr (decoded.read hdr.originalSize)
  rw [← undoTransforms_read hundo, Out.length_read] at hiff
  constructor
  · intro ht
    have hu := (ht hdr payload _ _ hp hdec hrun).2
    rw [hsize, hiff] at hu
    constructor
    · intro hdr' payload' hp'
      obtain ⟨rfl, rfl⟩ := hp.unique hp'
      exact hu.2
    · intro hdr' payload' hp'
      obtain ⟨rfl, rfl⟩ := hp.unique hp'
      exact hu.1
  · rintro ⟨hhist, hfilter⟩ hdr' payload' decoded' r' hp' hdec' hrun'
    obtain ⟨rfl, rfl⟩ := hp.unique hp'
    rw [hdec, Except.ok.injEq, Prod.mk.injEq] at hdec'
    rw [hrun, Except.ok.injEq] at hrun'
    obtain ⟨rfl, -⟩ := hdec'
    subst hrun'
    refine ⟨hsize, ?_⟩
    rw [hsize]
    exact hiff.mpr ⟨hfilter hdr payload hp, hhist hdr payload hp⟩

/-- An LZ77 packet of one literal, announced as a residual. -/
def residualPacket : List UInt8 := [1, 0, 2, 0, 0x8D, 0xFF, 0, 0, 0x00, 0x2A]

/-- A context that has taken in a packet of one byte. -/
def onePacketCtx : Ctx := decompFinish (newCtx none CfgFlag.stateful) ⟨1, 1, 0x0C, 0xFF, 0, 0⟩ 9 [42]

/-- There the packet of residuals is restored. -/
theorem decompress_undone_second :
    step (newCtx none CfgFlag.stateful) (.decompress plainPacket .empty 1 0)
      = .ok (some ⟨.ok, Out.empty.write 0 [42], 1⟩, onePacketCtx) ∧
    TransformsUndone onePacketCtx residualPacket .empty 1 0 := by
  have hv : validateHeader residualPacket 1 onePacketCtx.compactMode = .ok (.ok (⟨1, 2, 0x8D, 0xFF, 0, 0⟩, 8)) := by
    decide
  have hp : Parsed onePacketCtx residualPacket 1 ⟨1, 2, 0x8D, 0xFF, 0, 0⟩ [0x00, 0x2A] :=
    ⟨⟨_, 8, hv, by decide, by decide⟩, rfl, by decide, by decide, rfl⟩
  refine ⟨rfl, (decompress_undone_iff _ _ _ _ _ _ rfl rfl).mpr
    ⟨fun hdr payload hp' _ => ?_, fun hdr payload hp' hl => ?_⟩⟩
  · obtain ⟨rfl, rfl⟩ := hp.unique hp'
    exact ⟨_, rfl, rfl, fun hr => absurd hr (by decide), fun hx => absurd hx (by decide)⟩
  · obtain ⟨rfl, rfl⟩ := hp.unique hp'
    exact absurd hl (by decide)

/-- As the first packet of a connection it has no previous packet to be restored from, and is accepted. -/
theorem decompress_not_undone :
    Reachable (newCtx none CfgFlag.stateful) ∧ Accepts (newCtx none CfgFlag.stateful) residualPacket 1 ∧
      ¬TransformsUndone (newCtx none CfgFlag.stateful) residualPacket .empty 1 0 := by
  have hv : validateHeader residualPacket 1 (newCtx none CfgFlag.stateful).compactMode
      = .ok (.ok (⟨1, 2, 0x8D, 0xFF, 0, 0⟩, 8)) := by decide
  refine ⟨plain_reachable (by decide), ⟨.empty, 0, _, rfl, rfl⟩, fun h => ?_⟩
  have hp : Parsed (newCtx none CfgFlag.stateful) residualPacket 1 ⟨1, 2, 0x8D, 0xFF, 0, 0⟩ [0x00, 0x2A] :=
    ⟨⟨_, 8, hv, by decide, by decide⟩, rfl, by decide, by decide, rfl⟩
  obtain ⟨-, mid, hlzp, hdelta⟩ := h _ _ _ _ hp rfl rfl
  rw [LzpUndone, if_neg (by decide)] at hlzp
  rw [DeltaUndone, if_pos (by decide)] at hdelta
  obtain ⟨prev, -, hsize, -⟩ := hdelta
  rw [hlzp, Out.length_read] at hsize
  exact absurd hsize (by decide)

end Netc
