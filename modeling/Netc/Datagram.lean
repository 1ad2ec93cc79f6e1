/-
# Packets that need no history

A packet whose header has neither the DELTA flag nor the algorithm of cross-packet LZ77 says all there is to
say about itself: on a connection that does not adapt, `netc_decompress` makes of it what
`netc_decompress_stateless` makes of it, to the byte and to the error code, whatever the context has carried
before and whatever the packet holds (`decoders_agree`). So what a sender emits without using its history
arrives at every context with the sender's dictionary, in step or not, and at the stateless decoder
(`alone_delivers`).

Key definitions: `Alone`, `DecompressRet.shown`.
Key theorems: `decompress_alone`, `decoders_agree`, `alone_delivers`.
-/
import Netc.History

namespace Netc

/-- The header asks for nothing that was sent before. -/
def Alone (hdr : PktHeader) : Prop := PktFlag.has hdr.flags PktFlag.delta = false ∧ algId hdr.algorithm ≠ Alg.lz77x

/-- What the caller of `netc_decompress` sees. -/
def DecompressRet.shown (r : DecompressRet) : StatelessRet := ⟨r.code, r.dst, r.dstSize⟩

section Agree

variable {ctx : Ctx} {d : Dict} {hdr : PktHeader}

/-- A context with the dictionary `d` and nothing of its own to decode with. -/
structure Static (ctx : Ctx) (d : Dict) : Prop where
  wf : ctx.Wf
  dict : ctx.dict = some d
  adapt : ctx.adapt = none
  lzp : ctx.adaptLzp = none
  compact : ctx.compactMode = false

theorem Static.getTables (h : Static ctx d) : ctx.getTables d = d.tables := by
  rw [Ctx.getTables, h.adapt]

theorem Static.getLzpTable (h : Static ctx d) : ctx.getLzpTable = d.lzpTable := by
  rw [Ctx.getLzpTable, h.lzp, h.dict]
  rfl

/-- Both decode the payload alike. -/
theorem Static.decodePayload (h : Static ctx d) (ha : Alone hdr) (payload : List UInt8) (dst : Out) :
    decodePayload ctx hdr payload dst = statelessPayload d hdr payload dst := by
  simp only [Netc.decodePayload, statelessPayload, h.dict, h.getTables, h.getLzpTable, h.compact, if_neg ha.2]
  by_cases hrans : algId hdr.algorithm = Alg.rans
  · have : Alg.rans ≠ Alg.passthru ∧ Alg.rans ≠ Alg.tans ∧ Alg.rans ≠ Alg.tansPctx ∧ Alg.rans ≠ Alg.lzp ∧
        Alg.rans ≠ Alg.tans10 := by decide
    obtain ⟨h1, h2, h3, h4, h5⟩ := this
    rw [hrans, if_neg h1, if_neg h1, if_pos rfl, if_neg h2, if_neg h3, if_neg h4, if_neg h5, if_pos rfl]
  · rw [if_neg hrans, if_neg hrans]

/-- Nor is there anything to be undone that only one of them undoes. -/
theorem Static.undoTransforms (h : Static ctx d) (ha : Alone hdr) (dst : Out) :
    undoTransforms ctx hdr dst = statelessUndo d hdr dst := by
  have hpost : ∀ dst, decompDeltaPostpass ctx hdr.flags dst hdr.originalSize = .ok dst := fun dst => by
    rw [decompDeltaPostpass, ha.1]
    rfl
  simp only [Netc.undoTransforms, statelessUndo, h.getLzpTable, hpost, if_neg ha.2, ite_self]
  by_cases hpass : algId hdr.algorithm = Alg.passthru
  · have hne : ¬(Alg.passthru = Alg.lzp ∨ Alg.passthru = Alg.tansPctx ∧ hdr.algorithm &&& 0xF0 ≠ 0) := by
      rintro (h | h)
      · exact absurd h (by decide)
      · exact absurd h.1 (by decide)
    rw [hpass, if_pos rfl, if_neg hne]
  · rw [if_neg hpass]
    split
    · rcases unfilterInPlace d.lzpTable dst hdr.originalSize with fault | dst' <;> rfl
    · rfl

theorem Static.fillHeader (h : Static ctx d) (hdr : PktHeader) : fillHeader ctx hdr = hdr := by
  rw [Netc.fillHeader, h.compact]
  rfl

theorem Static.modelMismatch (h : Static ctx d) (ha : Alone hdr) :
    modelMismatch ctx hdr = (!PktFlag.has hdr.flags PktFlag.passthru && hdr.modelId != d.modelId) := by
  have hne : (hdr.algorithm != Alg.lz77x) = true := by
    refine bne_iff_ne.mpr fun heq => ha.2 ?_
    rw [heq]
    decide
  rw [Netc.modelMismatch, h.dict]
  simp only [hne, Bool.and_true]

/-- A header that is accepted is the one that stands there. -/
theorem hdrRead_of_valid {pkt : List UInt8} {dstCap n : ℕ} (h : validateHeader pkt dstCap false = .ok (.ok (hdr, n))) :
    hdrRead pkt = .ok hdr := by
  rw [validateHeader, if_neg (by simp)] at h
  split at h
  · cases h
  · obtain ⟨hdr', h1, h2⟩ := Exc.bind_eq_ok h
    repeat' split at h2
    all_goals simp only [Exc.pure_eq, Except.ok.injEq, reduceCtorEq, Prod.mk.injEq] at h2
    rw [h1, h2.1]

/-- **Both decoders do the same** with a packet that needs no history. -/
theorem decompress_alone (h : Static ctx d) {pkt : List UInt8}
    (ha : ∀ hdr, hdrRead pkt = .ok hdr → Alone hdr) (dst : Out)
    (dstCap dstSize : ℕ) : (decompress ctx pkt dst dstCap dstSize).map DecompressRet.shown
      = decompressStateless d pkt dst dstCap dstSize := by
  obtain ⟨v, hv, hpost⟩ := validateHeader_ok pkt dstCap false
  rw [decompress, decompressStateless, h.compact, hv, Exc.ok_bind, Exc.ok_bind]
  rcases v with code | ⟨hdr, n⟩
  · rfl
  · have halone := ha hdr (hdrRead_of_valid hv)
    simp only [decompressBody, statelessBody, h.fillHeader, h.modelMismatch halone, h.decodePayload halone,
      h.undoTransforms halone, halone.1, Bool.false_eq_true, if_false]
    split
    · rfl
    · rcases Chk.sub pkt n hdr.compressedSize with fault | payload
      · rfl
      · simp only [Exc.ok_bind]
        rcases statelessPayload d hdr payload dst with fault | ⟨dst₁, code⟩
        · rfl
        · simp only [Exc.ok_bind]
          split
          · rfl
          · rcases statelessUndo d hdr dst₁ with fault | dst₂
            · rfl
            · simp only [Exc.ok_bind, h.wf.checkHistory hpost.1, Exc.pure_eq]
              rfl

/-- What the stateless decoder accepts needs no history. -/
theorem alone_of_accepted {pkt : List UInt8} {dst : Out} {dstCap dstSize : ℕ} {r : StatelessRet}
    (hr : decompressStateless d pkt dst dstCap dstSize = .ok r) (hcode : r.code = .ok) :
    ∀ hdr, hdrRead pkt = .ok hdr → Alone hdr := by
  obtain ⟨v, hv, hpost⟩ := validateHeader_ok pkt dstCap false
  rw [decompressStateless, hv, Exc.ok_bind] at hr
  rcases v with code | ⟨hdr', n⟩
  · rw [← Except.ok.inj hr] at hcode
    exact absurd hcode hpost
  · intro hdr hread
    rw [hdrRead_of_valid hv, Except.ok.injEq] at hread
    subst hread
    simp only [statelessBody] at hr
    split at hr
    · rw [← Except.ok.inj hr] at hcode
      cases hcode
    · split at hr
      · rw [← Except.ok.inj hr] at hcode
        cases hcode
      · next hdelta =>
        refine ⟨by simpa using hdelta, fun hlz => ?_⟩
        obtain ⟨payload, -, hr⟩ := Exc.bind_eq_ok hr
        have hpay : statelessPayload d hdr' payload dst = .ok (dst, .errCorrupt) := by
          have : Alg.lz77x ≠ Alg.passthru ∧ Alg.lz77x ≠ Alg.tans ∧ Alg.lz77x ≠ Alg.tansPctx ∧ Alg.lz77x ≠ Alg.lzp ∧
              Alg.lz77x ≠ Alg.tans10 ∧ Alg.lz77x ≠ Alg.rans := by decide
          obtain ⟨h1, h2, h3, h4, h5, h6⟩ := this
          simp only [statelessPayload, hlz, if_neg h1, if_neg h2, if_neg h3, if_neg h4, if_neg h5, if_neg h6]
        rw [hpay, Exc.ok_bind] at hr
        rw [← Except.ok.inj hr] at hcode
        cases hcode

end Agree

/-! ### Contexts without a model of their own -/

section Made

variable {pf : Platform} {d : Dict} {cfg : Cfg} {junk : ℕ → UInt8} {ctx₀ ctx : Ctx}
  {calls : List Call} {replies : List Reply}

/-- A context that is not adaptive and has the eight-byte header, after any calls. -/
theorem run_static (hd : Trained d) (h : ctxCreate pf (some d) cfg junk = some ctx₀)
    (hc : CfgFlag.has cfg.flags CfgFlag.compactHdr = false) (ha : CfgFlag.has cfg.flags CfgFlag.adaptive = false)
    (hrun : run ctx₀ calls = .ok (replies, ctx)) : Static ctx d := by
  have hreach : Reachable ctx :=
    ⟨ctx₀, calls, replies, ⟨pf, some d, cfg, junk, fun _ h => Option.some.inj h ▸ hd, h⟩, hrun⟩
  have hkin := kin_run hrun
  have hflags := ctxCreate_flags h
  have hnew : ctx₀.dict = some d ∧ ctx₀.adapt = none ∧ ctx₀.adaptLzp = none := by
    simp only [ctxCreate, ha, Bool.false_and, Bool.false_eq_true, if_false, Option.some.injEq] at h
    rw [← h]
    exact ⟨rfl, rfl, rfl⟩
  obtain ⟨h1, h2, h3⟩ := hnew
  refine ⟨hreach.wf, hkin.dict.trans h1, (isNone_of_isSome_eq hkin.adapt).mpr h2,
    (isNone_of_isSome_eq hkin.adaptLzp).mpr h3, ?_⟩
  rw [Ctx.compactMode, hkin.flags, hflags, hc]

/-- **The two decoders agree.** On a context that is not adaptive, with the eight-byte header and a trained
dictionary, after any calls: every packet that asks for no history gets from `netc_decompress` what it gets
from `netc_decompress_stateless`, the same code, size and buffer; and what the stateless decoder accepts
asks for no history, so the context accepts it too and gives the same bytes. -/
theorem decoders_agree (hd : Trained d) (h : ctxCreate pf (some d) cfg junk = some ctx₀)
    (hc : CfgFlag.has cfg.flags CfgFlag.compactHdr = false) (ha : CfgFlag.has cfg.flags CfgFlag.adaptive = false)
    (hrun : run ctx₀ calls = .ok (replies, ctx)) (pkt : List UInt8) (dst : Out) (dstCap dstSize : ℕ) :
    ((∀ hdr, hdrRead pkt = .ok hdr → Alone hdr) → (decompress ctx pkt dst dstCap dstSize).map DecompressRet.shown
      = decompressStateless d pkt dst dstCap dstSize) ∧
    ∀ r, decompressStateless d pkt dst dstCap dstSize = .ok r → r.code = .ok →
      ∃ r', decompress ctx pkt dst dstCap dstSize = .ok r' ∧ r'.shown = r := by
  have hstatic := run_static hd h hc ha hrun
  refine ⟨fun halone => decompress_alone hstatic halone dst dstCap dstSize, fun r hr hcode => ?_⟩
  have hsame := decompress_alone hstatic (alone_of_accepted hr hcode) dst dstCap dstSize
  rw [hr] at hsame
  rcases hrun' : decompress ctx pkt dst dstCap dstSize with fault | r'
  · rw [hrun'] at hsame
    cases hsame
  · rw [hrun'] at hsame
    exact ⟨r', rfl, Except.ok.inj hsame⟩

/-- An LZ77 packet of four bytes 42, with the eight-byte header. -/
def repeatPacket : List UInt8 := [4, 0, 4, 0, 0x8C, 0xFF, 1, 0, 0, 42, 0x80, 0]

/-- The context has carried another packet; both decoders give the four bytes. -/
theorem decoders_agree_repeat : ∃ d replies ctx r r', dictTrain [[1, 2, 3], [1, 2]] 1 = .ok d ∧
    run (newCtx (some d) CfgFlag.stateful) [.compress [1, 2, 3] .empty 64 0] = .ok (replies, ctx) ∧
    decompress ctx repeatPacket .empty 16 0 = .ok r ∧ decompressStateless d repeatPacket .empty 16 0 = .ok r' ∧
    r.shown = r' ∧ r'.code = .ok ∧ r'.dst.read r'.dstSize = [42, 42, 42, 42] := by
  obtain ⟨d, hd⟩ := @dictTrain_ok [[1, 2, 3], [1, 2]] 1 (by decide)
  have hs : CfgFlag.has CfgFlag.stateful CfgFlag.stateful = true := by decide
  have hcreate := newCtx_create (some d) hs
  obtain ⟨replies, ctx, hrun, -⟩ := run_wf [.compress [1, 2, 3] .empty 64 0]
    (newCtx_reachable (fun _ h => Option.some.inj h ▸ ⟨_, _, hd⟩) hs).wf
  have hstateless : decompressStateless d repeatPacket .empty 16 0 = .ok _ := rfl
  obtain ⟨r, hr, hshown⟩ :=
    (decoders_agree ⟨_, _, hd⟩ hcreate (by decide) (by decide) hrun repeatPacket .empty 16 0).2 _
    hstateless rfl
  exact ⟨d, replies, ctx, r, _, hd, hrun, hr, hstateless, hshown, rfl, rfl⟩

/-- **What needs no history arrives everywhere.** Two contexts that are not adaptive, with the eight-byte
header and one trained dictionary, each after any calls of its own, stateful or not, with rings of any
sizes: a packet that the one sends without the DELTA flag and not by cross-packet LZ77 comes back from the
other, and from the stateless decoder, whatever was lost between them before, as long as two states have an
even number of bytes. -/
theorem alone_delivers {pf' : Platform} {cfg' : Cfg} {junk' : ℕ → UInt8} {dec₀ dec : Ctx} {calls' : List Call}
    {replies' : List Reply} (hd : Trained d) (h : ctxCreate pf (some d) cfg junk = some ctx₀)
    (h' : ctxCreate pf' (some d) cfg' junk' = some dec₀)
    (hc : CfgFlag.has cfg.flags CfgFlag.compactHdr = false) (hc' : CfgFlag.has cfg'.flags CfgFlag.compactHdr = false)
    (ha : CfgFlag.has cfg.flags CfgFlag.adaptive = false) (ha' : CfgFlag.has cfg'.flags CfgFlag.adaptive = false)
    (hrun : run ctx₀ calls = .ok (replies, ctx)) (hrun' : run dec₀ calls' = .ok (replies', dec)) {t : Transfer}
    (hfits : t.Fits) (halone : ∀ hdr, hdrRead (t.sent ctx) = .ok hdr → Alone hdr)
    (heven : ∀ hdr, hdrRead (t.sent ctx) = .ok hdr → PktFlag.has hdr.flags PktFlag.x2 = true →
      hdr.originalSize % 2 = 0) :
    (∃ r, t.receive ctx dec = .ok r ∧ r.code = .ok ∧ r.dstSize = t.src.length ∧ r.dst.read r.dstSize = t.src) ∧
      ∃ r, decompressStateless d (t.sent ctx) t.out t.outCap t.outSize = .ok r ∧ r.code = .ok ∧
        r.dstSize = t.src.length ∧ r.dst.read r.dstSize = t.src := by
  have hstatic := run_static hd h hc ha hrun
  have hstatic' := run_static hd h' hc' ha' hrun'
  -- the sender itself would give the packet back
  have hsend : Sendable ctx t.src t.dstCap := by
    intro p hp
    refine ⟨fun hx2 => x2Safe_even ?_, fun hm => absurd (hstatic.compact.symm.trans hm) (by decide)⟩
    have hread := hdrRead_wire hstatic.wf hstatic.compact hfits.1 t.dstCap
    rw [← hfits.sent_eq ctx] at hread
    have := heven _ hread (by rw [hp]; exact hx2)
    rwa [wireHeader_originalSize hfits.1] at this
  obtain ⟨r, hr, hcode, hsize, hread, -⟩ :=
    transfer_agree hstatic.wf hstatic.wf (Agree.refl ctx) hstatic.compact hfits hsend
  have hself := decompress_alone hstatic halone t.out t.outCap t.outSize
  have hother := decompress_alone hstatic' halone t.out t.outCap t.outSize
  rw [show decompress ctx (t.sent ctx) t.out t.outCap t.outSize = .ok r from hr] at hself
  refine ⟨?_, r.shown, hself.symm, hcode, hsize, hread⟩
  rw [← hself] at hother
  rcases hdec : decompress dec (t.sent ctx) t.out t.outCap t.outSize with fault | r'
  · rw [hdec] at hother
    cases hother
  · rw [hdec] at hother
    have hshown : r'.shown = r.shown := Except.ok.inj hother
    obtain ⟨h1, h2, h3⟩ : r'.code = r.code ∧ r'.dst = r.dst ∧ r'.dstSize = r.dstSize :=
      ⟨congrArg StatelessRet.code hshown, congrArg StatelessRet.dst hshown, congrArg StatelessRet.dstSize hshown⟩
    exact ⟨r', hdec, h1.trans hcode, h3.trans hsize, by rw [h2, h3, hread]⟩

/-- Without a ring and without residuals every packet leaves on its own. -/
theorem Format.alone {p : Packet} {src : List UInt8} {dstCap : ℕ} (h : Format ctx src dstCap p)
    (hring : ctx.ring = none) (hdelta : CfgFlag.has ctx.flags CfgFlag.delta = false) :
    PktFlag.has p.flags PktFlag.delta = false ∧ algId p.algorithm ≠ Alg.lz77x := by
  have hplain : PktFlag.has PktFlag.dictId PktFlag.delta = false := by decide
  have hsource : ∀ {s : Source}, SourceFor ctx src s → PktFlag.has s.pktFlags PktFlag.delta = false := by
    intro s hs
    cases hs with
    | plain => exact hplain
    | lzp h => exact hplain
    | order1 h => simp [wantsDelta, hdelta] at h
    | order2 h ho => simp [wantsDelta, hdelta] at h
  cases h with
  | lz77 hs hl horder h =>
    obtain ⟨-, -, hflag, -⟩ := lz77Flags_has _ hs.pktFlags_mem
    exact ⟨hflag.trans (hsource hs), show algId Alg.passthru ≠ Alg.lz77x by decide⟩
  | lz77x passthru hsome hsize h =>
    rw [hring] at hsome
    cases hsome
  | @tans d s w hd hs hm hfirst =>
    have hmem := hs.pktFlags_mem
    have hsingle : ∀ lzp : Bool, ∀ idx < 16, algId (singleAlg lzp idx) ≠ Alg.lz77x := by decide
    have hpctx : ∀ lzp : Bool, algId (pctxAlg lzp) ≠ Alg.lz77x := by decide
    have hten : ∀ idx < 16, algId (alg10 idx) ≠ Alg.lz77x := by decide
    cases h10 : w.used10 with
    | true =>
      obtain ⟨hf, ha⟩ := hm.ten_packet h10
      obtain ⟨-, -, -, -, hflag, -⟩ := codedFlags_has _ hmem false false
      rw [hf, ha]
      exact ⟨hflag.trans (hsource hs), hten _ (hm.coded10 h10).2.2.2.1⟩
    | false =>
      obtain ⟨hf, ha⟩ := hm.coded_packet h10
      rw [hf, ha, codedAlg, (codedFlags_has _ hmem _ _).2.2.2.2.1]
      refine ⟨hsource hs, ?_⟩
      split
      · exact hsingle _ _ (Job.Coded.tblIdx_lt (hm.coded h10))
      · exact hpctx _

theorem alone_of_noHistory (hwf : ctx.Wf) (hring : ctx.ring = none)
    (hdelta : CfgFlag.has ctx.flags CfgFlag.delta = false) (src : List UInt8) (dstCap : ℕ) :
    Alone (wireHeader ctx src (plan ctx src dstCap)) := by
  rcases hp : plan ctx src dstCap with _ | p
  · exact show PktFlag.has (PktFlag.passthru ||| PktFlag.dictId) PktFlag.delta = false ∧ algId Alg.passthru ≠ Alg.lz77x
      by decide
  · exact (plan_format hwf hp).alone hring hdelta

/-- Four bytes from a context without history, at one that has carried another packet. -/
theorem alone_delivers_four : ∃ d enc replies dec, dictTrain [[1, 2, 3], [1, 2]] 1 = .ok d ∧
    ctxCreate scalarPlatform (some d) ⟨CfgFlag.stateless, 0, 0, 0⟩ (fun _ => 0) = some enc ∧
    run (newCtx (some d) CfgFlag.stateful) [.compress [1, 2, 3] .empty 64 0] = .ok (replies, dec) ∧
    ∃ r, (smallTransfer [1, 2, 3, 1]).receive enc dec = .ok r ∧ r.code = .ok ∧ r.dst.read r.dstSize = [1, 2, 3, 1] := by
  obtain ⟨d, hd⟩ := @dictTrain_ok [[1, 2, 3], [1, 2]] 1 (by decide)
  have hs : CfgFlag.has CfgFlag.stateful CfgFlag.stateful = true := by decide
  have hdict : ∀ d', some d = some d' → Trained d' := fun _ h => Option.some.inj h ▸ ⟨_, _, hd⟩
  have henc : ctxCreate scalarPlatform (some d) ⟨CfgFlag.stateless, 0, 0, 0⟩ (fun _ => 0) = some _ := rfl
  have hwf := ctxCreate_wf (fun d' h => (hdict d' h).sound) henc
  have hcompact : CfgFlag.has CfgFlag.stateless CfgFlag.compactHdr = false := by decide
  obtain ⟨replies, dec, hrun, -⟩ := run_wf [.compress [1, 2, 3] .empty 64 0] (newCtx_reachable hdict hs).wf
  have hfits := @smallTransfer_fits [1, 2, 3, 1] (by decide)
  have hread := hdrRead_wire hwf hcompact hfits.1 (smallTransfer [1, 2, 3, 1]).dstCap
  rw [← hfits.sent_eq] at hread
  obtain ⟨⟨r, hr, hcode, -, hbytes⟩, -⟩ := alone_delivers ⟨_, _, hd⟩ henc (newCtx_create (some d) hs)
    hcompact (by decide)
    (by decide) (by decide) (show run _ [] = .ok ([], _) from rfl) hrun hfits
    (fun hdr h => by
      rw [hread, Except.ok.injEq] at h
      rw [← h]
      exact alone_of_noHistory hwf rfl (show CfgFlag.has CfgFlag.stateless CfgFlag.delta = false by decide) _ _)
    (fun hdr h _ => by
      rw [hread, Except.ok.injEq] at h
      rw [← h, wireHeader_originalSize hfits.1]
      rfl)
  exact ⟨d, _, replies, dec, hd, henc, hrun, r, hr, hcode, hbytes⟩

end Made

end Netc
