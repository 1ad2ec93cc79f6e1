/-
# What a failed call leaves in the buffer

The decoders of `netc_decompress` write into the caller's buffer as they go, so a packet that turns out to be
corrupt has overwritten some of it. A failed call leaves the buffer as it was just when the packet is turned down before
its first byte is decoded: `NothingDecoded` says of each format when that is so, from the header, the first token, or
the states and tables that the decoder starts from.

Key definitions: `Starts`, `StuckPayload`, `NothingDecoded`, `LeavesBuffer`.
Key theorems: `Starts.leaves_iff`, `decodePayload_starts`, `decompress_untouched_iff`.
-/
import Netc.FirstByte
import Netc.Reach

namespace Netc

/-! ### Decoders and the buffer -/

/-- How a decoder starts: it fails before its first write, as `F` says; or it writes something that does not depend on
the buffer and goes on from there; or it does not fail. -/
structure Starts (F : Prop) (f : Out → Chk (Out × Result)) : Prop where
  clean : F → ∃ code, code ≠ .ok ∧ ∀ dst, f dst = .ok (dst, code)
  writes : ¬F → (∃ off bs, ∃ k : Out → Chk (Out × Result), bs ≠ [] ∧ ∀ dst, f dst = k (dst.write off bs)) ∨
    ∀ dst o code, f dst = .ok (o, code) → code = .ok

section Buffer

variable {F : Prop} {f : Out → Chk (Out × Result)}

theorem Out.write_nil (dst : Out) (off : ℕ) : dst.write off [] = dst := by
  unfold Out.write
  rw [ByteMem.write_nil, List.length_nil, if_pos rfl]

/-- A buffer that differs from another in a byte that is overwritten is the same afterwards. -/
theorem Out.exists_ne (dst : Out) (off : ℕ) {bs : List UInt8} (h : bs ≠ []) :
    ∃ dst' : Out, dst'.byte ≠ dst.byte ∧ dst'.write off bs = dst.write off bs := by
  have hlen := List.length_pos_iff.mpr h
  refine ⟨⟨Function.update dst.byte off (dst.byte off + 1), dst.top⟩, fun heq => ?_, ?_⟩
  · have hbyte := congrFun heq off
    simp only [Function.update_self] at hbyte
    simp at hbyte
  · unfold Out.write
    congr 1
    funext i
    unfold ByteMem.write
    split
    · rfl
    · exact Function.update_of_ne (by omega) _ _

/-- **A failing decoder leaves the buffer as it was just when it fails before its first write.** -/
theorem Starts.leaves_iff (h : Starts F f) {dst₀ o₀ : Out} {code₀ : Result} (hf : f dst₀ = .ok (o₀, code₀))
    (hcode : code₀ ≠ .ok) :
    (∀ dst o code, f dst = .ok (o, code) → code ≠ .ok → o.byte = dst.byte) ↔ F := by
  constructor
  · intro hleaves
    by_contra hF
    rcases h.writes hF with ⟨off, bs, k, hbs, hk⟩ | hok
    · -- two buffers that the first write makes equal
      obtain ⟨dst', hne, hsame⟩ := dst₀.exists_ne off hbs
      have hf' : f dst' = .ok (o₀, code₀) := by rw [hk, hsame, ← hk, hf]
      exact hne ((hleaves _ _ _ hf' hcode).symm.trans (hleaves _ _ _ hf hcode))
    · exact hcode (hok _ _ _ hf)
  · intro hF dst o code hdst _
    obtain ⟨code', -, hclean⟩ := h.clean hF
    rw [hclean, Except.ok.injEq, Prod.mk.injEq] at hdst
    rw [hdst.1]

/-- A decoder that turns everything down. -/
theorem starts_error {code : Result} (h : code ≠ .ok) (hF : F) (hf : ∀ dst, f dst = .ok (dst, code)) : Starts F f :=
  ⟨fun _ => ⟨code, h, hf⟩, fun hF' => absurd hF hF'⟩

theorem starts_commit (r : Return) : Starts (FailsClean r) fun dst => dst.commit r := by
  constructor
  · rintro ⟨code, hne, rfl⟩
    refine ⟨code, hne, fun dst => ?_⟩
    simp only [Out.commit, Exc.ok_bind, Exc.pure_eq, Out.write_nil]
  · intro hF
    rcases r with e | ⟨bs, code⟩
    · exact Or.inr fun dst o code h => by simp [Out.commit] at h
    · by_cases hbs : bs = []
      · subst hbs
        refine Or.inr fun dst o code' h => ?_
        simp only [Out.commit, Exc.ok_bind, Exc.pure_eq, Except.ok.injEq, Prod.mk.injEq] at h
        by_contra hne
        exact hF ⟨code', hne, by rw [h.2]⟩
      · refine Or.inl ⟨0, bs, fun o => .ok (o, code), hbs, fun dst => ?_⟩
        simp only [Out.commit, Exc.ok_bind, Exc.pure_eq]

theorem Starts.congr {G : Prop} (h : Starts F f) (hFG : F ↔ G) : Starts G f := by
  rwa [← hFG]

theorem Starts.of_eq {g : Out → Chk (Out × Result)} (h : Starts F f) (hfg : ∀ dst, g dst = f dst) : Starts F g := by
  rwa [funext hfg]

/-- A part of the output at `off`, and what comes after it if it was decoded. -/
theorem starts_part {r : Return} {off : ℕ} {k : Out → Chk (Out × Result)} (hr : r ≠ .ok ([], .ok))
    (hf : ∀ dst, f dst = r >>= fun p =>
      if p.2 ≠ .ok then .ok (dst.write off p.1, p.2) else k (dst.write off p.1)) : Starts (FailsClean r) f := by
  constructor
  · rintro ⟨code, hne, rfl⟩
    refine ⟨code, hne, fun dst => ?_⟩
    rw [hf, Exc.ok_bind, if_pos hne, Out.write_nil]
  · intro hF
    rcases r with e | ⟨bs, code⟩
    · exact Or.inr fun dst o code h => by simp [hf] at h
    · have hbs : bs ≠ [] := by
        rintro rfl
        by_cases hcode : code = .ok
        · exact hr (by rw [hcode])
        · exact hF (failsClean_nil hcode)
      refine Or.inl ⟨off, bs, fun o => if code ≠ .ok then .ok (o, code) else k o, hbs, fun dst => ?_⟩
      rw [hf, Exc.ok_bind]

/-- The descriptor of region `q` stands for no bytes, or the packet ends before the region. -/
def RegionSkipped (hdr : PktHeader) (payload : List UInt8) (q : ℕ) : Prop :=
  ¬RegionListed payload q ∨
    min (decompBucketStart (q + 1)) hdr.originalSize - min (decompBucketStart q) hdr.originalSize = 0

/-- Region `q`, with its bits at `off`, fails before its first byte. -/
def RegionStuck (d : Dict) (tables : ℕ → Table) (hdr : PktHeader) (payload : List UInt8) (off q : ℕ) : Prop :=
  StateStuck tans12 false payload (1 + q * 8) ∨
    (∃ bsBytes, readU32Le payload (1 + q * 8 + 4) = .ok bsBytes ∧ payload.length < off + bsBytes) ∨
    ∃ tbl, decompSelectTbl d tables q 0 hdr.flags = .ok tbl ∧ tbl.valid = false

/-- The first region of `n` from the `r`th on that is not skipped fails before its first byte. -/
def RegionsStuck (d : Dict) (tables : ℕ → Table) (hdr : PktHeader) (payload : List UInt8) (off n r : ℕ) : Prop :=
  ∃ q, r ≤ q ∧ q < r + n ∧ (∀ p, r ≤ p → p < q → RegionSkipped hdr payload p) ∧ ¬RegionSkipped hdr payload q ∧
    RegionStuck d tables hdr payload off q

theorem regionsStuck_succ_of_skipped {d : Dict} {tables : ℕ → Table} {hdr : PktHeader} {payload : List UInt8}
    {off n r : ℕ} (h : RegionSkipped hdr payload r) :
    RegionsStuck d tables hdr payload off (n + 1) r ↔ RegionsStuck d tables hdr payload off n (r + 1) := by
  constructor
  · rintro ⟨q, hle, hlt, hskip, hnot, hstuck⟩
    have hne : q ≠ r := fun he => hnot (he ▸ h)
    exact ⟨q, by omega, by omega, fun p hp hq => hskip p (by omega) hq, hnot, hstuck⟩
  · rintro ⟨q, hle, hlt, hskip, hnot, hstuck⟩
    refine ⟨q, by omega, by omega, fun p hp hq => ?_, hnot, hstuck⟩
    by_cases hpr : p = r
    · exact hpr ▸ h
    · exact hskip p (by omega) hq

theorem regionsStuck_succ_of_listed {d : Dict} {tables : ℕ → Table} {hdr : PktHeader} {payload : List UInt8}
    {off n r : ℕ} (h : ¬RegionSkipped hdr payload r) :
    RegionsStuck d tables hdr payload off (n + 1) r ↔ RegionStuck d tables hdr payload off r := by
  constructor
  · rintro ⟨q, hle, -, hskip, -, hstuck⟩
    by_cases hqr : q = r
    · exact hqr ▸ hstuck
    · exact absurd (hskip r le_rfl (by omega)) h
  · exact fun hstuck => ⟨r, le_rfl, by omega, fun p hp hq => by omega, h, hstuck⟩

/-- A region with bytes to decode fails before its first byte, or writes it. -/
theorem failsClean_decodeRegion {d : Dict} {tables : ℕ → Table} {hdr : PktHeader} {payload : List UInt8}
    {r off bsBytes len state : ℕ} (hlen : len ≠ 0) (hst : readU32Le payload (1 + r * 8) = .ok state)
    (hbs : readU32Le payload (1 + r * 8 + 4) = .ok bsBytes) (hfit : 1 + r * 8 + 4 ≤ payload.length) :
    FailsClean (decodeRegion d tables hdr.flags payload r 0 off bsBytes len state) ↔
      RegionStuck d tables hdr payload off r := by
  have hstate : StateStuck tans12 false payload (1 + r * 8) ↔ stateOk tans12 state = false :=
    stateStuck_iff hfit hst
  have hbits : (∃ bs, readU32Le payload (1 + r * 8 + 4) = .ok bs ∧ payload.length < off + bs) ↔
      payload.length < off + bsBytes := by
    rw [hbs]
    simp
  unfold decodeRegion RegionStuck
  rw [hstate, hbits]
  cases hs : stateOk tans12 state with
  | false => exact failsClean_iff (by simp) (Or.inl rfl)
  | true =>
    simp only [Bool.not_true, Bool.false_eq_true, if_false, reduceCtorEq, false_or]
    by_cases hroom : payload.length < off + bsBytes
    · rw [if_pos hroom]
      exact failsClean_iff (by simp) (Or.inl hroom)
    · rw [if_neg hroom]
      cases hsel : decompSelectTbl d tables r 0 hdr.flags with
      | error e => simp [FailsClean, hroom]
      | ok t =>
        simp only [Exc.ok_bind, Except.ok.injEq, exists_eq_left']
        cases hv : t.valid with
        | false => exact failsClean_iff (by simp) (Or.inr rfl)
        | true =>
          obtain ⟨b, hb, -⟩ := bsrInit_wf ((payload.drop off).take bsBytes)
          simp only [Bool.not_true, Bool.false_eq_true, if_false, Chk.sub_of_le (not_lt.mp hroom), hb, Exc.ok_bind]
          rw [failsClean_decodeCode, tansDecode, tansDecodeWith_nil, hv, hs]
          simp [hlen, hroom]

theorem decodeRegion_ne {d : Dict} {tables : ℕ → Table} {flags : UInt8} {payload : List UInt8} {bucket : ℕ}
    {prev : UInt8} {off bsBytes len state : ℕ} (hlen : len ≠ 0) :
    decodeRegion d tables flags payload bucket prev off bsBytes len state ≠ .ok ([], .ok) := by
  intro h
  unfold decodeRegion at h
  split at h
  · simp at h
  · split at h
    · simp at h
    · obtain ⟨t, -, h⟩ := Exc.bind_eq_ok h
      split at h
      · simp at h
      · obtain ⟨bits, -, h⟩ := Exc.bind_eq_ok h
        obtain ⟨b, -, h⟩ := Exc.bind_eq_ok h
        obtain ⟨⟨bs, o⟩, hdec, h⟩ := Exc.bind_eq_ok h
        rw [Exc.pure_eq, Except.ok.injEq, decodeCode, Prod.mk.injEq] at h
        obtain ⟨rfl, hcode⟩ := h
        cases o with
        | none => simp at hcode
        | some a => exact tansDecodeWith_ne hlen a hdec

/-- **The region loop** starts with the first region that is not skipped. -/
theorem starts_decodeMreg (d : Dict) (tables : ℕ → Table) (hdr : PktHeader) (payload : List UInt8) (off : ℕ) :
    ∀ n r, 1 + (r + n) * 8 ≤ payload.length →
      Starts (RegionsStuck d tables hdr payload off n r) (decodeMreg d tables hdr payload n r off 0)
  | 0, r, _ => by
    refine ⟨fun ⟨q, hle, hlt, _⟩ => by omega, fun _ => Or.inr fun dst o code h => ?_⟩
    rw [decodeMreg, Except.ok.injEq, Prod.mk.injEq] at h
    exact h.2.symm
  | n + 1, r, hfit => by
    obtain ⟨state, hst, -⟩ := readU32Le_lt (l := payload) (i := 1 + r * 8) (by omega)
    obtain ⟨bsBytes, hbs, -⟩ := readU32Le_lt (l := payload) (i := 1 + r * 8 + 4) (by omega)
    obtain ⟨start, hstart⟩ : ∃ start, min (decompBucketStart r) hdr.originalSize = start := ⟨_, rfl⟩
    obtain ⟨stop, hstop⟩ : ∃ stop, min (decompBucketStart (r + 1)) hdr.originalSize = stop := ⟨_, rfl⟩
    have hround := fun dst => @decodeMreg_succ d tables hdr payload n r off 0 dst _ _ _ _ hst hbs hstart hstop
    have hskipped : RegionSkipped hdr payload r ↔ (state = 0 ∧ bsBytes = 0) ∨ stop - start = 0 := by
      unfold RegionSkipped
      rw [regionListed_iff hst hbs, hstart, hstop, not_not]
    by_cases hskip : RegionSkipped hdr payload r
    · refine ((starts_decodeMreg d tables hdr payload off n (r + 1) (by omega)).congr
        (regionsStuck_succ_of_skipped hskip).symm).of_eq fun dst => ?_
      rw [hround, if_pos (hskipped.mp hskip)]
    · have hlisted := not_or.mp (hskipped.not.mp hskip)
      have hregion := @failsClean_decodeRegion d tables hdr payload r off bsBytes _ _ hlisted.2 hst hbs (by omega)
      have hne := @decodeRegion_ne d tables hdr.flags payload r 0 off bsBytes _ state hlisted.2
      refine Starts.congr ?_ (hregion.trans (regionsStuck_succ_of_listed hskip).symm)
      simp only [if_neg (hskipped.not.mp hskip)] at hround
      exact starts_part (k := fun o => decodeMreg d tables hdr payload n (r + 1) (off + bsBytes) (o.byte (stop - 1)) o)
        hne hround

end Buffer

/-! ### Payloads -/

section Payload

variable {d : Dict} {tables : ℕ → Table} {hdr : PktHeader} {payload : List UInt8}

/-- A multi-region payload fails before its first byte: its count of regions or their descriptors are not there, or
its first region fails. -/
def MregStuck (d : Dict) (tables : ℕ → Table) (hdr : PktHeader) (payload : List UInt8) : Prop :=
  (payload.headD 0).toNat = 0 ∨ ctxCount < (payload.headD 0).toNat ∨
    payload.length < 1 + (payload.headD 0).toNat * 8 ∨
    RegionsStuck d tables hdr payload (1 + (payload.headD 0).toNat * 8) (payload.headD 0).toNat 0

/-- A tANS payload fails before its first byte. -/
def TansStuck (d : Dict) (tables : ℕ → Table) (hdr : PktHeader) (payload : List UInt8) (compact : Bool) : Prop :=
  if PktFlag.has hdr.flags PktFlag.mreg then MregStuck d tables hdr payload
  else SingleStuck d tables hdr payload compact

theorem starts_decodeTans (d : Dict) (tables : ℕ → Table) (hdr : PktHeader) (payload : List UInt8) (compact : Bool) :
    Starts (TansStuck d tables hdr payload compact) fun dst => decodeTans d tables hdr payload dst compact := by
  unfold TansStuck
  cases hm : PktFlag.has hdr.flags PktFlag.mreg with
  | false =>
    refine ((starts_commit _).congr (failsClean_decodeSingle d tables hdr payload compact)).of_eq fun dst => ?_
    simp only [decodeTans, hm, Bool.false_eq_true, if_false]
  | true =>
    simp only [if_true, MregStuck]
    rcases payload with _ | ⟨n, rest⟩
    · refine starts_error (show Result.errCorrupt ≠ .ok by simp) (Or.inl rfl) fun dst => ?_
      simp only [decodeTans, hm, if_true, List.length_nil, Nat.one_pos]
    · have hget : Chk.get (n :: rest) 0 = .ok n := rfl
      have hrun : ∀ dst, decodeTans d tables hdr (n :: rest) dst compact =
          if n = 0 ∨ ctxCount < n.toNat then .ok (dst, .errCorrupt)
          else if (n :: rest).length < 1 + n.toNat * 8 then .ok (dst, .errCorrupt)
          else decodeMreg d tables hdr (n :: rest) n.toNat 0 (1 + n.toNat * 8) 0 dst := by
        intro dst
        simp only [decodeTans, hm, if_true, hget, Exc.ok_bind, Exc.pure_eq]
        exact if_neg (by simp)
      simp only [List.headD_cons]
      have hzero : n = 0 ↔ n.toNat = 0 := UInt8.toNat_inj.symm
      by_cases hcount : n = 0 ∨ ctxCount < n.toNat
      · refine starts_error (show Result.errCorrupt ≠ .ok by simp) ?_ fun dst => by rw [hrun, if_pos hcount]
        rw [hzero] at hcount
        exact hcount.imp_right Or.inl
      · by_cases hdesc : (n :: rest).length < 1 + n.toNat * 8
        · exact starts_error (show Result.errCorrupt ≠ .ok by simp) (Or.inr (Or.inr (Or.inl hdesc)))
            fun dst => by rw [hrun, if_neg hcount, if_pos hdesc]
        · refine ((starts_decodeMreg d tables hdr (n :: rest) _ n.toNat 0 (by omega)).congr ?_).of_eq
            fun dst => by rw [hrun, if_neg hcount, if_neg hdesc]
          rw [hzero, not_or] at hcount
          rw [or_iff_right hcount.1, or_iff_right hcount.2, or_iff_right hdesc]

/-- A packet without an entropy coder fails before its first byte. -/
def PassthruStuck (hdr : PktHeader) (payload : List UInt8) : Prop :=
  if PktFlag.has hdr.flags PktFlag.lz77 then Lz77Stuck payload hdr.originalSize
  else if PktFlag.has hdr.flags PktFlag.rle then RleStuck payload hdr.originalSize
  else hdr.compressedSize ≠ hdr.originalSize

theorem failsClean_decodePassthru (hdr : PktHeader) (payload : List UInt8) :
    FailsClean (decodePassthru hdr payload) ↔ PassthruStuck hdr payload := by
  unfold decodePassthru PassthruStuck
  split
  · exact failsClean_lz77Decode _ _
  · split
    · exact failsClean_rleDecode _ _
    · split
      · next h => exact failsClean_iff (by simp) h
      · next h =>
        refine ⟨fun ⟨code, hne, heq⟩ => ?_, fun hF => absurd hF h⟩
        rw [Except.ok.injEq, Prod.mk.injEq] at heq
        exact absurd heq.2.symm hne

/-- With or without a table for the filter. -/
theorem starts_lzp (lzp : Option LzpTable) (d : Dict) (tables : ℕ → Table) (hdr : PktHeader) (payload : List UInt8)
    (compact : Bool) : Starts (lzp = none ∨ TansStuck d tables hdr payload compact) fun dst =>
      match lzp with
      | none => .ok (dst, .errDictInvalid)
      | some _ => decodeTans d tables hdr payload dst compact := by
  cases lzp with
  | none => exact starts_error (show Result.errDictInvalid ≠ .ok by simp) (Or.inl rfl) fun _ => rfl
  | some t => exact (starts_decodeTans d tables hdr payload compact).congr (by simp)

/-- An entropy-coded payload fails before its first byte. -/
def CodedStuck (d : Dict) (tables : ℕ → Table) (lzp : Option LzpTable) (hdr : PktHeader) (payload : List UInt8)
    (compact : Bool) : Prop :=
  let alg := algId hdr.algorithm
  if alg = Alg.tans then TansStuck d tables hdr payload compact
  else if alg = Alg.tansPctx then
    hdr.originalSize = 0 ∨ StateStuck tans12 compact payload 0 ∨ PctxUnset d tables hdr.flags
  else if alg = Alg.lzp then lzp = none ∨ TansStuck d tables hdr payload compact
  else if alg = Alg.tans10 then Tans10Stuck tables hdr payload
  else True

/-- The entropy-coded branches, the same on both paths, before what turns down the other algorithms. -/
theorem starts_coded (d : Dict) (tables : ℕ → Table) (lzp : Option LzpTable) (hdr : PktHeader) (payload : List UInt8)
    (compact : Bool) {g : Out → Chk (Out × Result)} (hg : Starts True g) :
    Starts (CodedStuck d tables lzp hdr payload compact) fun dst =>
      if algId hdr.algorithm = Alg.tans then decodeTans d tables hdr payload dst compact
      else if algId hdr.algorithm = Alg.tansPctx then dst.commit (decodePctx d tables hdr payload compact)
      else if algId hdr.algorithm = Alg.lzp then
        match lzp with
        | none => .ok (dst, .errDictInvalid)
        | some _ => decodeTans d tables hdr payload dst compact
      else if algId hdr.algorithm = Alg.tans10 then dst.commit (decode10 tables hdr payload)
      else g dst := by
  unfold CodedStuck
  simp only
  by_cases htans : algId hdr.algorithm = Alg.tans
  · simp only [if_pos htans]
    exact starts_decodeTans ..
  simp only [if_neg htans]
  by_cases hpctx : algId hdr.algorithm = Alg.tansPctx
  · simp only [if_pos hpctx]
    exact (starts_commit _).congr (failsClean_decodePctx ..)
  simp only [if_neg hpctx]
  by_cases hlzp : algId hdr.algorithm = Alg.lzp
  · simp only [if_pos hlzp]
    exact starts_lzp lzp d tables hdr payload compact
  simp only [if_neg hlzp]
  by_cases h10 : algId hdr.algorithm = Alg.tans10
  · simp only [if_pos h10]
    exact (starts_commit _).congr (failsClean_decode10 ..)
  · simp only [if_neg h10]
    exact hg

/-- The payload is turned down before its first byte is decoded. -/
def StuckPayload (ctx : Ctx) (hdr : PktHeader) (payload : List UInt8) : Prop :=
  let alg := algId hdr.algorithm
  if alg = Alg.passthru then PassthruStuck hdr payload
  else if alg = Alg.lz77x then ctx.hasRing = false ∨ Lz77xStuck ctx.ring payload hdr.originalSize
  else if alg = Alg.rans then True
  else ∀ d, ctx.dict = some d → CodedStuck d (ctx.getTables d) ctx.getLzpTable hdr payload ctx.compactMode

/-- The payload is turned down before its first byte is decoded, on the stateless path. -/
def StuckStateless (d : Dict) (hdr : PktHeader) (payload : List UInt8) : Prop :=
  if algId hdr.algorithm = Alg.passthru then PassthruStuck hdr payload
  else CodedStuck d d.tables d.lzpTable hdr payload false

/-- **How `netc_decompress` starts on a payload.** -/
theorem decodePayload_starts (ctx : Ctx) (hdr : PktHeader) (payload : List UInt8) :
    Starts (StuckPayload ctx hdr payload) (decodePayload ctx hdr payload) := by
  unfold StuckPayload decodePayload
  simp only
  by_cases hpass : algId hdr.algorithm = Alg.passthru
  · simp only [if_pos hpass]
    exact (starts_commit _).congr (failsClean_decodePassthru hdr payload)
  simp only [if_neg hpass]
  by_cases hlz : algId hdr.algorithm = Alg.lz77x
  · simp only [if_pos hlz]
    cases hring : ctx.hasRing with
    | false => exact starts_error (show Result.errUnsupported ≠ .ok by simp) (Or.inl rfl) fun _ => rfl
    | true =>
      simp only [Bool.not_true, Bool.false_eq_true, if_false, reduceCtorEq, false_or]
      exact (starts_commit _).congr (failsClean_lz77xDecode ..)
  simp only [if_neg hlz]
  by_cases hrans : algId hdr.algorithm = Alg.rans
  · simp only [if_pos hrans]
    exact starts_error (show Result.errUnsupported ≠ .ok by simp) trivial fun _ => rfl
  simp only [if_neg hrans]
  rcases hd : ctx.dict with _ | d
  · refine starts_error ?_ (fun _ h => by cases h) fun _ => rfl
    split <;> simp
  · refine (starts_coded d (ctx.getTables d) ctx.getLzpTable hdr payload ctx.compactMode
      (starts_error (show Result.errCorrupt ≠ .ok by simp) trivial fun _ => rfl)).congr ?_
    simp

/-- **How `netc_decompress_stateless` starts on a payload.** -/
theorem statelessPayload_starts (d : Dict) (hdr : PktHeader) (payload : List UInt8) :
    Starts (StuckStateless d hdr payload) (statelessPayload d hdr payload) := by
  unfold StuckStateless statelessPayload
  simp only
  by_cases hpass : algId hdr.algorithm = Alg.passthru
  · simp only [if_pos hpass]
    exact (starts_commit _).congr (failsClean_decodePassthru hdr payload)
  · simp only [if_neg hpass]
    apply starts_coded
    by_cases hrans : algId hdr.algorithm = Alg.rans
    · simp only [if_pos hrans]
      exact starts_error (show Result.errUnsupported ≠ .ok by simp) trivial fun _ => rfl
    · simp only [if_neg hrans]
      exact starts_error (show Result.errCorrupt ≠ .ok by simp) trivial fun _ => rfl

end Payload

/-! ### Calls -/

/-- `netc_decompress` returns an error on this packet. -/
def Rejects (ctx : Ctx) (src : List UInt8) (dstCap : ℕ) : Prop :=
  ∃ dst dstSize r, decompress ctx src dst dstCap dstSize = .ok r ∧ r.code ≠ .ok

/-- `netc_decompress_stateless` returns an error on this packet. -/
def RejectsStateless (d : Dict) (src : List UInt8) (dstCap : ℕ) : Prop :=
  ∃ dst dstSize r, decompressStateless d src dst dstCap dstSize = .ok r ∧ r.code ≠ .ok

/-- Where `netc_decompress` returns an error, the buffer has its contents from before the call. -/
def LeavesBuffer (ctx : Ctx) (src : List UInt8) (dstCap : ℕ) : Prop :=
  ∀ dst dstSize r, decompress ctx src dst dstCap dstSize = .ok r → r.code ≠ .ok → r.dst.byte = dst.byte

/-- Where `netc_decompress_stateless` returns an error, the buffer has its contents from before the call. -/
def LeavesBufferStateless (d : Dict) (src : List UInt8) (dstCap : ℕ) : Prop :=
  ∀ dst dstSize r, decompressStateless d src dst dstCap dstSize = .ok r → r.code ≠ .ok → r.dst.byte = dst.byte

/-- The packet is turned down before its first byte is decoded: by its header, its model, or its payload. -/
def NothingDecoded (ctx : Ctx) (src : List UInt8) (dstCap : ℕ) : Prop :=
  ∀ hdr hdrSz, validateHeader src dstCap ctx.compactMode = .ok (.ok (hdr, hdrSz)) →
    modelMismatch ctx (fillHeader ctx hdr) = true ∨
      StuckPayload ctx (fillHeader ctx hdr) ((src.drop hdrSz).take hdr.compressedSize)

/-- The packet is turned down before its first byte is decoded, on the stateless path. -/
def NothingDecodedStateless (d : Dict) (src : List UInt8) (dstCap : ℕ) : Prop :=
  ∀ hdr hdrSz, validateHeader src dstCap false = .ok (.ok (hdr, hdrSz)) →
    (PktFlag.has hdr.flags PktFlag.passthru = false ∧ hdr.modelId ≠ d.modelId) ∨
      PktFlag.has hdr.flags PktFlag.delta = true ∨
      StuckStateless d hdr ((src.drop hdrSz).take hdr.compressedSize)

section Calls

variable {ctx : Ctx} {d : Dict} {src : List UInt8} {dstCap : ℕ} {hdr : PktHeader} {hdrSz : ℕ}

/-- The end of a call: an error of the decoder is returned with its buffer, and what comes after a decoded payload
does not fail. -/
theorem return_fails_iff {ρ : Type} {x : Chk (Out × Result)} {ret : Out × Result → ρ} {rest : Out × Result → Chk ρ}
    {code : ρ → Result} {out : ρ → Out} (hcode : ∀ p, code (ret p) = p.2) (hout : ∀ p, out (ret p) = p.1)
    (hrest : ∀ p r, rest p = .ok r → code r = .ok) (o : Out) :
    (∃ r, (x >>= fun p => if p.2 ≠ .ok then .ok (ret p) else rest p) = .ok r ∧ code r ≠ .ok ∧ out r = o) ↔
      ∃ c, x = .ok (o, c) ∧ c ≠ .ok := by
  rcases x with e | ⟨o', c⟩
  · simp
  · rw [Exc.ok_bind]
    constructor
    · rintro ⟨r, hr, hne, rfl⟩
      split at hr
      · next hc =>
        rw [Except.ok.injEq] at hr
        rw [← hr, hout]
        exact ⟨c, rfl, hc⟩
      · exact absurd (hrest _ _ hr) hne
    · rintro ⟨c', heq, hne⟩
      rw [Except.ok.injEq, Prod.mk.injEq] at heq
      obtain ⟨rfl, rfl⟩ := heq
      exact ⟨_, if_pos hne, by rwa [hcode], hout _⟩

/-- A call that gets to its payload fails just when the decoder does, with the decoder's buffer. -/
theorem decompress_fails_iff (hv : validateHeader src dstCap ctx.compactMode = .ok (.ok (hdr, hdrSz)))
    (hle : hdrSz + hdr.compressedSize ≤ src.length) (hm : modelMismatch ctx (fillHeader ctx hdr) = false) (dst o : Out)
    (dstSize : ℕ) :
    (∃ r, decompress ctx src dst dstCap dstSize = .ok r ∧ r.code ≠ .ok ∧ r.dst = o) ↔
      ∃ code, decodePayload ctx (fillHeader ctx hdr) ((src.drop hdrSz).take hdr.compressedSize) dst = .ok (o, code) ∧
        code ≠ .ok := by
  rw [← fillHeader_compressedSize ctx] at hle ⊢
  unfold decompress
  rw [hv, Exc.ok_bind]
  simp only [decompressBody, hm, Bool.false_eq_true, if_false, Chk.sub_of_le hle, Exc.ok_bind, Exc.pure_eq]
  refine return_fails_iff ?_ ?_ ?_ o
  · exact fun _ => rfl
  · exact fun _ => rfl
  · intro p r hr
    obtain ⟨o', -, hr⟩ := Exc.bind_eq_ok hr
    obtain ⟨u, -, hr⟩ := Exc.bind_eq_ok hr
    rw [Except.ok.injEq] at hr
    rw [← hr]

/-- The same on the stateless path. -/
theorem decompressStateless_fails_iff (hv : validateHeader src dstCap false = .ok (.ok (hdr, hdrSz)))
    (hle : hdrSz + hdr.compressedSize ≤ src.length)
    (hm : ¬(PktFlag.has hdr.flags PktFlag.passthru = false ∧ hdr.modelId ≠ d.modelId))
    (hdelta : PktFlag.has hdr.flags PktFlag.delta = false) (dst o : Out) (dstSize : ℕ) :
    (∃ r, decompressStateless d src dst dstCap dstSize = .ok r ∧ r.code ≠ .ok ∧ r.dst = o) ↔
      ∃ code, statelessPayload d hdr ((src.drop hdrSz).take hdr.compressedSize) dst = .ok (o, code) ∧ code ≠ .ok := by
  have hmodel : (!PktFlag.has hdr.flags PktFlag.passthru && hdr.modelId != d.modelId) = false := by
    rw [← Bool.not_eq_true, Bool.and_eq_true, Bool.not_eq_true', bne_iff_ne]
    exact hm
  unfold decompressStateless
  rw [hv, Exc.ok_bind]
  simp only [statelessBody, hmodel, hdelta, Bool.false_eq_true, if_false, Chk.sub_of_le hle, Exc.ok_bind, Exc.pure_eq]
  refine return_fails_iff ?_ ?_ ?_ o
  · exact fun _ => rfl
  · exact fun _ => rfl
  · intro p r hr
    obtain ⟨o', -, hr⟩ := Exc.bind_eq_ok hr
    rw [Except.ok.injEq] at hr
    rw [← hr]

/-- A call that fails as its decoder does leaves the buffer just when the decoder fails before its first write. -/
theorem Starts.call_iff {ρ : Type} {F : Prop} {f : Out → Chk (Out × Result)} (h : Starts F f) {call : Out → ℕ → Chk ρ}
    {code : ρ → Result} {out : ρ → Out}
    (hcall : ∀ dst dstSize o, (∃ r, call dst dstSize = .ok r ∧ code r ≠ .ok ∧ out r = o) ↔
      ∃ c, f dst = .ok (o, c) ∧ c ≠ .ok)
    (hrej : ∃ dst dstSize r, call dst dstSize = .ok r ∧ code r ≠ .ok) :
    (∀ dst dstSize r, call dst dstSize = .ok r → code r ≠ .ok → (out r).byte = dst.byte) ↔ F := by
  obtain ⟨dst₀, size₀, r₀, hr₀, hne₀⟩ := hrej
  obtain ⟨c₀, hf₀, hc₀⟩ := (hcall dst₀ size₀ (out r₀)).mp ⟨r₀, hr₀, hne₀, rfl⟩
  rw [← h.leaves_iff hf₀ hc₀]
  constructor
  · intro hleaves dst o c hf hc
    obtain ⟨r, hr, hne, rfl⟩ := (hcall dst size₀ o).mpr ⟨c, hf, hc⟩
    exact hleaves dst size₀ r hr hne
  · intro hleaves dst dstSize r hr hne
    obtain ⟨c, hf, hc⟩ := (hcall dst dstSize (out r)).mp ⟨r, hr, hne, rfl⟩
    exact hleaves dst _ c hf hc

/-- A packet has one header. -/
theorem forall_header_iff {compact : Bool} {Q : PktHeader → ℕ → Prop}
    (hv : validateHeader src dstCap compact = .ok (.ok (hdr, hdrSz))) :
    (∀ hdr' hdrSz', validateHeader src dstCap compact = .ok (.ok (hdr', hdrSz')) → Q hdr' hdrSz') ↔ Q hdr hdrSz := by
  constructor
  · exact fun h => h hdr hdrSz hv
  · intro h hdr' hdrSz' hv'
    rw [hv, Except.ok.injEq, Except.ok.injEq, Prod.mk.injEq] at hv'
    obtain ⟨rfl, rfl⟩ := hv'
    exact h

theorem untouched_iff (hrej : Rejects ctx src dstCap) :
    LeavesBuffer ctx src dstCap ↔ NothingDecoded ctx src dstCap := by
  obtain ⟨v, hv, hpost⟩ := validateHeader_ok src dstCap ctx.compactMode
  rcases v with code | ⟨hdr, hdrSz⟩
  · -- the header is turned down
    refine iff_of_true (fun dst dstSize r hr _ => ?_) fun hdr hdrSz hv' => ?_
    · rw [decompress, hv, Exc.ok_bind] at hr
      simp only [Exc.pure_eq, Except.ok.injEq] at hr
      rw [← hr]
    · rw [hv] at hv'
      cases hv'
  · unfold NothingDecoded
    rw [forall_header_iff hv]
    cases hm : modelMismatch ctx (fillHeader ctx hdr) with
    | true =>
      refine iff_of_true (fun dst dstSize r hr _ => ?_) (Or.inl rfl)
      rw [decompress, hv, Exc.ok_bind] at hr
      simp only [decompressBody, hm, if_true, Except.ok.injEq] at hr
      rw [← hr]
    | false =>
      simp only [Bool.false_eq_true, false_or]
      exact (decodePayload_starts ..).call_iff
        (fun dst dstSize o => decompress_fails_iff hv hpost.2.2 hm dst o dstSize) hrej

theorem untouchedStateless_iff (hrej : RejectsStateless d src dstCap) :
    LeavesBufferStateless d src dstCap ↔ NothingDecodedStateless d src dstCap := by
  obtain ⟨v, hv, hpost⟩ := validateHeader_ok src dstCap false
  rcases v with code | ⟨hdr, hdrSz⟩
  · refine iff_of_true (fun dst dstSize r hr _ => ?_) fun hdr hdrSz hv' => ?_
    · rw [decompressStateless, hv, Exc.ok_bind] at hr
      simp only [Exc.pure_eq, Except.ok.injEq] at hr
      rw [← hr]
    · rw [hv] at hv'
      cases hv'
  · unfold NothingDecodedStateless
    rw [forall_header_iff hv]
    by_cases hm : PktFlag.has hdr.flags PktFlag.passthru = false ∧ hdr.modelId ≠ d.modelId
    · refine iff_of_true (fun dst dstSize r hr _ => ?_) (Or.inl hm)
      have hmodel : (!PktFlag.has hdr.flags PktFlag.passthru && hdr.modelId != d.modelId) = true := by
        rw [Bool.and_eq_true, Bool.not_eq_true', bne_iff_ne]
        exact hm
      rw [decompressStateless, hv, Exc.ok_bind] at hr
      simp only [statelessBody, hmodel, if_true, Except.ok.injEq] at hr
      rw [← hr]
    · rw [or_iff_right hm]
      cases hdelta : PktFlag.has hdr.flags PktFlag.delta with
      | true =>
        refine iff_of_true (fun dst dstSize r hr _ => ?_) (Or.inl rfl)
        rw [decompressStateless, hv, Exc.ok_bind] at hr
        simp only [statelessBody, hdelta, if_true] at hr
        split at hr <;> rw [Except.ok.injEq] at hr <;> rw [← hr]
      | false =>
        simp only [Bool.false_eq_true, false_or]
        exact (statelessPayload_starts ..).call_iff
          (fun dst dstSize o => decompressStateless_fails_iff hv hpost.2.2 hm hdelta dst o dstSize) hrej

end Calls

/-- **When a failed call leaves the buffer as it was**: just when the packet is turned down before its first
byte is decoded. -/
theorem decompress_untouched_iff (src : List UInt8) (dstCap : ℕ) :
    (∀ ctx, Rejects ctx src dstCap → (LeavesBuffer ctx src dstCap ↔ NothingDecoded ctx src dstCap)) ∧
    (∀ d, RejectsStateless d src dstCap →
      (LeavesBufferStateless d src dstCap ↔ NothingDecodedStateless d src dstCap)) :=
  ⟨fun _ h => untouched_iff h, fun _ h => untouchedStateless_iff h⟩

theorem decompress_untouched_cut :
    (LeavesBuffer (newCtx none CfgFlag.stateful) cutPacket 2 ↔
      NothingDecoded (newCtx none CfgFlag.stateful) cutPacket 2) ∧
    ∃ d, dictTrain [] 1 = .ok d ∧ (LeavesBufferStateless d cutPacket 2 ↔ NothingDecodedStateless d cutPacket 2) := by
  obtain ⟨d, hd⟩ := @dictTrain_ok [] 1 (by decide)
  obtain ⟨hctx, hdict⟩ := decompress_untouched_iff cutPacket 2
  exact ⟨hctx _ ⟨.empty, 0, _, rfl, by decide⟩, d, hd, hdict d ⟨.empty, 0, _, rfl, by decide⟩⟩

/-- The cut packet is turned down, and its first byte is in the buffer. -/
theorem decompress_touched : Reachable (newCtx none CfgFlag.stateful) ∧
    ¬LeavesBuffer (newCtx none CfgFlag.stateful) cutPacket 2 := by
  refine ⟨plain_reachable (by decide), fun h => ?_⟩
  have hrun : decompress (newCtx none CfgFlag.stateful) cutPacket .empty 2 0
      = .ok ⟨.errCorrupt, Out.empty.write 0 [42], 0, newCtx none CfgFlag.stateful⟩ := rfl
  have hbyte := congrFun (h _ _ _ hrun (by decide)) 0
  exact absurd hbyte (by decide)

end Netc
