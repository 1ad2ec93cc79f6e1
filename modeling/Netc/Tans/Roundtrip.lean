/-
# Round trips of the tANS coders

What each encoder of `netc_tans.c` writes through the bit stream its decoder
reads back: with one table (12 or 10 bits), with the table of the position, and with
the table of position and previous byte. The coder with two states does so for
packets of even length. For odd lengths the encoder gives the lone byte at the
end to the first state and the decoder takes the one at the front from it, so
that from there on the two states have changed places (`tansX2_roundtrip`).

Key definitions: `X2RoundTrips`, `PairsEqual`.
Key theorems: `tans_roundtrip`, `tansPctx_roundtrip`, `tansX2_roundtrip`.
-/
import Netc.Tans.Codec
import Netc.Tans.Freq

namespace Netc

/-! ### Room in the writer

A symbol takes at most `tableLog` bits, and a writer fails only for want of room. -/

section Room

variable {P : TansParams} {check : Bool} {t : Table} {T V : ℕ} {w : Bsw}

/-- With room for a symbol's bits the step succeeds. -/
theorem encodeStep_ok {sym : UInt8} (hf : 0 < (t.encode sym.toNat).freq) {X : ℕ} (hw : w.Holds T V)
    (hcap : (T + t.nb sym.toNat X) / 8 + 1 ≤ w.cap) : ∃ X' w', encodeStep check t sym X w = .ok (X', w') := by
  have hf0 : ((t.encode sym.toNat).freq == 0) = false := by simpa using hf.ne'
  simp only [encodeStep, hf0, Bool.and_false, Bool.false_eq_true, if_false]
  by_cases h0 : 0 < t.nb sym.toNat X
  · obtain ⟨w', hw'⟩ := @bswWrite_ok w T V (X &&& (1 <<< t.nb sym.toNat X - 1)) (t.nb sym.toNat X) hw (by omega)
    rw [if_pos h0, hw']
    exact ⟨_, _, rfl⟩
  · rw [if_neg h0]
    exact ⟨_, _, rfl⟩

/-- With room for the bits of all symbols the run with one table succeeds. -/
theorem encodeRun_ok (ht : t.Sound P) {X : ℕ} (hX : P.InRange X) (hw : w.Holds T V) :
    ∀ (src : List UInt8) (i : ℕ) (prev : UInt8), (∀ b ∈ src, 0 < (t.encode b.toNat).freq) →
    (T + P.tableLog * src.length) / 8 + 1 ≤ w.cap →
    ∃ X' w' T' V', encodeRun check (fun _ _ => some t) i prev src X w = .ok (X', w') ∧ P.InRange X' ∧
      w'.cap = w.cap ∧ w'.Holds T' V' ∧ T' ≤ T + P.tableLog * src.length
  | [], i, prev, _, _ => ⟨X, w, T, V, rfl, hX, rfl, hw, by simp⟩
  | b :: src, i, prev, hf, hcap => by
    rw [List.length_cons, Nat.mul_add, Nat.mul_one] at hcap ⊢
    obtain ⟨X₁, w₁, T₁, V₁, hrun, hX₁, hcap₁, hw₁, hT₁⟩ :=
      encodeRun_ok ht hX hw src (i + 1) b (fun c hc => hf c (by simp [hc])) (by omega)
    have hfb := hf b (by simp)
    have hnb := ht.nb_le b.toNat X₁
    obtain ⟨X₂, w₂, hstep⟩ := @encodeStep_ok check t T₁ V₁ w₁ b hfb X₁ hw₁ (by rw [hcap₁]; omega)
    obtain ⟨hX₂, hcap₂, T₂, V₂, hw₂, hT₂, -⟩ := encodeStep_decodeStep ht hfb hX₁ hw₁ hstep
    have hnb := ht.nb_le b.toNat X₁
    exact ⟨X₂, w₂, T₂, V₂, by rw [encodeRun, hrun]; exact hstep, hX₂, hcap₂.trans hcap₁, hw₂, by omega⟩

/-- A run leaves at least `k` bits a symbol, if none takes fewer where it stands. -/
theorem encodeRun_bits {sel : ℕ → UInt8 → Option Table} (hsound : ∀ i prev t, sel i prev = some t → t.Sound P) {X k : ℕ}
    (hX : P.InRange X) (hw : w.Holds T V) : ∀ (src : List UInt8) (i : ℕ) (prev : UInt8) (X' : ℕ) (w' : Bsw),
    (∀ j b, src[j]? = some b → ∀ prev t, sel (i + j) prev = some t →
      0 < (t.encode b.toNat).freq ∧ ∀ X, P.InRange X → k ≤ t.nb b.toNat X) →
    encodeRun check sel i prev src X w = .ok (X', w') →
    P.InRange X' ∧ w'.cap = w.cap ∧ ∃ T' V', w'.Holds T' V' ∧ T + k * src.length ≤ T'
  | [], i, prev, X', w', _, h => by
    obtain ⟨rfl, rfl⟩ := Prod.mk.inj (Except.ok.inj h)
    exact ⟨hX, rfl, T, V, hw, by simp⟩
  | b :: src, i, prev, X', w', hk, h => by
    rw [encodeRun] at h
    rcases hrest : encodeRun check sel (i + 1) b src X w with e | ⟨X₁, w₁⟩
    · simp [hrest] at h
    · obtain ⟨hX₁, hcap₁, T₁, V₁, hw₁, hT₁⟩ := encodeRun_bits hsound hX hw src (i + 1) b X₁ w₁
        (fun j c hc prev t ht => hk (j + 1) c (by simpa using hc) prev t (by rw [← ht]; congr 1; omega)) hrest
      rcases htbl : sel i prev with _ | t
      · simp [hrest, htbl] at h
      · simp only [hrest, htbl] at h
        obtain ⟨hf, hnb⟩ := hk 0 b (by simp) prev t (by simpa using htbl)
        obtain ⟨hX', hcap', T', V', hw', hT', -⟩ := encodeStep_decodeStep (hsound i prev t htbl) hf hX₁ hw₁ h
        have := hnb X₁ hX₁
        refine ⟨hX', hcap'.trans hcap₁, T', V', hw', ?_⟩
        rw [List.length_cons, Nat.mul_add, Nat.mul_one]
        omega

end Room

/-! ### One table -/

section One

variable {P : TansParams} {check : Bool} {t : Table} {src : List UInt8}

/-- An encoder with one table, through the stream. -/
theorem tansWith_roundtrip (ht : t.Sound P) (hne : src ≠ []) (hf : ∀ b ∈ src, 0 < (t.encode b.toNat).freq)
    {X₀ X cap : ℕ} {w w' : Bsw} (hX : P.InRange X₀) (henc : tansEncodeWith P check t src (bswInit cap) X₀ = (X, w))
    (h0 : X ≠ 0) (hflush : bswFlush w = .ok w') :
    P.InRange X ∧ ∃ r r', bsrInit w'.out = .ok r ∧
      tansDecodeWith P t r src.length X = .ok (src, some (X₀, r')) ∧ r'.ptr = 0 ∧ r'.bits = 0 := by
  have hempty : src.isEmpty = false := by simpa using hne
  have hlen : src.length ≠ 0 := by simpa using hne
  have hstart : startState P X₀ = X₀ := if_neg (not_lt.mpr hX.1)
  rw [tansEncodeWith, ht.valid, hempty, if_neg (by simp), hstart] at henc
  rcases hrun : encodeRun check (fun _ _ => some t) 0 0 src X₀ (bswInit cap) with w₀ | ⟨X', w₀⟩
  · rw [hrun, encodeReturn, Prod.mk.injEq] at henc
    exact absurd henc.1.symm h0
  · rw [hrun, encodeReturn, Prod.mk.injEq] at henc
    obtain ⟨rfl, rfl⟩ := henc
    have hsound : ∀ (_ : ℕ) (_ : UInt8) (t' : Table), some t = some t' → t'.Sound P := by
      rintro _ _ _ ⟨⟩
      exact ht
    have hfull : check = false → ∀ b ∈ src, ∀ (_ : ℕ) (_ : UInt8) (t' : Table), some t = some t' →
        0 < (t'.encode b.toNat).freq := by
      rintro - b hb _ _ _ ⟨⟩
      exact hf b hb
    obtain ⟨hin, -, T, V, hholds, hdec⟩ := encodeRun_undone 
      (fun _ _ => rfl) hsound hX (bswInit_holds cap) src 0 0 X' w₀ hfull hrun
    obtain ⟨r, hinit, hshows⟩ := bswFlush_opens hholds hflush
    obtain ⟨r', hd, hs', -⟩ := hdec r hshows
    refine ⟨hin, r, r', hinit, ?_, hs'.done⟩
    rw [tansDecodeWith, if_neg (by simp [ht.valid, hlen, stateOk_of_inRange hin]), hd]

end One

/-- With room for its bits a packet is encoded, and the stream is closed. -/
theorem tansEncodeWith_ok {P : TansParams} {check : Bool} {t : Table} (ht : t.Sound P) {src : List UInt8}
    (hne : src ≠ []) (hf : ∀ b ∈ src, 0 < (t.encode b.toNat).freq) {X₀ cap : ℕ} (hX : P.InRange X₀)
    (hcap : (P.tableLog * src.length) / 8 + 1 ≤ cap) :
    ∃ X w w', tansEncodeWith P check t src (bswInit cap) X₀ = (X, w) ∧ X ≠ 0 ∧ bswFlush w = .ok w' := by
  have hempty : src.isEmpty = false := by simpa using hne
  have hstart : startState P X₀ = X₀ := if_neg (not_lt.mpr hX.1)
  obtain ⟨X, w, T, V, hrun, hXr, hc, hw, hT⟩ := @encodeRun_ok P check t 0 0 (bswInit cap) ht X₀ hX (bswInit_holds cap)
    src 0 0 hf (by simpa [bswInit] using hcap)
  have hcap' : w.cap = cap := hc
  obtain ⟨w', hflush⟩ := bswFlush_ok hw (by omega)
  refine ⟨X, w, w', ?_, ?_, hflush⟩
  · rw [tansEncodeWith, ht.valid, hempty, if_neg (by simp), hstart, hrun, encodeReturn]
  · have := hXr.1
    have := P.size_pos
    omega

/-- Every byte equally often. -/
theorem flat_builds {P : TansParams} {c : ℕ} (h : 256 * c = P.size) : ∃ t, tansBuildWith P (fun _ => c) = some t := by
  rw [tansBuildWith, cumul_const, if_neg (by omega)]
  exact ⟨_, rfl⟩

/-- **The round trip of the coders with one table.** What `netc_tans_encode` wrote from state `X₀`, `netc_tans_decode`
reads back from the state it returned: the packet, ending in `X₀` with no bit of the stream left; and so do the
coders with a 10-bit table. -/
theorem tans_roundtrip :
    (∀ freq t, tansBuild freq = some t → ∀ src : List UInt8, src ≠ [] → (∀ b ∈ src, 0 < freq b.toNat) →
      ∀ X₀, 4096 ≤ X₀ ∧ X₀ < 8192 → ∀ cap X w w', tansEncode t src (bswInit cap) X₀ = (X, w) → X ≠ 0 →
      bswFlush w = .ok w' →
      (4096 ≤ X ∧ X < 8192) ∧ ∃ r r', bsrInit w'.out = .ok r ∧
        tansDecode t r src.length X = .ok (src, some (X₀, r')) ∧ r'.ptr = 0 ∧ r'.bits = 0) ∧
    (∀ freq t, tansBuild10 freq = some t → ∀ src : List UInt8, src ≠ [] → (∀ b ∈ src, 0 < freq b.toNat) →
      ∀ X₀, 1024 ≤ X₀ ∧ X₀ < 2048 → ∀ cap X w w', tansEncode10 t src (bswInit cap) X₀ = (X, w) → X ≠ 0 →
      bswFlush w = .ok w' →
      (1024 ≤ X ∧ X < 2048) ∧ ∃ r r', bsrInit w'.out = .ok r ∧
        tansDecode10 t r src.length X = .ok (src, some (X₀, r')) ∧ r'.ptr = 0 ∧ r'.bits = 0) := by
  have hocc : ∀ {P : TansParams} {freq : Freq} {t : Table}, tansBuildWith P freq = some t → ∀ {src : List UInt8},
      (∀ b ∈ src, 0 < freq b.toNat) → ∀ b ∈ src, 0 < (t.encode b.toNat).freq := by
    intro P freq t ht src hf b hb
    rw [tansBuildWith_encode_freq ht (UInt8.toNat_lt b)]
    exact hf b hb
  have h12 : ∀ X, tans12.InRange X ↔ 4096 ≤ X ∧ X < 8192 := by
    intro X
    rw [TansParams.InRange, size_tans12]
  have h10 : ∀ X, tans10.InRange X ↔ 1024 ≤ X ∧ X < 2048 := by
    intro X
    rw [TansParams.InRange, size_tans10]
  constructor
  · intro freq t ht src hne hf X₀ hX cap X w w' henc h0 hflush
    rw [← h12]
    exact tansWith_roundtrip (tansBuildWith_sound ht) hne (hocc ht hf) ((h12 X₀).mpr hX) henc h0 hflush
  · intro freq t ht src hne hf X₀ hX cap X w w' henc h0 hflush
    rw [← h10]
    exact tansWith_roundtrip (tansBuildWith_sound ht) hne (hocc ht hf) ((h10 X₀).mpr hX) henc h0 hflush

theorem tans_roundtrip_flat :
    (∃ t X w w' r r', tansBuild (fun _ => 16) = some t ∧ tansEncode t [7, 9] (bswInit 8) 4096 = (X, w) ∧
      bswFlush w = .ok w' ∧ bsrInit w'.out = .ok r ∧ tansDecode t r 2 X = .ok ([7, 9], some (4096, r')) ∧
      r'.ptr = 0 ∧ r'.bits = 0) ∧
    (∃ t X w w' r r', tansBuild10 (fun _ => 4) = some t ∧ tansEncode10 t [7, 9] (bswInit 8) 1024 = (X, w) ∧
      bswFlush w = .ok w' ∧ bsrInit w'.out = .ok r ∧ tansDecode10 t r 2 X = .ok ([7, 9], some (1024, r')) ∧
      r'.ptr = 0 ∧ r'.bits = 0) := by
  obtain ⟨t, ht⟩ := @flat_builds tans12 16 (by rw [size_tans12])
  obtain ⟨t', ht'⟩ := @flat_builds tans10 4 (by rw [size_tans10])
  have hocc : ∀ {P : TansParams} {c : ℕ} {t : Table}, tansBuildWith P (fun _ => c) = some t → 0 < c →
      ∀ b ∈ ([7, 9] : List UInt8), 0 < (t.encode b.toNat).freq := by
    intro P c t ht hc b _
    rwa [tansBuildWith_encode_freq ht (UInt8.toNat_lt b)]
  obtain ⟨X, w, w', henc, h0, hflush⟩ := @tansEncodeWith_ok tans12 false t (tansBuildWith_sound ht) [7, 9] (by simp)
    (hocc ht (by norm_num)) 4096 8 (by rw [← size_tans12]; exact tans12.inRange_size) (by decide)
  obtain ⟨Y, u, u', henc', h0', hflush'⟩ := @tansEncodeWith_ok tans10 true t' (tansBuildWith_sound ht') [7, 9] (by simp)
    (hocc ht' (by norm_num)) 1024 8 (by rw [← size_tans10]; exact tans10.inRange_size) (by decide)
  obtain ⟨-, r, r', h1, h2, h3⟩ := tans_roundtrip.1 _ t ht [7, 9] (by simp) (by simp) 4096 (by norm_num) 8 X w w'
    henc h0 hflush
  obtain ⟨-, q, q', g1, g2, g3⟩ := tans_roundtrip.2 _ t' ht' [7, 9] (by simp) (by simp) 1024 (by norm_num) 8 Y u u'
    henc' h0' hflush'
  exact ⟨⟨t, X, w, w', r, r', ht, henc, hflush, h1, h2, h3⟩, t', Y, u, u', q, q', ht', henc', hflush', g1, g2, g3⟩

/-! ### A table per position -/

/-- A table that `netc_tans_build` made, or an invalid one. -/
def BuiltOrInvalid (t : Table) : Prop := t.valid = false ∨ ∃ freq, tansBuild freq = some t

/-- The byte before position `i`; there is a zero before the first. -/
def prevByte (src : List UInt8) (i : ℕ) : UInt8 := if i = 0 then 0 else src.getD (i - 1) 0

/-- The encoder for position `i` of `src` has a valid table, in which the byte there occurs. -/
def Codable (sel : ℕ → UInt8 → Option Table) (src : List UInt8) (i : ℕ) : Prop :=
  ∃ t, sel i (prevByte src i) = some t ∧ 0 < t.freq (src.getD i 0).toNat

section Pctx

variable {sel : ℕ → UInt8 → Option Table} {selC : ℕ → UInt8 → Chk (Option Table)}

theorem BuiltOrInvalid.of_valid {t : Table} (h : BuiltOrInvalid t) (hv : t.valid = true) :
    ∃ freq, tansBuild freq = some t := by
  rcases h with h | h
  · rw [hv] at h
    cases h
  · exact h

/-- A checking encoder that succeeds had a table with the symbol at every position. -/
theorem encodeRun_selects : ∀ (src : List UInt8) (i : ℕ) (prev : UInt8) {X X' : ℕ} {w w' : Bsw},
    encodeRun true sel i prev src X w = .ok (X', w') → ∀ k < src.length,
    ∃ t, sel (i + k) (if k = 0 then prev else src.getD (k - 1) 0) = some t ∧ 0 < (t.encode (src.getD k 0).toNat).freq
  | [], _, _, _, _, _, _, _, k, hk => absurd hk (Nat.not_lt_zero k)
  | b :: src, i, prev, X, X', w, w', h, k, hk => by
    rw [encodeRun] at h
    rcases hrest : encodeRun true sel (i + 1) b src X w with w₁ | ⟨X₁, w₁⟩
    · simp [hrest] at h
    · simp only [hrest] at h
      rcases htbl : sel i prev with _ | t
      · simp [htbl] at h
      · simp only [htbl] at h
        rcases k with _ | k
        · exact ⟨t, htbl, encodeStep_freq h⟩
        · obtain ⟨t', ht', hf⟩ := encodeRun_selects src (i + 1) b hrest k (by simpa using hk)
          refine ⟨t', ?_, by simpa using hf⟩
          rw [if_neg (Nat.succ_ne_zero k), Nat.add_sub_cancel, show i + (k + 1) = i + 1 + k by omega, ← ht']
          congr 1
          rcases k with _ | k
          · rfl
          · simp

/-- A checking encoder through the stream, with whatever tables it selects. -/
theorem encodeRun_stream (hsame : ∀ i prev, selC i prev = .ok (sel i prev))
    (hsel : ∀ i prev t, sel i prev = some t → ∃ freq, tansBuild freq = some t) {src : List UInt8} {X cap : ℕ}
    {w w' : Bsw} (henc : encodeReturn (encodeRun true sel 0 0 src 4096 (bswInit cap)) = (X, w)) (h0 : X ≠ 0)
    (hflush : bswFlush w = .ok w') :
    stateOk tans12 X = true ∧ ∃ r next, bsrInit w'.out = .ok r ∧
      decodeRun tans12 selC src.length 0 0 X r = .ok (src, some next) := by
  rcases hrun : encodeRun true sel 0 0 src 4096 (bswInit cap) with w₀ | ⟨X', w₀⟩
  · rw [hrun, encodeReturn, Prod.mk.injEq] at henc
    exact absurd henc.1.symm h0
  · rw [hrun, encodeReturn, Prod.mk.injEq] at henc
    obtain ⟨rfl, rfl⟩ := henc
    rw [← size_tans12] at hrun
    have hsound : ∀ i prev t, sel i prev = some t → t.Sound tans12 := by
      intro i prev t ht
      obtain ⟨freq, hfreq⟩ := hsel i prev t ht
      exact tansBuildWith_sound hfreq
    obtain ⟨hin, -, T, V, hholds, hdec⟩ :=
      encodeRun_undone hsame hsound tans12.inRange_size (bswInit_holds cap) src 0 0 X' w₀ (by simp) hrun
    obtain ⟨r, hinit, hshows⟩ := bswFlush_opens hholds hflush
    obtain ⟨r', hd, -⟩ := hdec r hshows
    exact ⟨stateOk_of_inRange hin, r, _, hinit, hd⟩

/-- A checking encoder returns 0 if some position has no table with its symbol. -/
theorem encodeReturn_of_not_codable (hsel : ∀ i prev t, sel i prev = some t → ∃ freq, tansBuild freq = some t)
    {src : List UInt8} {X i : ℕ} {w : Bsw} (hi : i < src.length) (h : ¬Codable sel src i) :
    (encodeReturn (encodeRun true sel 0 0 src X w)).1 = 0 := by
  rcases hrun : encodeRun true sel 0 0 src X w with w₀ | ⟨X', w₀⟩
  · rfl
  · exfalso
    obtain ⟨t, ht, hf⟩ := encodeRun_selects src 0 0 hrun i hi
    rw [Nat.zero_add] at ht
    obtain ⟨freq, hfreq⟩ := hsel _ _ t ht
    refine h ⟨t, ht, ?_⟩
    rwa [tansBuildWith_encode_freq hfreq (UInt8.toNat_lt _), ← tansBuildWith_freq hfreq] at hf

theorem pctxSelect_built {tables : ℕ → Table} (h : ∀ b < 16, BuiltOrInvalid (tables b)) (i : ℕ) (prev : UInt8)
    (t : Table) (ht : pctxSelect tables i prev = some t) : ∃ freq, tansBuild freq = some t := by
  rw [pctxSelect, Table.ifValid] at ht
  split at ht
  · next hv =>
    rw [← Option.some.inj ht]
    exact (h _ (ctxBucket_lt i)).of_valid hv
  · cases ht

theorem bigramSelect_built {bigram : ℕ → ℕ → Table} {tables : ℕ → Table} {classMap : UInt8 → ℕ}
    (hb : ∀ b < 16, ∀ c < 8, BuiltOrInvalid (bigram b c)) (h : ∀ b < 16, BuiltOrInvalid (tables b))
    (hc : ∀ x, classMap x < 8) (i : ℕ) (prev : UInt8) (t : Table)
    (ht : bigramSelect bigram tables classMap i prev = some t) : ∃ freq, tansBuild freq = some t := by
  simp only [bigramSelect] at ht
  split at ht
  · next hv =>
    rw [← Option.some.inj ht]
    exact (hb _ (ctxBucket_lt i) _ (hc prev)).of_valid hv
  · exact pctxSelect_built h i prev t ht

end Pctx

/-- **The round trip of the coders with a table per position**, whichever tables are invalid: what the encoder
wrote the decoder reads back; and the encoder returns 0 if some position has no valid table or its
byte does not occur in it. -/
theorem tansPctx_roundtrip (tables : ℕ → Table) (bigram : ℕ → ℕ → Table) (classMap : UInt8 → ℕ)
    (ht : ∀ b < 16, BuiltOrInvalid (tables b)) (hb : ∀ b < 16, ∀ c < 8, BuiltOrInvalid (bigram b c))
    (hc : ∀ x, classMap x < 8) (src : List UInt8) (hne : src ≠ []) (cap : ℕ) :
    (∀ X w w', tansEncodePctx tables src (bswInit cap) 4096 = (X, w) → X ≠ 0 → bswFlush w = .ok w' →
      ∃ r next, bsrInit w'.out = .ok r ∧ tansDecodePctx tables r src.length X = .ok (src, some next)) ∧
    (∀ X w w', tansEncodePctxBigram bigram tables classMap src (bswInit cap) 4096 = (X, w) → X ≠ 0 →
      bswFlush w = .ok w' →
      ∃ r next, bsrInit w'.out = .ok r ∧
        tansDecodePctxBigram bigram tables classMap r src.length X = .ok (src, some next)) ∧
    (∀ w, (∃ i < src.length, ¬Codable (pctxSelect tables) src i) → (tansEncodePctx tables src w 4096).1 = 0) ∧
    (∀ w, (∃ i < src.length, ¬Codable (bigramSelect bigram tables classMap) src i) →
      (tansEncodePctxBigram bigram tables classMap src w 4096).1 = 0) := by
  have hempty : src.isEmpty = false := by simpa using hne
  have hlen0 : (src.length == 0) = false := by simpa using hne
  have hstart : startState tans12 4096 = 4096 := by
    have h := startState_size tans12
    rwa [size_tans12] at h
  have hsel := pctxSelect_built ht
  have hselb := bigramSelect_built hb ht hc
  simp only [tansEncodePctx, tansEncodePctxBigram, hempty, Bool.false_eq_true, if_false, hstart]
  refine ⟨fun X w w' henc h0 hflush => ?_, fun X w w' henc h0 hflush => ?_, ?_, ?_⟩
  · have hsame : ∀ i prev, pctxSelectChk tables i prev = .ok (pctxSelect tables i prev) := by
      intro i prev
      rw [pctxSelectChk, Chk.index_of_lt (ctxBucket_lt i), Exc.ok_bind, Exc.pure_eq]
    obtain ⟨hX, r, next, hinit, hd⟩ := encodeRun_stream hsame hsel henc h0 hflush
    refine ⟨r, next, hinit, ?_⟩
    rw [tansDecodePctx, hlen0, hX, if_neg (by simp), hd]
  · have hsame : ∀ i prev, bigramSelectChk bigram tables classMap i prev
        = .ok (bigramSelect bigram tables classMap i prev) := by
      intro i prev
      have hclass : classMap prev < bigramCtxCount := hc prev
      rw [bigramSelectChk, Chk.index_of_lt (ctxBucket_lt i), Exc.ok_bind, Chk.index_of_lt hclass, Exc.ok_bind,
        Exc.pure_eq]
    obtain ⟨hX, r, next, hinit, hd⟩ := encodeRun_stream hsame hselb henc h0 hflush
    refine ⟨r, next, hinit, ?_⟩
    rw [tansDecodePctxBigram, hlen0, hX, if_neg (by simp), hd]
  · rintro w ⟨i, hi, h⟩
    exact encodeReturn_of_not_codable hsel hi h
  · rintro w ⟨i, hi, h⟩
    exact encodeReturn_of_not_codable hselb hi h

/-- Two bytes with the flat table at every position and no bigram table, and one byte with no table at all. -/
theorem tansPctx_roundtrip_flat :
    (∃ t X w w' r next, tansBuild (fun _ => 16) = some t ∧
      tansEncodePctxBigram (fun _ _ => .zero) (fun _ => t) (fun _ => 0) [7, 9] (bswInit 8) 4096 = (X, w) ∧ X ≠ 0 ∧
      bswFlush w = .ok w' ∧ bsrInit w'.out = .ok r ∧
      tansDecodePctxBigram (fun _ _ => .zero) (fun _ => t) (fun _ => 0) r 2 X = .ok ([7, 9], some next)) ∧
    (tansEncodePctx (fun _ => .zero) [7] (bswInit 8) 4096).1 = 0 := by
  have hzero : BuiltOrInvalid .zero := .inl rfl
  obtain ⟨t, ht⟩ := @flat_builds tans12 16 (by rw [size_tans12])
  have hs := tansBuildWith_sound ht
  have hocc : ∀ b ∈ ([7, 9] : List UInt8), 0 < (t.encode b.toNat).freq := by
    intro b _
    rw [tansBuildWith_encode_freq ht (UInt8.toNat_lt b)]
    norm_num
  obtain ⟨X, w, w', henc, h0, hflush⟩ := @tansEncodeWith_ok tans12 true t hs [7, 9] (by simp) hocc 4096 8
    (by rw [← size_tans12]; exact tans12.inRange_size) (by decide)
  have hsel : bigramSelect (fun _ _ => .zero) (fun _ => t) (fun _ => 0) = fun _ _ => some t := by
    funext i prev
    simp [bigramSelect, Table.zero, Table.ifValid, hs.valid]
  have henc' : tansEncodePctxBigram (fun _ _ => .zero) (fun _ => t) (fun _ => 0) [7, 9] (bswInit 8) 4096 = (X, w) := by
    rw [← henc, tansEncodePctxBigram, tansEncodeWith, hsel, hs.valid]
    rfl
  have htab : BuiltOrInvalid t := .inr ⟨_, ht⟩
  obtain ⟨r, next, hinit, hd⟩ := (tansPctx_roundtrip (fun _ => t) (fun _ _ => .zero) (fun _ => 0) (fun _ _ => htab)
    (fun _ _ _ _ => hzero) (fun _ => by norm_num) [7, 9] (by simp) 8).2.1 X w w' henc' h0 hflush
  refine ⟨⟨t, X, w, w', r, next, ht, henc', h0, hflush, hinit, hd⟩, ?_⟩
  refine (tansPctx_roundtrip (fun _ => .zero) (fun _ _ => .zero) (fun _ => 0) (fun _ _ => hzero)
    (fun _ _ _ _ => hzero) (fun _ => by norm_num) [7] (by simp) 8).2.2.1 (bswInit 8) ⟨0, by simp, ?_⟩
  rintro ⟨u, hu, -⟩
  cases hu

/-! ### Two states -/

/-- Whatever room it has, if the encoder succeeds the decoder gives the packet back. -/
def X2RoundTrips (t : Table) (src : List UInt8) : Prop :=
  ∀ cap X0 X1 w w', tansEncodeX2 t src (bswInit cap) = .ok (X0, X1, w) → bswFlush w = .ok w' →
    ∃ r next, bsrInit w'.out = .ok r ∧ tansDecodeX2 t r src.length X0 X1 = .ok (src, some next)

/-- Bytes that come in pairs of equal ones. -/
def PairsEqual : List UInt8 → Prop
  | a :: b :: l => a = b ∧ PairsEqual l
  | _ => True

section Dual

variable {t : Table} {T V : ℕ} {w : Bsw}

/-- The state a step leads to depends on symbol and state only. -/
theorem encodeStep_state {check : Bool} {sym : UInt8} {X X' : ℕ} {w w' : Bsw}
    (h : encodeStep check t sym X w = .ok (X', w')) : X' = t.encodeState (t.place sym.toNat X) := by
  simp only [encodeStep] at h
  split at h
  · cases h
  · split at h
    · split at h
      · cases h
      · exact (Prod.mk.inj (Except.ok.inj h)).1.symm
    · exact (Prod.mk.inj (Except.ok.inj h)).1.symm

/-- The slot of that state has the symbol. -/
theorem encodeStep_symbol {P : TansParams} (ht : t.Sound P) {check : Bool} {sym : UInt8} {X X' : ℕ} {w w' : Bsw}
    (hf : 0 < (t.encode sym.toNat).freq) (hX : P.InRange X) (h : encodeStep check t sym X w = .ok (X', w')) :
    (t.decode (subU32 X' P.size)).symbol = sym := by
  obtain ⟨-, hr, hd⟩ := ht.code sym X hf hX
  rw [encodeStep_state h, hr.slot.1, hd]

/-- With room for the bits of all symbols, of which `cost` is a bound, the run with two states succeeds; the first state
then has the first symbol. -/
theorem encodeX2Run_cost (ht : t.Sound tans12) (hw : w.Holds T V) {cost : UInt8 → ℕ} :
    ∀ (src : List UInt8), (∀ b ∈ src, 0 < (t.encode b.toNat).freq) →
    (∀ b ∈ src, ∀ X, tans12.InRange X → t.nb b.toNat X ≤ cost b) → (T + (src.map cost).sum) / 8 + 1 ≤ w.cap →
    ∃ X0 X1 w' T' V', encodeX2Run t src w = .ok (X0, X1, w') ∧ tans12.InRange X0 ∧ tans12.InRange X1 ∧
      w'.cap = w.cap ∧ w'.Holds T' V' ∧ T' ≤ T + (src.map cost).sum ∧
      ∀ c ∈ src.head?, (t.decode (subU32 X0 tans12.size)).symbol = c
  | [], _, _, _ => ⟨_, _, w, T, V, rfl, tans12.inRange_size, tans12.inRange_size, rfl, hw, by simp, by simp⟩
  | [a], hf, hcost, hcap => by
    have hfa := hf a (by simp)
    have hin := tans12.inRange_size
    have hnb := hcost a (by simp) _ hin
    rw [List.map_singleton, List.sum_singleton] at hcap ⊢
    obtain ⟨X0, w₁, hstep⟩ := @encodeStep_ok false t T V w a hfa tans12.size hw (by omega)
    obtain ⟨hX0, hcap₁, T₁, V₁, hw₁, hT₁, -⟩ := encodeStep_decodeStep ht hfa hin hw hstep
    refine ⟨X0, tans12.size, w₁, T₁, V₁, by rw [encodeX2Run, hstep], hX0, hin, hcap₁, hw₁, by omega, ?_⟩
    rintro c ⟨⟩
    exact encodeStep_symbol ht hfa hin hstep
  | a :: b :: src, hf, hcost, hcap => by
    have hfa := hf a (by simp)
    have hfb := hf b (by simp)
    rw [List.map_cons, List.map_cons, List.sum_cons, List.sum_cons] at hcap ⊢
    obtain ⟨Y0, Y1, w₁, T₁, V₁, hrun, hY0, hY1, hcap₁, hw₁, hT₁, -⟩ :=
      encodeX2Run_cost ht hw src (fun c hc => hf c (by simp [hc])) (fun c hc => hcost c (by simp [hc])) (by omega)
    have hnb := hcost b (by simp) _ hY1
    obtain ⟨Z1, w₂, hstepb⟩ := @encodeStep_ok false t T₁ V₁ w₁ b hfb Y1 hw₁ (by omega)
    obtain ⟨hZ1, hcap₂, T₂, V₂, hw₂, hT₂, -⟩ := encodeStep_decodeStep ht hfb hY1 hw₁ hstepb
    have hna := hcost a (by simp) _ hY0
    obtain ⟨Z0, w₃, hstepa⟩ := @encodeStep_ok false t T₂ V₂ w₂ a hfa Y0 hw₂ (by omega)
    obtain ⟨hZ0, hcap₃, T₃, V₃, hw₃, hT₃, -⟩ := encodeStep_decodeStep ht hfa hY0 hw₂ hstepa
    refine ⟨Z0, Z1, w₃, T₃, V₃, ?_, hZ0, hZ1, by omega, hw₃, by omega, ?_⟩
    · simp only [encodeX2Run, hrun, hstepb, hstepa]
    · rintro c ⟨⟩
      exact encodeStep_symbol ht hfa hY0 hstepa

/-- Twelve bits are enough for any symbol. -/
theorem encodeX2Run_ok (ht : t.Sound tans12) (hw : w.Holds T V) (src : List UInt8)
    (hf : ∀ b ∈ src, 0 < (t.encode b.toNat).freq) (hcap : (T + tans12.tableLog * src.length) / 8 + 1 ≤ w.cap) :
    ∃ X0 X1 w' T' V', encodeX2Run t src w = .ok (X0, X1, w') ∧ tans12.InRange X0 ∧ tans12.InRange X1 ∧
      w'.cap = w.cap ∧ w'.Holds T' V' ∧ T' ≤ T + tans12.tableLog * src.length ∧
      ∀ c ∈ src.head?, (t.decode (subU32 X0 tans12.size)).symbol = c := by
  have hsum : (src.map fun _ => tans12.tableLog).sum = tans12.tableLog * src.length := by
    rw [List.map_const', List.sum_replicate, smul_eq_mul, Nat.mul_comm]
  have h := @encodeX2Run_cost t T V w ht hw (fun _ => tans12.tableLog) src hf (fun b _ X _ => ht.nb_le b.toNat X)
  rw [hsum] at h
  exact h hcap

/-- **The states in step.** Over a byte and pairs of equal bytes the second state is where the first one was before
that byte, and the decoder reads the pairs back from there with both states in one place. -/
theorem encodeX2Run_inStep (ht : t.Sound tans12) (hw : w.Holds T V) : ∀ (l : List UInt8) (c : UInt8) (Y0 Y1 : ℕ)
    (w₁ : Bsw), (∀ b ∈ c :: l, 0 < (t.encode b.toNat).freq) → PairsEqual l → l.length % 2 = 0 →
    encodeX2Run t (c :: l) w = .ok (Y0, Y1, w₁) →
    tans12.InRange Y1 ∧ ∃ w₀ T₀ V₀, w₀.Holds T₀ V₀ ∧ encodeStep false t c Y1 w₀ = .ok (Y0, w₁) ∧
      ∀ r : Bsr, r.Shows T₀ V₀ → ∃ next, decodeX2Run t (l.length / 2) Y1 Y1 r = .ok (l, some next)
  | [], c, Y0, Y1, w₁, _, _, _, h => by
    obtain ⟨rfl, hstep⟩ := encodeX2Run_single h
    exact ⟨tans12.inRange_size, w, T, V, hw, hstep, fun r _ => ⟨_, rfl⟩⟩
  | [x], _, _, _, _, _, _, hlen, _ => by simp at hlen
  | x :: y :: l, c, Y0, Y1, w₁, hf, hpairs, hlen, h => by
    obtain ⟨rfl, hpairs⟩ := hpairs
    have hfx := hf x (by simp)
    obtain ⟨Z0, Z1, w₂, w₃, hrest, hstep1, hstep0⟩ := encodeX2Run_pair h
    obtain ⟨hZ1, w₀, T₀, V₀, hw₀, hstepx, hdec⟩ := encodeX2Run_inStep ht hw l x Z0 Z1 w₂
      (fun b hb => hf b (by simp only [List.mem_cons] at hb ⊢; tauto)) hpairs
      (by simp only [List.length_cons] at hlen; omega) hrest
    -- both states took the same byte from the same state
    obtain rfl : Y1 = Z0 := by rw [encodeStep_state hstep1, encodeStep_state hstepx]
    obtain ⟨-, -, T₂, V₂, hw₂, -, hback0⟩ := encodeStep_decodeStep ht hfx hZ1 hw₀ hstepx
    obtain ⟨hin, -, T₃, V₃, hw₃, -, hback1⟩ := encodeStep_decodeStep ht hfx hZ1 hw₂ hstep1
    refine ⟨hin, w₃, T₃, V₃, hw₃, hstep0, fun r hr => ?_⟩
    obtain ⟨r₁, hd₁, hs₁, -⟩ := hback1 r hr
    obtain ⟨r₂, hd₂, hs₂, -⟩ := hback0 r₁ hs₁
    obtain ⟨next, hd₃⟩ := hdec r₂ hs₂
    refine ⟨next, ?_⟩
    rw [show (x :: x :: l).length / 2 = l.length / 2 + 1 by simp only [List.length_cons]; omega]
    exact decodeX2Run_pair hin hd₁ hd₂ hd₃

/-- The first byte of the pairs loop is the symbol of its first state. -/
theorem decodeX2Run_head {n X0 X1 : ℕ} {r : Bsr} {bs : List UInt8} {o : Option (ℕ × ℕ × Bsr)}
    (hX : tans12.InRange X0) (h : decodeX2Run t (n + 1) X0 X1 r = .ok (bs, o)) :
    bs.head? = some (t.decode (subU32 X0 tans12.size)).symbol := by
  rw [decodeX2Run] at h
  obtain ⟨⟨a, next0⟩, h0, h⟩ := Exc.bind_eq_ok h
  obtain ⟨_, -, h⟩ := Exc.bind_eq_ok h
  rw [← decodeStep_symbol hX h0]
  rcases next0 with _ | ⟨Y0, r₁⟩
  · obtain ⟨rfl, -⟩ := Prod.mk.inj (Except.ok.inj h)
    rfl
  · obtain ⟨⟨_, next1⟩, -, h⟩ := Exc.bind_eq_ok h
    rcases next1 with _ | ⟨Y1, r₂⟩
    · obtain ⟨rfl, -⟩ := Prod.mk.inj (Except.ok.inj h)
      rfl
    · obtain ⟨⟨bs', last⟩, -, h⟩ := Exc.bind_eq_ok h
      obtain ⟨rfl, -⟩ := Prod.mk.inj (Except.ok.inj h)
      rfl

theorem tansDecodeX2_even (hv : t.valid = true) {n X0 X1 : ℕ} (hn : 2 ≤ n) (heven : n % 2 = 0)
    (h0 : tans12.InRange X0) (h1 : tans12.InRange X1) (r : Bsr) :
    tansDecodeX2 t r n X0 X1 = decodeX2Run t (n / 2) X0 X1 r := by
  have hn' : decide (n < 2) = false := decide_eq_false (by omega)
  rw [tansDecodeX2, hv, hn', stateOk_of_inRange h0, stateOk_of_inRange h1, if_neg (by simp), if_neg (by omega)]

theorem tansDecodeX2_odd (hv : t.valid = true) {n X0 X1 Y0 : ℕ} (hn : 2 ≤ n) (hodd : n % 2 = 1)
    (h0 : tans12.InRange X0) (h1 : tans12.InRange X1) {r r₁ : Bsr} {a : UInt8}
    (hstep : decodeStep tans12 t X0 r = .ok (a, some (Y0, r₁))) :
    tansDecodeX2 t r n X0 X1 = (do
      let (bs, last) ← decodeX2Run t (n / 2) Y0 X1 r₁
      return (a :: bs, last)) := by
  have hn' : decide (n < 2) = false := decide_eq_false (by omega)
  rw [tansDecodeX2, hv, hn', stateOk_of_inRange h0, stateOk_of_inRange h1, if_neg (by simp), if_pos hodd, hstep,
    Exc.ok_bind]

theorem tansEncodeX2_eq (hv : t.valid = true) {src : List UInt8} (hlen : 2 ≤ src.length) (w : Bsw) :
    tansEncodeX2 t src w = encodeX2Run t src w := by
  have hlen' : decide (src.length < 2) = false := decide_eq_false (by omega)
  rw [tansEncodeX2, hv, hlen', if_neg (by simp)]

/-- Packets of even length come back. -/
theorem x2RoundTrips_even (ht : t.Sound tans12) {src : List UInt8} (hlen : 2 ≤ src.length)
    (hf : ∀ b ∈ src, 0 < (t.encode b.toNat).freq) (heven : src.length % 2 = 0) : X2RoundTrips t src := by
  intro cap X0 X1 w w' henc hflush
  rw [tansEncodeX2_eq ht.valid hlen] at henc
  obtain ⟨h0, h1, -, T, V, hholds, hdec⟩ := encodeX2Run_decode ht (bswInit_holds cap) src X0 X1 w hf heven henc
  obtain ⟨r, hinit, hshows⟩ := bswFlush_opens hholds hflush
  obtain ⟨r', hd, -⟩ := hdec r hshows
  exact ⟨r, _, hinit, by rw [tansDecodeX2_even ht.valid hlen heven h0 h1, hd]⟩

/-- So do those of odd length whose bytes after the first come in pairs. -/
theorem x2RoundTrips_pairs (ht : t.Sound tans12) {a : UInt8} {l : List UInt8} (hlen : 2 ≤ (a :: l).length)
    (hf : ∀ b ∈ a :: l, 0 < (t.encode b.toNat).freq) (hodd : l.length % 2 = 0) (hpairs : PairsEqual l) :
    X2RoundTrips t (a :: l) := by
  intro cap X0 X1 w w' henc hflush
  rw [tansEncodeX2_eq ht.valid hlen] at henc
  obtain ⟨h1, w₀, T₀, V₀, hw₀, hstep, hdec⟩ :=
    encodeX2Run_inStep ht (bswInit_holds cap) l a X0 X1 w hf hpairs hodd henc
  obtain ⟨h0, -, T, V, hw, -, hback⟩ := encodeStep_decodeStep ht (hf a (by simp)) h1 hw₀ hstep
  obtain ⟨r, hinit, hshows⟩ := bswFlush_opens hw hflush
  obtain ⟨r₁, hd₁, hs₁, -⟩ := hback r hshows
  obtain ⟨next, hd₂⟩ := hdec r₁ hs₁
  refine ⟨r, next, hinit, ?_⟩
  rw [tansDecodeX2_odd ht.valid hlen (by simp only [List.length_cons]; omega) h0 h1 hd₁,
    show (a :: l).length / 2 = l.length / 2 by simp only [List.length_cons]; omega, hd₂]
  rfl

/-- A run with two states that succeeds leaves states whose first has the first symbol. -/
theorem encodeX2Run_symbol (ht : t.Sound tans12) (hw : w.Holds T V) : ∀ (src : List UInt8) (X0 X1 : ℕ) (w' : Bsw),
    (∀ b ∈ src, 0 < (t.encode b.toNat).freq) → encodeX2Run t src w = .ok (X0, X1, w') →
    tans12.InRange X0 ∧ tans12.InRange X1 ∧ (∃ T' V', w'.Holds T' V') ∧
      ∀ c ∈ src.head?, (t.decode (subU32 X0 tans12.size)).symbol = c
  | [], X0, X1, w', _, h => by
    simp only [encodeX2Run, Except.ok.injEq, Prod.mk.injEq] at h
    obtain ⟨rfl, rfl, rfl⟩ := h
    exact ⟨tans12.inRange_size, tans12.inRange_size, ⟨T, V, hw⟩, by simp⟩
  | [a], X0, X1, w', hf, h => by
    have hfa := hf a (by simp)
    have hin := tans12.inRange_size
    obtain ⟨rfl, hstep⟩ := encodeX2Run_single h
    obtain ⟨hX0, -, T₁, V₁, hw₁, -⟩ := encodeStep_decodeStep ht hfa hin hw hstep
    refine ⟨hX0, hin, ⟨T₁, V₁, hw₁⟩, ?_⟩
    rintro c ⟨⟩
    exact encodeStep_symbol ht hfa hin hstep
  | a :: b :: src, X0, X1, w', hf, h => by
    have hfa := hf a (by simp)
    obtain ⟨Y0, Y1, w₁, w₂, hrest, hstepb, hstepa⟩ := encodeX2Run_pair h
    obtain ⟨hY0, hY1, ⟨T₁, V₁, hw₁⟩, -⟩ :=
      encodeX2Run_symbol ht hw src Y0 Y1 w₁ (fun c hc => hf c (by simp [hc])) hrest
    obtain ⟨hX1, -, T₂, V₂, hw₂, -⟩ := encodeStep_decodeStep ht (hf b (by simp)) hY1 hw₁ hstepb
    obtain ⟨hX0, -, T₃, V₃, hw₃, -⟩ := encodeStep_decodeStep ht hfa hY0 hw₂ hstepa
    refine ⟨hX0, hX1, ⟨T₃, V₃, hw₃⟩, ?_⟩
    rintro c ⟨⟩
    exact encodeStep_symbol ht hfa hY0 hstepa

/-- **The states change places.** Of a packet of odd length the decoder gives the first byte, then the third one. -/
theorem tansDecodeX2_swapped (ht : t.Sound tans12) {a b c : UInt8} {l : List UInt8}
    (hf : ∀ x ∈ a :: b :: c :: l, 0 < (t.encode x.toNat).freq) (hodd : l.length % 2 = 0) {cap X0 X1 : ℕ} {w w' : Bsw}
    (henc : tansEncodeX2 t (a :: b :: c :: l) (bswInit cap) = .ok (X0, X1, w)) (hflush : bswFlush w = .ok w') {r : Bsr}
    (hinit : bsrInit w'.out = .ok r) {bs : List UInt8} {o : Option (ℕ × ℕ × Bsr)}
    (hdec : tansDecodeX2 t r (a :: b :: c :: l).length X0 X1 = .ok (bs, o)) : ∃ rest, bs = a :: c :: rest := by
  have hlen : 2 ≤ (a :: b :: c :: l).length := by simp
  rw [tansEncodeX2_eq ht.valid hlen] at henc
  obtain ⟨Y0, Y1, w₁, w₂, hrest, hstepb, hstepa⟩ := encodeX2Run_pair henc
  obtain ⟨hY0, hY1, ⟨T₁, V₁, hw₁⟩, hsym⟩ := encodeX2Run_symbol ht (bswInit_holds cap) (c :: l) Y0 Y1 w₁
    (fun x hx => hf x (by simp only [List.mem_cons] at hx ⊢; tauto)) hrest
  obtain ⟨hX1, -, T₂, V₂, hw₂, -⟩ := encodeStep_decodeStep ht (hf b (by simp)) hY1 hw₁ hstepb
  obtain ⟨hX0, -, T₃, V₃, hw₃, -, hback⟩ := encodeStep_decodeStep ht (hf a (by simp)) hY0 hw₂ hstepa
  obtain ⟨r', hinit', hshows⟩ := bswFlush_opens hw₃ hflush
  obtain rfl : r = r' := by rwa [hinit, Except.ok.injEq] at hinit'
  obtain ⟨r₁, hd₁, -⟩ := hback r hshows
  rw [tansDecodeX2_odd ht.valid hlen (by simp only [List.length_cons]; omega) hX0 hX1 hd₁,
    show (a :: b :: c :: l).length / 2 = l.length / 2 + 1 by simp only [List.length_cons]; omega] at hdec
  obtain ⟨⟨bs', last⟩, hpairs, hdec⟩ := Exc.bind_eq_ok hdec
  have hhead := decodeX2Run_head hY0 hpairs
  rw [hsym c (by simp)] at hhead
  obtain ⟨rest, rfl⟩ : ∃ rest, bs' = c :: rest := by
    rcases bs' with _ | ⟨x, rest⟩
    · simp at hhead
    · exact ⟨rest, by rw [Option.some.inj hhead]⟩
  exact ⟨rest, (Prod.mk.inj (Except.ok.inj hdec)).1.symm⟩

/-- Those of odd length with different bytes behind the first do not: the decoder gives the second of them first. -/
theorem not_x2RoundTrips (ht : t.Sound tans12) {a b c : UInt8} {l : List UInt8}
    (hf : ∀ x ∈ a :: b :: c :: l, 0 < (t.encode x.toNat).freq) (hodd : l.length % 2 = 0) (hbc : b ≠ c) :
    ¬X2RoundTrips t (a :: b :: c :: l) := by
  intro h
  -- room for everything
  obtain ⟨cap, hcap⟩ : ∃ cap, cap = 12 * (a :: b :: c :: l).length + 1 := ⟨_, rfl⟩
  have hlog : tans12.tableLog = 12 := rfl
  obtain ⟨X0, X1, w, T, V, hrun, -, -, hcap', hw, hT, -⟩ :=
    encodeX2Run_ok ht (bswInit_holds cap) (a :: b :: c :: l) hf (by rw [hlog]; simp only [bswInit]; omega)
  have hcap' : w.cap = cap := hcap'
  rw [hlog] at hT
  obtain ⟨w', hflush⟩ := bswFlush_ok hw (by omega)
  have henc : tansEncodeX2 t (a :: b :: c :: l) (bswInit cap) = .ok (X0, X1, w) := by
    rw [tansEncodeX2_eq ht.valid (by simp), hrun]
  obtain ⟨r, next, hinit, hdec⟩ := h cap X0 X1 w w' henc hflush
  obtain ⟨rest, hrest⟩ := tansDecodeX2_swapped ht hf hodd henc hflush hinit hdec
  exact hbc (List.cons.inj (List.cons.inj hrest).2).1

end Dual

/-- **The round trip of the coders with two states.** What `netc_tans_encode_x2` wrote, `netc_tans_decode_x2` reads
back if the packet has an even number of bytes, or if its bytes after the first come in
pairs of equal ones; of odd length, with different bytes at 1 and 2, it comes back as another packet. -/
theorem tansX2_roundtrip (freq : Freq) (t : Table) (ht : tansBuild freq = some t) (src : List UInt8)
    (hlen : 2 ≤ src.length) (hf : ∀ b ∈ src, 0 < freq b.toNat) :
    (src.length % 2 = 0 ∨ PairsEqual src.tail → X2RoundTrips t src) ∧
    (src.length % 2 = 1 ∧ src.getD 1 0 ≠ src.getD 2 0 → ¬X2RoundTrips t src) := by
  have hs := tansBuildWith_sound ht
  have hocc : ∀ b ∈ src, 0 < (t.encode b.toNat).freq := by
    intro b hb
    rw [tansBuildWith_encode_freq ht (UInt8.toNat_lt b)]
    exact hf b hb
  constructor
  · intro h
    by_cases heven : src.length % 2 = 0
    · exact x2RoundTrips_even hs hlen hocc heven
    · have hpairs := h.resolve_left heven
      rcases src with _ | ⟨a, l⟩
      · simp at hlen
      · exact x2RoundTrips_pairs hs hlen hocc (by simp only [List.length_cons] at heven; omega) hpairs
  · rintro ⟨hodd, hne⟩
    rcases src with _ | ⟨a, _ | ⟨b, _ | ⟨c, l⟩⟩⟩
    · simp at hlen
    · simp at hlen
    · simp at hodd
    · exact not_x2RoundTrips hs hocc (by simp only [List.length_cons] at hodd; omega) (by simpa using hne)

/-- Two bytes come back. -/
theorem tansX2_roundtrip_flat : ∃ t, tansBuild (fun _ => 16) = some t ∧ X2RoundTrips t [7, 9] := by
  obtain ⟨t, ht⟩ := @flat_builds tans12 16 (by rw [size_tans12])
  exact ⟨t, ht, (tansX2_roundtrip _ t ht [7, 9] (by simp) (by simp)).1 (.inl rfl)⟩

/-- Three different bytes do not. -/
theorem tansX2_odd_fails : ∃ t, tansBuild (fun _ => 16) = some t ∧ ¬X2RoundTrips t [1, 2, 3] := by
  obtain ⟨t, ht⟩ := @flat_builds tans12 16 (by rw [size_tans12])
  refine ⟨t, ht, not_x2RoundTrips (tansBuildWith_sound ht) (fun b _ => ?_) rfl (by decide)⟩
  rw [tansBuildWith_encode_freq ht (UInt8.toNat_lt b)]
  norm_num

end Netc
