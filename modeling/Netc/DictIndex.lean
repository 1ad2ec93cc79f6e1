/-
# Class indices of loaded dictionaries

The four places that look a bigram table up take the class of the byte before
from the class map of the dictionary and index `bigram_tables[bucket]` with it.
In a blob of version 5 the class map is 256 arbitrary bytes, and
`netc_dict_load` copies them unchecked: the lookups stay in the array exactly
when those bytes are classes (`dictLoad_indexes_iff`).

Key definitions: `tansEncodePctxBigramChk`, `IndexSafe`, `ClassMapValid`.
Key theorems: `dictLoad_indexes_iff`.
-/
import Netc.DictBlob
import Netc.DecodeSafe
import Netc.TansCompress

namespace Netc

/-! ### The encoders with their lookups checked -/

/-- The loop of `netc_tans_encode_pctx_bigram` with a checked lookup at each position. -/
def encodeRunSel (sel : ℕ → UInt8 → Chk (Option Table)) :
    ℕ → UInt8 → List UInt8 → ℕ → Bsw → Chk (Except Bsw (ℕ × Bsw))
  | _, _, [], X, w => .ok (.ok (X, w))
  | i, prev, b :: src, X, w => do
    match ← encodeRunSel sel (i + 1) b src X w with
    | .error w => return .error w
    | .ok (X, w) =>
      match ← sel i prev with
      | none => return .error w
      | some tbl => return encodeStep true tbl b X w

/-- `netc_tans_encode_pctx_bigram` -/
def tansEncodePctxBigramChk (bigram : ℕ → ℕ → Table) (tables : ℕ → Table) (classMap : UInt8 → ℕ)
    (src : List UInt8) (w : Bsw) (X : ℕ) : Chk (ℕ × Bsw) :=
  if src.isEmpty then .ok (0, w)
  else do
    let r ← encodeRunSel (bigramSelectChk bigram tables classMap) 0 0 src (startState tans12 X) w
    return encodeReturn r

/-- `select_tans_table` -/
def selectTansTableChk (d : Dict) (tables : ℕ → Table) (bucket : ℕ) (prev : UInt8) (ctxFlags : UInt32) :
    Chk Table := do
  Chk.index bucket ctxCount
  if CfgFlag.has ctxFlags CfgFlag.bigram then
    Chk.index (d.bigramClass prev) bigramCtxCount
    return selectTansTable d tables bucket prev ctxFlags
  else return selectTansTable d tables bucket prev ctxFlags

/-! ### Safe lookups -/

/-- Tables that are invalid or were built. -/
def Usable (tables : ℕ → Table) : Prop := ∀ k < ctxCount, (tables k).valid = true → (tables k).Sound tans12

/-- No lookup of a bigram table leaves the array, whatever is encoded or decoded. -/
structure IndexSafe (d : Dict) : Prop where
  encode : ∀ tables src w X, tansEncodePctxBigramChk d.bigramTables tables d.bigramClass src w X
    = .ok (tansEncodePctxBigram d.bigramTables tables d.bigramClass src w X)
  select : ∀ tables, ∀ bucket < ctxCount, ∀ prev ctxFlags, selectTansTableChk d tables bucket prev ctxFlags
    = .ok (selectTansTable d tables bucket prev ctxFlags)
  decode : ∀ tables, Usable tables → ∀ bytes n X, ∃ r out, bsrInit bytes = .ok r ∧
    tansDecodePctxBigram d.bigramTables tables d.bigramClass r n X = .ok out
  decodeSelect : ∀ tables, ∀ bucket < ctxCount, ∀ prev flags,
    ∃ t, decompSelectTbl d tables bucket prev flags = .ok t

section Safe

variable {d : Dict} {tables : ℕ → Table}

theorem bigramSelectChk_of_class_lt (hc : ∀ prev, d.bigramClass prev < bigramCtxCount) (i : ℕ) (prev : UInt8) :
    bigramSelectChk d.bigramTables tables d.bigramClass i prev
      = .ok (bigramSelect d.bigramTables tables d.bigramClass i prev) := by
  rw [bigramSelectChk, Chk.index_of_lt (ctxBucket_lt i), Exc.ok_bind, Chk.index_of_lt (hc prev), Exc.ok_bind,
    Exc.pure_eq]

/-- With safe lookups the checked loop is the loop. -/
theorem encodeRunSel_ok {selC : ℕ → UInt8 → Chk (Option Table)} {sel : ℕ → UInt8 → Option Table}
    (h : ∀ i prev, selC i prev = .ok (sel i prev)) : ∀ (src : List UInt8) (i : ℕ) (prev : UInt8) (X : ℕ) (w : Bsw),
    encodeRunSel selC i prev src X w = .ok (encodeRun true sel i prev src X w)
  | [], _, _, _, _ => rfl
  | b :: src, i, prev, X, w => by
    rw [encodeRunSel, encodeRun, encodeRunSel_ok h src, Exc.ok_bind]
    rcases encodeRun true sel (i + 1) b src X w with w' | ⟨X', w'⟩
    · rfl
    · simp only [h, Exc.ok_bind]
      rcases sel i prev with _ | tbl
      · rfl
      · rfl

/-- A bigram table of a dictionary that was stored is built or invalid. -/
theorem Dict.Stored.bigram_sound (hd : d.Stored) {k c : ℕ} (hk : k < Netc.ctxCount)
    (hv : (d.bigramTables k c).valid = true) : (d.bigramTables k c).Sound tans12 := by
  by_cases hc : c < nClasses d.version
  · obtain ⟨f, hf⟩ := hd.bigram k hk c hc
    exact tansBuildWith_sound hf
  · rw [hd.unused k hk c (Nat.le_of_not_lt hc)] at hv
    cases hv

/-- The tables the bigram decoder selects are sound. -/
theorem bigramSelect_sound (hd : d.Stored) (ht : Usable tables) (i : ℕ) (prev : UInt8) {t : Table}
    (h : bigramSelect d.bigramTables tables d.bigramClass i prev = some t) : t.Sound tans12 := by
  have hb := ctxBucket_lt i
  simp only [bigramSelect] at h
  split at h
  · next hv =>
    obtain rfl := Option.some.inj h
    exact hd.bigram_sound hb hv
  · unfold Table.ifValid at h
    split at h
    · next hv =>
      obtain rfl := Option.some.inj h
      exact ht _ hb hv
    · cases h

/-- A class map into the eight classes is all the lookups need. -/
theorem indexSafe_of_class_lt (hd : d.Stored) (hc : ∀ prev, d.bigramClass prev < bigramCtxCount) : IndexSafe d := by
  refine ⟨?_, ?_, ?_, ?_⟩
  · intro tables src w X
    rw [tansEncodePctxBigramChk, tansEncodePctxBigram]
    split
    · rfl
    · rw [encodeRunSel_ok (bigramSelectChk_of_class_lt hc), Exc.ok_bind, Exc.pure_eq]
  · intro tables bucket hb prev ctxFlags
    rw [selectTansTableChk, Chk.index_of_lt hb, Exc.ok_bind]
    split
    · rw [Chk.index_of_lt (hc prev), Exc.ok_bind, Exc.pure_eq]
    · rfl
  · intro tables ht bytes n X
    obtain ⟨r, hr, hwf⟩ := bsrInit_wf bytes
    unfold tansDecodePctxBigram
    by_cases hX : (n == 0 || !stateOk tans12 X) = true
    · exact ⟨r, _, hr, if_pos hX⟩
    · simp only [Bool.or_eq_true, Bool.not_eq_true', not_or, Bool.not_eq_false] at hX
      obtain ⟨bs, o, hrun, -, -⟩ := @decodeRun_safe tans12 _
        (fun i prev => ⟨_, bigramSelectChk_of_class_lt hc i prev, fun _ => bigramSelect_sound hd ht i prev⟩)
        n 0 0 X r (stateOk_inRange hX.2) hwf
      refine ⟨r, (bs, o), hr, ?_⟩
      rw [if_neg (by simpa using hX)]
      exact hrun
  · intro tables bucket hb prev flags
    rw [decompSelectTbl, Chk.index_of_lt hb, Exc.ok_bind]
    split
    · rw [Chk.index_of_lt (hc prev), Exc.ok_bind]
      exact ⟨_, rfl⟩
    · exact ⟨_, rfl⟩

/-- The encoder looks up the class of every byte that another one follows. -/
theorem IndexSafe.class_lt (h : IndexSafe d) (prev : UInt8) : d.bigramClass prev < bigramCtxCount := by
  by_contra hge
  have henc := h.encode (fun _ => .zero) [prev, 0] (bswInit 0) 0
  have hsel : bigramSelectChk d.bigramTables (fun _ => .zero) d.bigramClass 1 prev = .error .index := by
    rw [bigramSelectChk, Chk.index_of_lt (ctxBucket_lt 1), Exc.ok_bind, Chk.index, if_neg hge, Exc.error_bind]
  simp only [tansEncodePctxBigramChk, List.isEmpty_cons, Bool.false_eq_true, if_false, encodeRunSel, Nat.zero_add,
    Exc.ok_bind, hsel, Exc.error_bind] at henc
  cases henc

end Safe

/-! ### Loaded dictionaries -/

/-- The class map of a blob, if its version has one, holds classes. -/
def ClassMapValid (b : List UInt8) : Prop := 5 ≤ byteAt b 4 → ∀ p < 256, (byteAt b (8 + p)).toNat < 8

theorem class_lt_iff (b : List UInt8) :
    (∀ prev, (loadedDict b).bigramClass prev < bigramCtxCount) ↔ ClassMapValid b := by
  simp only [Dict.bigramClass, loadedDict, classMapAt, ClassMapValid, bigramCtxCount, dictHeaderSize]
  constructor
  · intro h h5 p hp
    have := h (UInt8.ofNat p)
    rw [if_pos h5, UInt8.toNat_ofNat', Nat.mod_eq_of_lt hp] at this
    exact this
  · intro h prev
    by_cases h5 : 5 ≤ byteAt b 4
    · rw [if_pos h5]
      exact h h5 prev.toNat prev.toNat_lt
    · rw [if_neg h5, UInt8.toNat_shiftRight]
      have hlt : prev.toNat < 256 := prev.toNat_lt
      have h6 : (6 : UInt8).toNat % 8 = 6 := by decide
      rw [h6, Nat.shiftRight_eq_div_pow]
      omega

/-- **The bigram lookups of a loaded dictionary are safe** exactly when the class map of its blob is valid. -/
theorem dictLoad_indexes_iff (b : List UInt8) (d : Dict) (h : dictLoad b = .ok d) : IndexSafe d ↔ ClassMapValid b := by
  obtain ⟨hacc, rfl⟩ := dictLoad_eq_ok.mp h
  rw [← class_lt_iff]
  constructor
  · intro hs
    exact hs.class_lt
  · intro hc
    exact indexSafe_of_class_lt hacc.stored hc

/-- The blob of version 5 that has the class map `classMap`. -/
def classMapBlob (classMap : UInt8 → UInt8) : List UInt8 := flatBlob 5 0 classMap []

theorem classMapBlob_loads (classMap : UInt8 → UInt8) :
    dictLoad (classMapBlob classMap) = .ok (loadedDict (classMapBlob classMap)) :=
  dictLoad_eq_ok.mpr ⟨flatBlob_acceptable (by decide) (fun h => absurd (by decide) h) rfl
    (fun h => absurd h (by decide)), rfl⟩

theorem classMapBlob_class (classMap : UInt8 → UInt8) (prev : UInt8) :
    (loadedDict (classMapBlob classMap)).bigramClassMap prev = classMap prev := by
  have hs := @flatBlob_stands 5 0 classMap []
  have hp := hs.classMap (UInt8.le_refl 5) prev.toNat prev.toNat_lt
  rw [UInt8.ofNat_toNat] at hp
  simp only [loadedDict, classMapAt, classMapBlob, hs.bytes.1, flatDict_version, dictHeaderSize]
  exact byteAt_of_getElem? hp

theorem dictLoad_indexes_zero : ∃ b d, dictLoad b = .ok d ∧ ClassMapValid b ∧ IndexSafe d := by
  have hload := classMapBlob_loads fun _ => 0
  have hvalid : ClassMapValid (classMapBlob fun _ => 0) := by
    rw [← class_lt_iff]
    intro prev
    rw [Dict.bigramClass, classMapBlob_class]
    decide
  exact ⟨_, _, hload, hvalid, (dictLoad_indexes_iff _ _ hload).mpr hvalid⟩

/-- A tANS packet of one byte with the bigram flag and no bits. -/
def bigramPacket : List UInt8 := [1, 0, 0, 0, 0x0A, 0x01, 1, 0]

/-- With a class outside the array at byte 0, decoding the packet is an access outside it. -/
theorem decompressStateless_outside {d : Dict} (hm : d.modelId = 1) (hc : ¬d.bigramClass 0 < bigramCtxCount)
    (dst : Out) (dstSize : ℕ) : decompressStateless d bigramPacket dst 1 dstSize = .error .index := by
  have hv : validateHeader bigramPacket 1 false = .ok (.ok (⟨1, 0, 0x0A, 0x01, 1, 0⟩, 8)) := by decide
  have hsub : Chk.sub bigramPacket 8 0 = .ok [] := by decide
  have hsel : decompSelectTbl d d.tables 0 0 0x0A = .error .index := by
    rw [decompSelectTbl, Chk.index_of_lt (by decide), Exc.ok_bind, if_pos (by decide), Chk.index, if_neg hc,
      Exc.error_bind]
  have hdec : statelessPayload d ⟨1, 0, 0x0A, 0x01, 1, 0⟩ [] dst = .error .index := by
    have htans : decodeTans d d.tables ⟨1, 0, 0x0A, 0x01, 1, 0⟩ [] dst false = .error .index := by
      rw [decodeTans, if_neg (by decide), decodeSingle, show packetBucket 0x01 = 0 by decide, hsel, Exc.error_bind,
        Out.commit, Exc.error_bind]
    rw [statelessPayload, if_neg (by decide), if_pos (by decide), htans]
  simp only [decompressStateless, hv, Exc.ok_bind, statelessBody, hm, hsub, hdec, Exc.error_bind]
  rw [if_neg (by decide), if_neg (by decide)]

/-- Class 8 everywhere: the blob is accepted, and decoding a packet with it is an access outside the array. -/
theorem dictLoad_outside : ∃ d, dictLoad (classMapBlob fun _ => 8) = .ok d ∧ ¬IndexSafe d ∧
    ∀ dst dstSize, decompressStateless d bigramPacket dst 1 dstSize = .error .index := by
  have hclass : ¬(loadedDict (classMapBlob fun _ => 8)).bigramClass 0 < bigramCtxCount := by
    rw [Dict.bigramClass, classMapBlob_class]
    decide
  refine ⟨_, classMapBlob_loads _, fun h => hclass (h.class_lt 0), fun dst dstSize => ?_⟩
  have hm : (loadedDict (classMapBlob fun _ => 8)).modelId = 1 := by
    have hs := @flatBlob_stands 5 0 (fun _ => 8) []
    simp only [loadedDict, classMapBlob, hs.bytes.2.1]
    rfl
  exact decompressStateless_outside hm hclass dst dstSize

end Netc
