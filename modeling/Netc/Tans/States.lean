/-
# The states of a decoder

A decoder checks the state it is given once, at its entry, and then goes from state to state by
`next_state_base` and the bits it reads. Every state on the way is one of its table,
whatever the stream holds and wherever it ends (`decoder_states`): a slot of a built table leads
into the range for every value of its bits, and switching tables does not matter, since all of
them have the same range.

The lists of states follow the loops of `Codec.lean`; `getLast?_decodeStates` and
`suffix_decodeX2States` tie them to the state these end in.

Key definitions: `decodeStates`, `decodeX2States`.
Key theorems: `decodeStates_inRange`, `decodeX2States_inRange`, `decoder_states`.
-/
import Netc.Tans.Codec

namespace Netc

/-! ### One state -/

/-- Where a step leads: the byte it writes, the next state and the reader. -/
def stepNext : Chk (UInt8 × Option (ℕ × Bsr)) → Option (UInt8 × ℕ × Bsr)
  | .ok (b, some next) => some (b, next)
  | .ok (_, none) => none
  | .error _ => none

/-- Where a round of `decodeRun` leads. -/
def roundNext (P : TansParams) (X : ℕ) (r : Bsr) : Chk (Option Table) → Option (UInt8 × ℕ × Bsr)
  | .ok (some tbl) => stepNext (decodeStep P tbl X r)
  | .ok none => none
  | .error _ => none

/-- The states of the loop `decodeRun`: the one before each byte, and the one it ends with. -/
def decodeStates (P : TansParams) (sel : ℕ → UInt8 → Chk (Option Table)) : ℕ → ℕ → UInt8 → ℕ → Bsr → List ℕ
  | 0, _, _, X, _ => [X]
  | n + 1, i, prev, X, r =>
    match roundNext P X r (sel i prev) with
    | none => [X]
    | some (b, X', r') => X :: decodeStates P sel n (i + 1) b X' r'

/-- The states of `netc_tans_decode` and `netc_tans_decode_10`. -/
def tansDecodeStates (P : TansParams) (tbl : Table) (r : Bsr) (dstSize X : ℕ) : List ℕ :=
  if !tbl.valid || dstSize == 0 || !stateOk P X then [] else decodeStates P (fun _ _ => .ok (some tbl)) dstSize 0 0 X r

/-- The states of `netc_tans_decode_pctx`. -/
def tansDecodePctxStates (tables : ℕ → Table) (r : Bsr) (dstSize X : ℕ) : List ℕ :=
  if dstSize == 0 || !stateOk tans12 X then [] else decodeStates tans12 (pctxSelectChk tables) dstSize 0 0 X r

/-- The states of `netc_tans_decode_pctx_bigram`. -/
def tansDecodePctxBigramStates (bigram : ℕ → ℕ → Table) (tables : ℕ → Table) (classMap : UInt8 → ℕ) (r : Bsr)
    (dstSize X : ℕ) : List ℕ :=
  if dstSize == 0 || !stateOk tans12 X then []
  else decodeStates tans12 (bigramSelectChk bigram tables classMap) dstSize 0 0 X r

section One

variable {P : TansParams} {sel : ℕ → UInt8 → Chk (Option Table)}

/-- A run that succeeds ends in the last of its states. -/
theorem getLast?_decodeStates : ∀ {n i : ℕ} {prev : UInt8} {X Y : ℕ} {r r' : Bsr} {bs : List UInt8},
    decodeRun P sel n i prev X r = .ok (bs, some (Y, r')) → (decodeStates P sel n i prev X r).getLast? = some Y
  | 0, i, prev, X, Y, r, r', bs, h => by
    simp only [decodeRun, Except.ok.injEq, Prod.mk.injEq, Option.some.injEq] at h
    obtain ⟨-, rfl, -⟩ := h
    rfl
  | n + 1, i, prev, X, Y, r, r', bs, h => by
    rw [decodeRun] at h
    obtain ⟨o, hsel, h⟩ := Exc.bind_eq_ok h
    rcases o with _ | tbl
    · simp only [Exc.pure_eq, Except.ok.injEq, Prod.mk.injEq, reduceCtorEq, and_false] at h
    · obtain ⟨⟨b, next⟩, hstep, h⟩ := Exc.bind_eq_ok h
      rcases next with _ | ⟨X', r''⟩
      · simp only [Exc.pure_eq, Except.ok.injEq, Prod.mk.injEq, reduceCtorEq, and_false] at h
      · obtain ⟨⟨bs', last⟩, hrun, h⟩ := Exc.bind_eq_ok h
        simp only [Exc.pure_eq, Except.ok.injEq, Prod.mk.injEq] at h
        obtain ⟨-, rfl⟩ := h
        have hnext : roundNext P X r (sel i prev) = some (b, X', r'') := by rw [hsel, roundNext, hstep, stepNext]
        rw [decodeStates, hnext, List.getLast?_cons, getLast?_decodeStates hrun]
        rfl

/-- A step of a sound table from a state leads to a state. -/
theorem stepNext_inRange {t : Table} {X : ℕ} {r : Bsr} (ht : t.Sound P) (hX : P.InRange X) (hr : r.Wf) {b : UInt8}
    {X' : ℕ} {r' : Bsr} (h : stepNext (decodeStep P t X r) = some (b, X', r')) : P.InRange X' ∧ r'.Wf := by
  obtain ⟨c, o, hstep, hnext⟩ := decodeStep_safe ht hX hr
  rw [hstep] at h
  rcases o with _ | ⟨Y, q⟩
  · cases h
  · obtain ⟨-, h⟩ := Prod.mk.inj (Option.some.inj h)
    obtain ⟨rfl, rfl⟩ := Prod.mk.inj h
    exact hnext Y q rfl

/-- **From a state the loop only goes to states**, if every table it selects is sound. -/
theorem decodeStates_inRange (hsel : ∀ i prev t, sel i prev = .ok (some t) → t.Sound P) (n i : ℕ) (prev : UInt8)
    {X : ℕ} {r : Bsr} (hX : P.InRange X) (hr : r.Wf) : ∀ Y ∈ decodeStates P sel n i prev X r, P.InRange Y := by
  induction n generalizing i prev X r with
  | zero =>
    intro Y hY
    rw [List.mem_singleton.mp hY]
    exact hX
  | succ n ih =>
    intro Y hY
    rw [decodeStates] at hY
    rcases hnext : roundNext P X r (sel i prev) with _ | ⟨b, X', r'⟩
    · rw [hnext] at hY
      rw [List.mem_singleton.mp hY]
      exact hX
    · rw [hnext] at hY
      rcases List.mem_cons.mp hY with rfl | hY
      · exact hX
      · have hstep : P.InRange X' ∧ r'.Wf := by
          rcases hs : sel i prev with e | _ | tbl
          · rw [hs] at hnext
            cases hnext
          · rw [hs] at hnext
            cases hnext
          · rw [hs] at hnext
            exact stepNext_inRange (hsel i prev tbl hs) hX hr hnext
        exact ih (i + 1) b hstep.1 hstep.2 Y hY

end One

/-! ### Two states -/

/-- Where a state of `netc_tans_decode_x2` goes when its bits are read. -/
def x2Next (tbl : Table) (X : ℕ) (r : Bsr) : Option (ℕ × Bsr) := (stepNext (decodeStep tans12 tbl X r)).map Prod.snd

/-- The states of a loop over pairs, each of which goes where `next` says, one after the other. -/
def pairStates (next : ℕ → Bsr → Option (ℕ × Bsr)) : ℕ → ℕ → ℕ → Bsr → List ℕ
  | 0, X0, X1, _ => [X0, X1]
  | n + 1, X0, X1, r =>
    match next X0 r with
    | none => [X0, X1]
    | some (X0', r') =>
      match next X1 r' with
      | none => [X0, X1, X0']
      | some (X1', r'') => X0 :: X1 :: pairStates next n X0' X1' r''

section Pairs

variable {next : ℕ → Bsr → Option (ℕ × Bsr)}

theorem pairStates_succ {n X0 X1 X0' X1' : ℕ} {r r' r'' : Bsr} (h0 : next X0 r = some (X0', r'))
    (h1 : next X1 r' = some (X1', r'')) :
    pairStates next (n + 1) X0 X1 r = X0 :: X1 :: pairStates next n X0' X1' r'' := by
  simp only [pairStates, h0, h1]

/-- What holds of two states and is kept by each step holds of all of them. -/
theorem pairStates_all {I : ℕ → Prop} {W : Bsr → Prop}
    (hnext : ∀ X r X' r', I X → W r → next X r = some (X', r') → I X' ∧ W r') (n : ℕ) {X0 X1 : ℕ} {r : Bsr}
    (h0 : I X0) (h1 : I X1) (hr : W r) : ∀ Y ∈ pairStates next n X0 X1 r, I Y := by
  induction n generalizing X0 X1 r with
  | zero => simp [pairStates, h0, h1]
  | succ n ih =>
    rcases hnext0 : next X0 r with _ | ⟨X0', r'⟩
    · simp [pairStates, hnext0, h0, h1]
    · obtain ⟨h0', hr'⟩ := hnext X0 r X0' r' h0 hr hnext0
      rcases hnext1 : next X1 r' with _ | ⟨X1', r''⟩
      · simp [pairStates, hnext0, hnext1, h0, h1, h0']
      · obtain ⟨h1', hr''⟩ := hnext X1 r' X1' r'' h1 hr' hnext1
        rw [pairStates_succ hnext0 hnext1]
        intro Y hY
        rcases List.mem_cons.mp hY with rfl | hY
        · exact h0
        rcases List.mem_cons.mp hY with rfl | hY
        · exact h1
        exact ih h0' h1' hr'' Y hY

end Pairs

/-- The states of the pairs loop `decodeX2Run`. -/
def decodeX2States (tbl : Table) : ℕ → ℕ → ℕ → Bsr → List ℕ := pairStates (x2Next tbl)

/-- The states of `netc_tans_decode_x2`. -/
def tansDecodeX2States (tbl : Table) (r : Bsr) (dstSize X0 X1 : ℕ) : List ℕ :=
  if !tbl.valid || decide (dstSize < 2) || !stateOk tans12 X0 || !stateOk tans12 X1 then []
  else if dstSize % 2 = 1 then
    match x2Next tbl X0 r with
    | none => [X0, X1]
    | some (X0', r') => X0 :: decodeX2States tbl (dstSize / 2) X0' X1 r'
  else decodeX2States tbl (dstSize / 2) X0 X1 r

section Two

variable {t : Table}

theorem x2Next_of_step {X : ℕ} {r : Bsr} {b : UInt8} {next : ℕ × Bsr}
    (h : decodeStep tans12 t X r = .ok (b, some next)) : x2Next t X r = some next := by
  rw [x2Next, h, stepNext, Option.map_some]

/-- A run that succeeds ends in the last two of its states. -/
theorem suffix_decodeX2States {n X0 X1 Y0 Y1 : ℕ} {r r' : Bsr} {bs : List UInt8}
    (h : decodeX2Run t n X0 X1 r = .ok (bs, some (Y0, Y1, r'))) : [Y0, Y1] <:+ decodeX2States t n X0 X1 r := by
  rw [decodeX2States]
  induction n generalizing X0 X1 r bs with
  | zero =>
    simp only [decodeX2Run, Except.ok.injEq, Prod.mk.injEq, Option.some.injEq] at h
    obtain ⟨-, rfl, rfl, -⟩ := h
    exact List.suffix_refl _
  | succ n ih =>
    rw [decodeX2Run] at h
    obtain ⟨⟨a, next0⟩, hstep0, h⟩ := Exc.bind_eq_ok h
    obtain ⟨-, -, h⟩ := Exc.bind_eq_ok h
    rcases next0 with _ | ⟨X0', r1⟩
    · simp only [Exc.pure_eq, Except.ok.injEq, Prod.mk.injEq, reduceCtorEq, and_false] at h
    · obtain ⟨⟨b, next1⟩, hstep1, h⟩ := Exc.bind_eq_ok h
      rcases next1 with _ | ⟨X1', r2⟩
      · simp only [Exc.pure_eq, Except.ok.injEq, Prod.mk.injEq, reduceCtorEq, and_false] at h
      · obtain ⟨⟨bs', last⟩, hrun, h⟩ := Exc.bind_eq_ok h
        simp only [Exc.pure_eq, Except.ok.injEq, Prod.mk.injEq] at h
        obtain ⟨-, rfl⟩ := h
        rw [pairStates_succ (x2Next_of_step hstep0) (x2Next_of_step hstep1)]
        exact (ih hrun).trans ((List.suffix_cons X1 _).trans (List.suffix_cons X0 _))

theorem x2Next_inRange (ht : t.Sound tans12) {X X' : ℕ} {r r' : Bsr} (hX : tans12.InRange X) (hr : r.Wf)
    (h : x2Next t X r = some (X', r')) : tans12.InRange X' ∧ r'.Wf := by
  rw [x2Next] at h
  obtain ⟨⟨b, next⟩, hnext, rfl⟩ := Option.map_eq_some_iff.mp h
  exact stepNext_inRange ht hX hr hnext

/-- **From two states the pairs loop only goes to states.** -/
theorem decodeX2States_inRange (ht : t.Sound tans12) (n : ℕ) {X0 X1 : ℕ} {r : Bsr} (h0 : tans12.InRange X0)
    (h1 : tans12.InRange X1) (hr : r.Wf) : ∀ Y ∈ decodeX2States t n X0 X1 r, tans12.InRange Y :=
  pairStates_all (fun _ _ _ _ hX hr h => x2Next_inRange ht hX hr h) n h0 h1 hr

end Two

/-! ### The decoders -/

section Decoders

variable {P : TansParams} {r : Bsr}

theorem tansDecodeStates_inRange {t : Table} (ht : t.Sound P) (hr : r.Wf) (dstSize X : ℕ) :
    ∀ Y ∈ tansDecodeStates P t r dstSize X, P.InRange Y := by
  unfold tansDecodeStates
  split
  · simp
  · next h =>
    simp only [Bool.or_eq_true, Bool.not_eq_true', not_or, Bool.not_eq_false] at h
    refine decodeStates_inRange ?_ dstSize 0 0 (stateOk_inRange h.2) hr
    intro i prev t' ht'
    rw [← Option.some.inj (Except.ok.inj ht')]
    exact ht

theorem tansDecodeX2States_inRange {t : Table} (ht : t.Sound tans12) (hr : r.Wf) (dstSize X0 X1 : ℕ) :
    ∀ Y ∈ tansDecodeX2States t r dstSize X0 X1, tans12.InRange Y := by
  unfold tansDecodeX2States
  split
  · simp
  · next h =>
    simp only [Bool.or_eq_true, Bool.not_eq_true', not_or, Bool.not_eq_false] at h
    have h0 := stateOk_inRange h.1.2
    have h1 := stateOk_inRange h.2
    split
    · rcases hnext : x2Next t X0 r with _ | ⟨X0', r'⟩
      · simp [h0, h1]
      · obtain ⟨h0', hr'⟩ := x2Next_inRange ht h0 hr hnext
        intro Y hY
        rcases List.mem_cons.mp hY with rfl | hY
        · exact h0
        · exact decodeX2States_inRange ht _ h0' h1 hr' Y hY
    · exact decodeX2States_inRange ht _ h0 h1 hr

/-- Whatever table of an array is used, it was built. -/
theorem sound_of_ifValid {t t' : Table} (h : t.valid = true → ∃ freq, tansBuild freq = some t)
    (hsel : t.ifValid = some t') : t'.Sound tans12 := by
  rw [Table.ifValid] at hsel
  split at hsel
  · next hv =>
    obtain ⟨freq, hbuild⟩ := h hv
    rw [← Option.some.inj hsel]
    exact tansBuildWith_sound hbuild
  · cases hsel

theorem tansDecodePctxStates_inRange {tables : ℕ → Table}
    (h : ∀ b < ctxCount, (tables b).valid = true → ∃ freq, tansBuild freq = some (tables b)) (hr : r.Wf)
    (dstSize X : ℕ) : ∀ Y ∈ tansDecodePctxStates tables r dstSize X, tans12.InRange Y := by
  unfold tansDecodePctxStates
  split
  · simp
  · next hX =>
    simp only [Bool.or_eq_true, Bool.not_eq_true', not_or, Bool.not_eq_false] at hX
    refine decodeStates_inRange ?_ dstSize 0 0 (stateOk_inRange hX.2) hr
    intro i prev t ht
    rw [pctxSelectChk, Chk.index_of_lt (ctxBucket_lt i), Exc.ok_bind] at ht
    exact sound_of_ifValid (h _ (ctxBucket_lt i)) (Except.ok.inj ht)

theorem tansDecodePctxBigramStates_inRange {bigram : ℕ → ℕ → Table} {tables : ℕ → Table}
    (hb : ∀ b < ctxCount, ∀ c < bigramCtxCount, (bigram b c).valid = true → ∃ freq, tansBuild freq = some (bigram b c))
    (h : ∀ b < ctxCount, (tables b).valid = true → ∃ freq, tansBuild freq = some (tables b)) (hr : r.Wf)
    (classMap : UInt8 → ℕ) (dstSize X : ℕ) :
    ∀ Y ∈ tansDecodePctxBigramStates bigram tables classMap r dstSize X, tans12.InRange Y := by
  unfold tansDecodePctxBigramStates
  split
  · simp
  · next hX =>
    simp only [Bool.or_eq_true, Bool.not_eq_true', not_or, Bool.not_eq_false] at hX
    refine decodeStates_inRange ?_ dstSize 0 0 (stateOk_inRange hX.2) hr
    intro i prev t ht
    rw [bigramSelectChk, Chk.index_of_lt (ctxBucket_lt i), Exc.ok_bind] at ht
    -- a class outside the array ends the run
    obtain ⟨u, hclass, ht⟩ := Exc.bind_eq_ok ht
    have hc : classMap prev < bigramCtxCount := by
      by_contra hge
      simp only [Chk.index, if_neg hge, reduceCtorEq] at hclass
    have ht := Except.ok.inj ht
    simp only [bigramSelect] at ht
    split at ht
    · next hv =>
      obtain ⟨freq, hbuild⟩ := hb _ (ctxBucket_lt i) _ hc hv
      rw [← Option.some.inj ht]
      exact tansBuildWith_sound hbuild
    · exact sound_of_ifValid (h _ (ctxBucket_lt i)) ht

end Decoders

/-- A state of a table of `size` slots, and the slot it stands for. -/
def SlotState (size X : ℕ) : Prop := size ≤ X ∧ X < 2 * size ∧ subU32 X size < size

theorem TansParams.InRange.slotState {P : TansParams} {X : ℕ} (h : P.InRange X) : SlotState P.size X := by
  obtain ⟨hslot, hlt⟩ := h.slot
  exact ⟨h.1, h.2, hslot.symm ▸ hlt⟩

/-- **No decoder leaves the range of its states**, on any buffer, from any initial state, for any number of bytes. An
array may have tables that were not built as long as they are not marked valid. -/
theorem decoder_states (buf : List UInt8) (dstSize : ℕ) : ∃ r, bsrInit buf = .ok r ∧
    (∀ freq t, tansBuild freq = some t →
      (∀ X, ∀ Y ∈ tansDecodeStates tans12 t r dstSize X, SlotState 4096 Y) ∧
      (∀ X0 X1, ∀ Y ∈ tansDecodeX2States t r dstSize X0 X1, SlotState 4096 Y)) ∧
    (∀ tables : ℕ → Table, (∀ b < ctxCount, (tables b).valid = true → ∃ freq, tansBuild freq = some (tables b)) →
      (∀ X, ∀ Y ∈ tansDecodePctxStates tables r dstSize X, SlotState 4096 Y) ∧
      ∀ bigram : ℕ → ℕ → Table, (∀ b < ctxCount, ∀ c < bigramCtxCount,
          (bigram b c).valid = true → ∃ freq, tansBuild freq = some (bigram b c)) →
        ∀ classMap X, ∀ Y ∈ tansDecodePctxBigramStates bigram tables classMap r dstSize X, SlotState 4096 Y) ∧
    (∀ freq t, tansBuild10 freq = some t → ∀ X, ∀ Y ∈ tansDecodeStates tans10 t r dstSize X, SlotState 1024 Y) := by
  obtain ⟨r, hinit, hr⟩ := bsrInit_wf buf
  refine ⟨r, hinit, fun freq t ht => ?_, fun tables htables => ?_, fun freq t ht X Y hY => ?_⟩
  · have hs := tansBuildWith_sound ht
    rw [← size_tans12]
    exact ⟨fun X Y hY => (tansDecodeStates_inRange hs hr dstSize X Y hY).slotState,
      fun X0 X1 Y hY => (tansDecodeX2States_inRange hs hr dstSize X0 X1 Y hY).slotState⟩
  · rw [← size_tans12]
    refine ⟨fun X Y hY => (tansDecodePctxStates_inRange htables hr dstSize X Y hY).slotState, ?_⟩
    intro bigram hbigram classMap X Y hY
    exact (tansDecodePctxBigramStates_inRange hbigram htables hr classMap dstSize X Y hY).slotState
  · rw [← size_tans10]
    exact (tansDecodeStates_inRange (tansBuildWith_sound ht) hr dstSize X Y hY).slotState

end Netc
