/-
# tANS coding

The encoders and decoders of `netc_tans.c`. An encoder goes over the packet
from its last byte to its first, which is structural recursion on the packet:
code the rest, then the head. The decoder goes forward. The members of the
family differ in the table they take at a position (one table, the table of
the position's bucket, the table of bucket and previous byte) and in whether
they check for a symbol that does not occur; `encodeRun` and `decodeRun` have
these as parameters.

The stream is a stack: what `encodeRun` pushed, `decodeRun` pops, and leaves
the reader and the state where the encoder started (`encodeRun_undone`).

Key definitions: `encodeStep`, `encodeRun`, `decodeStep`, `decodeRun`,
`tansEncode`, `tansDecode`, `tansEncodeX2`, `tansDecodeX2`.
Key theorems: `encodeRun_undone`, `encodeX2Run_decode`, `decodeRun_safe`.
-/
import Netc.Tans.Table
import Netc.Bitstream

namespace Netc

/-! ### Encoders -/

/-- One step of an encoder, with the check for an absent symbol or without. -/
def encodeStep (check : Bool) (tbl : Table) (sym : UInt8) (X : ℕ) (w : Bsw) : Except Bsw (ℕ × Bsw) :=
  let e := tbl.encode sym.toNat
  if check && e.freq == 0 then .error w
  else
    let nb := tbl.nb sym.toNat X
    let next := tbl.encodeState (tbl.place sym.toNat X)
    if 0 < nb then
      match bswWrite w (X &&& (1 <<< nb - 1)) nb with
      | .error w => .error w
      | .ok w => .ok (next, w)
    else .ok (next, w)

/-- The loop of an encoder over `src`, whose first byte is at offset `i` and
follows byte `prev`; `sel` gives the table for a position, or none where the
code finds no valid one. -/
def encodeRun (check : Bool) (sel : ℕ → UInt8 → Option Table) :
    ℕ → UInt8 → List UInt8 → ℕ → Bsw → Except Bsw (ℕ × Bsw)
  | _, _, [], X, w => .ok (X, w)
  | i, prev, b :: src, X, w =>
    match encodeRun check sel (i + 1) b src X w with
    | .error w => .error w
    | .ok (X, w) =>
      match sel i prev with
      | none => .error w
      | some tbl => encodeStep check tbl b X w

/-- The state an encoder returns, 0 on failure, and the writer it leaves. -/
def encodeReturn : Except Bsw (ℕ × Bsw) → ℕ × Bsw
  | .error w => (0, w)
  | .ok p => p

/-- The start state of an encoder. -/
def startState (P : TansParams) (X : ℕ) : ℕ := if X < P.size then P.size else X

theorem startState_size (P : TansParams) : startState P P.size = P.size := if_neg (Nat.lt_irrefl _)

/-- An encoder with one table: `netc_tans_encode` and `netc_tans_encode_10`. -/
def tansEncodeWith (P : TansParams) (check : Bool) (tbl : Table) (src : List UInt8) (w : Bsw) (X : ℕ) :
    ℕ × Bsw :=
  if !tbl.valid || src.isEmpty then (0, w)
  else encodeReturn (encodeRun check (fun _ _ => some tbl) 0 0 src (startState P X) w)

/-- `netc_tans_encode` -/
def tansEncode (tbl : Table) (src : List UInt8) (w : Bsw) (X : ℕ) : ℕ × Bsw :=
  tansEncodeWith tans12 false tbl src w X

/-- `netc_tans_encode_10` -/
def tansEncode10 (tbl : Table) (src : List UInt8) (w : Bsw) (X : ℕ) : ℕ × Bsw :=
  tansEncodeWith tans10 true tbl src w X

/-- A table if it is valid. -/
def Table.ifValid (t : Table) : Option Table := if t.valid then some t else none

/-- The table of a position: the one of its bucket. -/
def pctxSelect (tables : ℕ → Table) (i : ℕ) (_prev : UInt8) : Option Table := (tables (ctxBucket i)).ifValid

/-- `netc_tans_encode_pctx` -/
def tansEncodePctx (tables : ℕ → Table) (src : List UInt8) (w : Bsw) (X : ℕ) : ℕ × Bsw :=
  if src.isEmpty then (0, w)
  else encodeReturn (encodeRun true (pctxSelect tables) 0 0 src (startState tans12 X) w)

/-- The table of a position: the one of its bucket and the class of the
previous byte, or else the one of its bucket. -/
def bigramSelect (bigram : ℕ → ℕ → Table) (tables : ℕ → Table) (classMap : UInt8 → ℕ) (i : ℕ)
    (prev : UInt8) : Option Table :=
  let tbl := bigram (ctxBucket i) (classMap prev)
  if tbl.valid then some tbl else (tables (ctxBucket i)).ifValid

/-- `netc_tans_encode_pctx_bigram` -/
def tansEncodePctxBigram (bigram : ℕ → ℕ → Table) (tables : ℕ → Table) (classMap : UInt8 → ℕ)
    (src : List UInt8) (w : Bsw) (X : ℕ) : ℕ × Bsw :=
  if src.isEmpty then (0, w)
  else encodeReturn (encodeRun true (bigramSelect bigram tables classMap) 0 0 src (startState tans12 X) w)

/-- The loop of `netc_tans_encode_x2`: pairs from the right, after the last
byte if their number leaves one over. -/
def encodeX2Run (tbl : Table) : List UInt8 → Bsw → Except Bsw (ℕ × ℕ × Bsw)
  | [], w => .ok (tans12.size, tans12.size, w)
  | [a], w =>
    match encodeStep false tbl a tans12.size w with
    | .error w => .error w
    | .ok (X0, w) => .ok (X0, tans12.size, w)
  | a :: b :: src, w =>
    match encodeX2Run tbl src w with
    | .error w => .error w
    | .ok (X0, X1, w) =>
      match encodeStep false tbl b X1 w with
      | .error w => .error w
      | .ok (X1, w) =>
        match encodeStep false tbl a X0 w with
        | .error w => .error w
        | .ok (X0, w) => .ok (X0, X1, w)

/-- `netc_tans_encode_x2`: the two states and the writer; an error is the `-1`. -/
def tansEncodeX2 (tbl : Table) (src : List UInt8) (w : Bsw) : Except Bsw (ℕ × ℕ × Bsw) :=
  if !tbl.valid || src.length < 2 then .error w else encodeX2Run tbl src w

/-! ### Decoders -/

/-- One step of a decoder: the byte it writes and, unless the bits run out,
the next state and the reader. -/
def decodeStep (P : TansParams) (tbl : Table) (X : ℕ) (r : Bsr) : Chk (UInt8 × Option (ℕ × Bsr)) := do
  let slot := subU32 X P.size
  Chk.index slot P.size
  let d := tbl.decode slot
  if 0 < d.nbBits then
    let (bits, r) ← bsrRead r d.nbBits
    match bits with
    | none => return (d.symbol, none)
    | some bits => return (d.symbol, some (d.nextStateBase + bits, r))
  else return (d.symbol, some (d.nextStateBase, r))

/-- The loop of a decoder: `n` bytes from offset `i` on, after byte `prev`.
It returns the bytes written and, unless it failed, the last state. -/
def decodeRun (P : TansParams) (sel : ℕ → UInt8 → Chk (Option Table)) :
    ℕ → ℕ → UInt8 → ℕ → Bsr → Chk (List UInt8 × Option (ℕ × Bsr))
  | 0, _, _, X, r => .ok ([], some (X, r))
  | n + 1, i, prev, X, r => do
    match ← sel i prev with
    | none => return ([], none)
    | some tbl =>
      let (b, next) ← decodeStep P tbl X r
      match next with
      | none => return ([b], none)
      | some (X, r) =>
        let (bs, last) ← decodeRun P sel n (i + 1) b X r
        return (b :: bs, last)

/-- The check of an initial state. -/
def stateOk (P : TansParams) (X : ℕ) : Bool := decide (P.size ≤ X) && decide (X < 2 * P.size)

/-- A decoder with one table: `netc_tans_decode` and `netc_tans_decode_10`. -/
def tansDecodeWith (P : TansParams) (tbl : Table) (r : Bsr) (dstSize X : ℕ) :
    Chk (List UInt8 × Option (ℕ × Bsr)) :=
  if !tbl.valid || dstSize == 0 || !stateOk P X then .ok ([], none)
  else decodeRun P (fun _ _ => .ok (some tbl)) dstSize 0 0 X r

/-- `netc_tans_decode` -/
def tansDecode (tbl : Table) (r : Bsr) (dstSize X : ℕ) : Chk (List UInt8 × Option (ℕ × Bsr)) :=
  tansDecodeWith tans12 tbl r dstSize X

/-- `netc_tans_decode_10` -/
def tansDecode10 (tbl : Table) (r : Bsr) (dstSize X : ℕ) : Chk (List UInt8 × Option (ℕ × Bsr)) :=
  tansDecodeWith tans10 tbl r dstSize X

/-- `tables[bucket]`, checked. -/
def pctxSelectChk (tables : ℕ → Table) (i : ℕ) (prev : UInt8) : Chk (Option Table) := do
  Chk.index (ctxBucket i) ctxCount
  return pctxSelect tables i prev

/-- `netc_tans_decode_pctx` -/
def tansDecodePctx (tables : ℕ → Table) (r : Bsr) (dstSize X : ℕ) : Chk (List UInt8 × Option (ℕ × Bsr)) :=
  if dstSize == 0 || !stateOk tans12 X then .ok ([], none)
  else decodeRun tans12 (pctxSelectChk tables) dstSize 0 0 X r

/-- `bigram_tables[bucket][bclass]`, checked, or else `tables[bucket]`. -/
def bigramSelectChk (bigram : ℕ → ℕ → Table) (tables : ℕ → Table) (classMap : UInt8 → ℕ) (i : ℕ)
    (prev : UInt8) : Chk (Option Table) := do
  Chk.index (ctxBucket i) ctxCount
  Chk.index (classMap prev) bigramCtxCount
  return bigramSelect bigram tables classMap i prev

/-- `netc_tans_decode_pctx_bigram` -/
def tansDecodePctxBigram (bigram : ℕ → ℕ → Table) (tables : ℕ → Table) (classMap : UInt8 → ℕ) (r : Bsr)
    (dstSize X : ℕ) : Chk (List UInt8 × Option (ℕ × Bsr)) :=
  if dstSize == 0 || !stateOk tans12 X then .ok ([], none)
  else decodeRun tans12 (bigramSelectChk bigram tables classMap) dstSize 0 0 X r

/-- The pairs loop of `netc_tans_decode_x2`, `n` pairs. Both bytes of a pair
are written before its bits are read. -/
def decodeX2Run (tbl : Table) : ℕ → ℕ → ℕ → Bsr → Chk (List UInt8 × Option (ℕ × ℕ × Bsr))
  | 0, X0, X1, r => .ok ([], some (X0, X1, r))
  | n + 1, X0, X1, r => do
    let (a, next0) ← decodeStep tans12 tbl X0 r
    Chk.index (subU32 X1 tans12.size) tans12.size
    let b := (tbl.decode (subU32 X1 tans12.size)).symbol
    match next0 with
    | none => return ([a, b], none)
    | some (X0, r) =>
      let (_, next1) ← decodeStep tans12 tbl X1 r
      match next1 with
      | none => return ([a, b], none)
      | some (X1, r) =>
        let (bs, last) ← decodeX2Run tbl n X0 X1 r
        return (a :: b :: bs, last)

/-- `netc_tans_decode_x2` -/
def tansDecodeX2 (tbl : Table) (r : Bsr) (dstSize X0 X1 : ℕ) :
    Chk (List UInt8 × Option (ℕ × ℕ × Bsr)) :=
  if !tbl.valid || decide (dstSize < 2) || !stateOk tans12 X0 || !stateOk tans12 X1 then .ok ([], none)
  else if dstSize % 2 = 1 then do
    let (a, next) ← decodeStep tans12 tbl X0 r
    match next with
    | none => return ([a], none)
    | some (X0, r) =>
      let (bs, last) ← decodeX2Run tbl (dstSize / 2) X0 X1 r
      return (a :: bs, last)
  else decodeX2Run tbl (dstSize / 2) X0 X1 r

/-! ### States on the wire -/

/-- The size of a state: two bytes in compact mode, four else. -/
def stateSz (compact : Bool) : ℕ := if compact then 2 else 4

/-- A state as it is written. -/
def writeState (compact : Bool) (X : ℕ) : List UInt8 := if compact then writeU16Le X else writeU32Le X

/-- A state as it is read. -/
def readState (compact : Bool) (payload : List UInt8) (i : ℕ) : Chk ℕ :=
  if compact then readU16Le payload i else readU32Le payload i

@[simp] theorem length_writeState (compact : Bool) (X : ℕ) : (writeState compact X).length = stateSz compact := by
  cases compact <;> simp [writeState, stateSz]

/-- A state that fits reads back. -/
theorem readState_writeState (compact : Bool) (a b : List UInt8) {X : ℕ} (h : X < 2 ^ 16) :
    readState compact (a ++ (writeState compact X ++ b)) a.length = .ok X := by
  cases compact with
  | true => exact readU16Le_write a b h
  | false => exact readU32Le_write a b (by omega)

theorem readState_ok (compact : Bool) {payload : List UInt8} {i : ℕ} (h : i + stateSz compact ≤ payload.length) :
    ∃ X, readState compact payload i = .ok X ∧ X < 2 ^ 32 := by
  cases compact with
  | true =>
    obtain ⟨v, hv, hlt⟩ := readU16Le_lt (l := payload) (i := i) h
    exact ⟨v, hv, by omega⟩
  | false => exact readU32Le_lt h

theorem stateOk_of_inRange {P : TansParams} {X : ℕ} (h : P.InRange X) : stateOk P X = true := by
  simpa [stateOk, TansParams.InRange] using h

theorem stateOk_inRange {P : TansParams} {X : ℕ} (h : stateOk P X = true) : P.InRange X := by
  simpa [stateOk, TansParams.InRange] using h

/-! ### One step undoes the other -/

section Step

variable {P : TansParams} {t : Table} {sym : UInt8} {X X' T V : ℕ} {w w' : Bsw} {check : Bool}

theorem TansParams.InRange.slot {P : TansParams} {Y : ℕ} (h : P.InRange Y) :
    subU32 Y P.size = Y - P.size ∧ Y - P.size < P.size := by
  obtain ⟨h0, h1⟩ := h
  have := P.size_le
  exact ⟨subU32_of_le h0 (by omega), by omega⟩

theorem land_low (X nb : ℕ) : X &&& (1 <<< nb - 1) = X % 2 ^ nb := by
  rw [Nat.one_shiftLeft, Nat.and_two_pow_sub_one_eq_mod]

/-- A step that succeeds had a symbol that occurs, if it checks for that. -/
theorem encodeStep_freq (h : encodeStep true t sym X w = .ok (X', w')) : 0 < (t.encode sym.toNat).freq := by
  by_contra h0
  have h0 : (t.encode sym.toNat).freq = 0 := by omega
  simp [encodeStep, h0] at h

/-- **One step.** A coding step leads from a state to a state and puts its
bits on top; a decoding step from there gives the symbol and the state back
and takes the bits off. -/
theorem encodeStep_decodeStep (ht : t.Sound P) (hf : 0 < (t.encode sym.toNat).freq) (hX : P.InRange X)
    (hw : w.Holds T V) (h : encodeStep check t sym X w = .ok (X', w')) :
    P.InRange X' ∧ w'.cap = w.cap ∧ ∃ T' V', w'.Holds T' V' ∧ T' = T + t.nb sym.toNat X ∧
      ∀ r : Bsr, r.Shows T' V' →
        ∃ r', decodeStep P t X' r = .ok (sym, some (X, r')) ∧ r'.Shows T V ∧ r'.buf = r.buf := by
  obtain ⟨-, hr, hd⟩ := ht.code sym X hf hX
  have hnb := (ht.nb_le sym.toNat X).trans P.log_le
  have hsize := P.size_le
  have hlt : X % 2 ^ t.nb sym.toNat X < 2 ^ t.nb sym.toNat X := Nat.mod_lt _ (by positivity)
  have hback : (X >>> t.nb sym.toNat X) <<< t.nb sym.toNat X + X % 2 ^ t.nb sym.toNat X = X := by
    rw [Nat.shiftRight_eq_div_pow, Nat.shiftLeft_eq, Nat.mul_comm]
    exact Nat.div_add_mod ..
  have hf0 : ((t.encode sym.toNat).freq == 0) = false := by simpa using hf.ne'
  simp only [encodeStep, hf0, Bool.and_false, Bool.false_eq_true, if_false] at h
  obtain ⟨hslot, hslt⟩ := hr.slot
  by_cases h0 : 0 < t.nb sym.toNat X
  · rw [if_pos h0] at h
    cases hwr : bswWrite w (X &&& (1 <<< t.nb sym.toNat X - 1)) (t.nb sym.toNat X) with
    | error e => simp [hwr] at h
    | ok w1 =>
      simp only [hwr, Except.ok.injEq, Prod.mk.injEq] at h
      obtain ⟨rfl, rfl⟩ := h
      rw [land_low] at hwr
      obtain ⟨hh, hcap⟩ := bswWrite_holds hw hlt (by omega) hwr
      refine ⟨hr, hcap, _, _, hh, rfl, fun r hs => ?_⟩
      obtain ⟨r', h1, h2, h3⟩ := bsrRead_shows hs h0 (by omega) (by omega)
      have hV := hw.lt
      rw [Nat.add_sub_cancel, Nat.add_mul_div_right _ _ (by positivity), Nat.div_eq_of_lt hV,
        Nat.zero_add] at h1
      rw [Nat.add_sub_cancel, Nat.add_mul_mod_self_right, Nat.mod_eq_of_lt hV] at h2
      refine ⟨r', ?_, h2, h3⟩
      rw [decodeStep]
      simp only [hslot, hd, Chk.index_of_lt hslt, Exc.ok_bind, if_pos h0, h1, Exc.pure_eq, hback]
  · rw [if_neg h0] at h
    simp only [Except.ok.injEq, Prod.mk.injEq] at h
    obtain ⟨rfl, rfl⟩ := h
    have hz : t.nb sym.toNat X = 0 := by omega
    refine ⟨hr, rfl, T, V, hw, by omega, fun r hs => ⟨r, ?_, hs, rfl⟩⟩
    rw [hz] at hback
    simp only [pow_zero, Nat.mod_one, Nat.add_zero] at hback
    rw [decodeStep]
    simp only [hslot, hd, Chk.index_of_lt hslt, Exc.ok_bind, if_neg h0, Exc.pure_eq]
    rw [hz, hback]

/-- Whatever bits are read, a decoding step from a state leads to a state. -/
theorem decodeStep_safe (ht : t.Sound P) (hX : P.InRange X) {r : Bsr} (hr : r.Wf) :
    ∃ b o, decodeStep P t X r = .ok (b, o) ∧ ∀ X' r', o = some (X', r') → P.InRange X' ∧ r'.Wf := by
  obtain ⟨hslot, hslt⟩ := hX.slot
  obtain ⟨h1, h2, h3⟩ := ht.slot (X - P.size) hslt
  have hlog := P.log_le
  rw [decodeStep]
  simp only [hslot, Chk.index_of_lt hslt, Exc.ok_bind]
  split
  · next h0 =>
    obtain ⟨o, r', hrd, hwf, hbits⟩ := bsrRead_wf hr (show (t.decode (X - P.size)).nbBits ≤ 32 by omega)
    rw [hrd, Exc.ok_bind]
    cases o with
    | none => exact ⟨_, _, rfl, by simp⟩
    | some bits =>
      refine ⟨_, _, rfl, ?_⟩
      rintro X' r'' ⟨⟩
      have := hbits bits rfl
      exact ⟨⟨by omega, by omega⟩, hwf⟩
  · next h0 =>
    refine ⟨_, _, rfl, ?_⟩
    rintro X' r'' ⟨⟩
    have : 0 < 2 ^ (t.decode (X - P.size)).nbBits := by positivity
    exact ⟨⟨h1, by omega⟩, hr⟩

end Step

/-! ### A run undoes the other -/

section Run

variable {P : TansParams} {check : Bool} {sel : ℕ → UInt8 → Option Table}
  {selC : ℕ → UInt8 → Chk (Option Table)}

/-- The tables an encoder selects can code every symbol it does not refuse,
and the decoder selects the same ones. -/
structure SelOk (P : TansParams) (check : Bool) (sel : ℕ → UInt8 → Option Table)
    (selC : ℕ → UInt8 → Chk (Option Table)) : Prop where
  same : ∀ i prev, selC i prev = .ok (sel i prev)
  sound : ∀ i prev t, sel i prev = some t → t.Sound P
  full : check = false → ∀ i prev t, sel i prev = some t → ∀ s : UInt8, 0 < (t.encode s.toNat).freq

/-- **A run.** What the encoder pushed on the stream the decoder pops: it
gives the packet back, and leaves state and reader where the encoder began. An
encoder that does not check must be given symbols that occur. -/
theorem encodeRun_undone (hsame : ∀ i prev, selC i prev = .ok (sel i prev))
    (hsound : ∀ i prev t, sel i prev = some t → t.Sound P) {X T V : ℕ} {w : Bsw} (hX : P.InRange X)
    (hw : w.Holds T V) : ∀ (src : List UInt8) (i : ℕ) (prev : UInt8) (X' : ℕ) (w' : Bsw),
    (check = false → ∀ b ∈ src, ∀ i prev t, sel i prev = some t → 0 < (t.encode b.toNat).freq) →
    encodeRun check sel i prev src X w = .ok (X', w') →
    P.InRange X' ∧ w'.cap = w.cap ∧ ∃ T' V', w'.Holds T' V' ∧ ∀ r : Bsr, r.Shows T' V' →
      ∃ r', decodeRun P selC src.length i prev X' r = .ok (src, some (X, r')) ∧ r'.Shows T V ∧ r'.buf = r.buf
  | [], i, prev, X', w', _, h => by
    simp only [encodeRun, Except.ok.injEq, Prod.mk.injEq] at h
    obtain ⟨rfl, rfl⟩ := h
    exact ⟨hX, rfl, T, V, hw, fun r hr => ⟨r, rfl, hr, rfl⟩⟩
  | b :: src, i, prev, X', w', hfull, h => by
    rw [encodeRun] at h
    cases hrest : encodeRun check sel (i + 1) b src X w with
    | error e => simp [hrest] at h
    | ok p =>
      obtain ⟨X1, w1⟩ := p
      obtain ⟨hX1, hcap1, T1, V1, hw1, hback⟩ := encodeRun_undone hsame hsound hX hw src (i + 1) b X1 w1
        (fun hc c hmem => hfull hc c (List.mem_cons_of_mem b hmem)) hrest
      simp only [hrest] at h
      cases htbl : sel i prev with
      | none => simp [htbl] at h
      | some t =>
        simp only [htbl] at h
        have hf : 0 < (t.encode b.toNat).freq := by
          cases check with
          | true => exact encodeStep_freq h
          | false => exact hfull rfl b (List.mem_cons_self ..) i prev t htbl
        obtain ⟨hX', hcap', T', V', hw', -, hstep⟩ :=
          encodeStep_decodeStep (hsound i prev t htbl) hf hX1 hw1 h
        refine ⟨hX', hcap'.trans hcap1, T', V', hw', fun r hr => ?_⟩
        obtain ⟨r1, hd1, hs1, hb1⟩ := hstep r hr
        obtain ⟨r2, hd2, hs2, hb2⟩ := hback r1 hs1
        refine ⟨r2, ?_, hs2, hb2.trans hb1⟩
        rw [List.length_cons, decodeRun, hsame, htbl, Exc.ok_bind]
        simp only [hd1, hd2, Exc.ok_bind, Exc.pure_eq]

/-- A run whose tables can code every symbol. -/
theorem encodeRun_decodeRun (hs : SelOk P check sel selC) {X T V : ℕ} {w : Bsw} (hX : P.InRange X)
    (hw : w.Holds T V) (src : List UInt8) (i : ℕ) (prev : UInt8) (X' : ℕ) (w' : Bsw)
    (h : encodeRun check sel i prev src X w = .ok (X', w')) :
    P.InRange X' ∧ w'.cap = w.cap ∧ ∃ T' V', w'.Holds T' V' ∧ ∀ r : Bsr, r.Shows T' V' →
      ∃ r', decodeRun P selC src.length i prev X' r = .ok (src, some (X, r')) ∧ r'.Shows T V ∧ r'.buf = r.buf :=
  encodeRun_undone hs.same hs.sound hX hw src i prev X' w' (fun hc b _ i prev t ht => hs.full hc i prev t ht b) h

/-- Whatever the stream holds, a decoder stays in its tables and its buffer
and writes at most `n` bytes, all of them unless it fails. -/
theorem decodeRun_safe (hsel : ∀ i prev, ∃ o, selC i prev = .ok o ∧ ∀ t, o = some t → t.Sound P) :
    ∀ (n i : ℕ) (prev : UInt8) (X : ℕ) (r : Bsr), P.InRange X → r.Wf →
    ∃ bs o, decodeRun P selC n i prev X r = .ok (bs, o) ∧ bs.length ≤ n ∧ (o.isSome → bs.length = n)
  | 0, i, prev, X, r, _, _ => ⟨[], _, rfl, Nat.le_refl _, fun _ => rfl⟩
  | n + 1, i, prev, X, r, hX, hr => by
    obtain ⟨o, hso, hsound⟩ := hsel i prev
    rw [decodeRun, hso, Exc.ok_bind]
    cases o with
    | none => exact ⟨[], none, rfl, Nat.zero_le _, by simp⟩
    | some t =>
      obtain ⟨b, o, hd, hnext⟩ := decodeStep_safe (hsound t rfl) hX hr
      simp only [hd, Exc.ok_bind]
      cases o with
      | none => exact ⟨[b], none, rfl, by simp, by simp⟩
      | some p =>
        obtain ⟨hX', hr'⟩ := hnext p.1 p.2 rfl
        obtain ⟨bs, o, hrun, hlen, hall⟩ := decodeRun_safe hsel n (i + 1) b p.1 p.2 hX' hr'
        refine ⟨b :: bs, o, ?_, by simpa using hlen, fun h => by simpa using hall h⟩
        simp only [hrun, Exc.ok_bind, Exc.pure_eq]

end Run

/-! ### Two states -/

section Dual

variable {t : Table}

/-- The byte a step gives is the one in the slot of its state. -/
theorem decodeStep_symbol {P : TansParams} {X : ℕ} {r : Bsr} {b : UInt8} {o : Option (ℕ × Bsr)}
    (hX : P.InRange X) (h : decodeStep P t X r = .ok (b, o)) : b = (t.decode (subU32 X P.size)).symbol := by
  obtain ⟨hslot, hslt⟩ := hX.slot
  rw [decodeStep] at h
  simp only [hslot, Chk.index_of_lt hslt, Exc.ok_bind] at h ⊢
  split at h
  · obtain ⟨⟨v, r'⟩, -, h⟩ := Exc.bind_eq_ok h
    cases v <;> simp_all
  · simp_all

theorem TansParams.inRange_size (P : TansParams) : P.InRange P.size :=
  ⟨Nat.le_refl _, by have := P.size_pos; omega⟩

/-- The last symbol of a packet of odd length is coded by the first state. -/
theorem encodeX2Run_single {a : UInt8} {X0 X1 : ℕ} {w w' : Bsw} (h : encodeX2Run t [a] w = .ok (X0, X1, w')) :
    X1 = tans12.size ∧ encodeStep false t a tans12.size w = .ok (X0, w') := by
  rw [encodeX2Run] at h
  rcases hstep : encodeStep false t a tans12.size w with e | ⟨Z0, w₁⟩
  · simp [hstep] at h
  · simp only [hstep, Except.ok.injEq, Prod.mk.injEq] at h
    obtain ⟨rfl, rfl, rfl⟩ := h
    exact ⟨rfl, rfl⟩

/-- A pair is coded behind the rest of the packet, its second symbol first. -/
theorem encodeX2Run_pair {a b : UInt8} {src : List UInt8} {X0 X1 : ℕ} {w w' : Bsw}
    (h : encodeX2Run t (a :: b :: src) w = .ok (X0, X1, w')) :
    ∃ Y0 Y1 w₁ w₂, encodeX2Run t src w = .ok (Y0, Y1, w₁) ∧ encodeStep false t b Y1 w₁ = .ok (X1, w₂) ∧
      encodeStep false t a Y0 w₂ = .ok (X0, w') := by
  rw [encodeX2Run] at h
  rcases hrest : encodeX2Run t src w with e | ⟨Y0, Y1, w₁⟩
  · simp [hrest] at h
  · simp only [hrest] at h
    rcases hb : encodeStep false t b Y1 w₁ with e | ⟨Z1, w₂⟩
    · simp [hb] at h
    · simp only [hb] at h
      rcases ha : encodeStep false t a Y0 w₂ with e | ⟨Z0, w₃⟩
      · simp [ha] at h
      · simp only [ha, Except.ok.injEq, Prod.mk.injEq] at h
        obtain ⟨rfl, rfl, rfl⟩ := h
        exact ⟨Y0, Y1, w₁, w₂, rfl, hb, ha⟩

/-- The pairs loop takes a pair when both of its steps go through. -/
theorem decodeX2Run_pair {n X0 X1 Y0 Y1 : ℕ} {r r₁ r₂ : Bsr} {a b : UInt8} {bs : List UInt8}
    {o : Option (ℕ × ℕ × Bsr)} (hX1 : tans12.InRange X1) (h0 : decodeStep tans12 t X0 r = .ok (a, some (Y0, r₁)))
    (h1 : decodeStep tans12 t X1 r₁ = .ok (b, some (Y1, r₂))) (hrest : decodeX2Run t n Y0 Y1 r₂ = .ok (bs, o)) :
    decodeX2Run t (n + 1) X0 X1 r = .ok (a :: b :: bs, o) := by
  have hsym := decodeStep_symbol hX1 h1
  obtain ⟨hslot, hslt⟩ := hX1.slot
  rw [hslot] at hsym
  rw [decodeX2Run]
  simp only [h0, Exc.ok_bind, hslot, Chk.index_of_lt hslt, ← hsym, h1, hrest, Exc.pure_eq]

/-- **A run with two states**, over a packet of even length. -/
theorem encodeX2Run_decode (ht : t.Sound tans12) {T V : ℕ} {w : Bsw} (hw : w.Holds T V) :
    ∀ (src : List UInt8) (X0 X1 : ℕ) (w' : Bsw), (∀ b ∈ src, 0 < (t.encode b.toNat).freq) →
    src.length % 2 = 0 → encodeX2Run t src w = .ok (X0, X1, w') →
    tans12.InRange X0 ∧ tans12.InRange X1 ∧ w'.cap = w.cap ∧ ∃ T' V', w'.Holds T' V' ∧
      ∀ r : Bsr, r.Shows T' V' → ∃ r', decodeX2Run t (src.length / 2) X0 X1 r
        = .ok (src, some (tans12.size, tans12.size, r')) ∧ r'.Shows T V ∧ r'.buf = r.buf
  | [], X0, X1, w', _, _, h => by
    simp only [encodeX2Run, Except.ok.injEq, Prod.mk.injEq] at h
    obtain ⟨rfl, rfl, rfl⟩ := h
    exact ⟨tans12.inRange_size, tans12.inRange_size, rfl, T, V, hw, fun r hr => ⟨r, rfl, hr, rfl⟩⟩
  | [a], _, _, _, _, hlen, _ => by simp at hlen
  | a :: b :: src, X0, X1, w', hf, hlen, h => by
    obtain ⟨Y0, Y1, w1, w2, hrest, hb, ha⟩ := encodeX2Run_pair h
    obtain ⟨hY0, hY1, hcap, T1, V1, hw1, hback⟩ :=
      encodeX2Run_decode ht hw src Y0 Y1 w1 (fun c hc => hf c (by simp [hc]))
        (by simp only [List.length_cons] at hlen; omega) hrest
    obtain ⟨hX1, hcap2, T2, V2, hw2, -, hstepb⟩ := encodeStep_decodeStep ht (hf b (by simp)) hY1 hw1 hb
    obtain ⟨hX0, hcap3, T3, V3, hw3, -, hstepa⟩ := encodeStep_decodeStep ht (hf a (by simp)) hY0 hw2 ha
    refine ⟨hX0, hX1, by rw [hcap3, hcap2, hcap], T3, V3, hw3, fun r hr => ?_⟩
    obtain ⟨r1, hd1, hs1, hb1⟩ := hstepa r hr
    obtain ⟨r2, hd2, hs2, hb2⟩ := hstepb r1 hs1
    obtain ⟨r3, hd3, hs3, hb3⟩ := hback r2 hs2
    refine ⟨r3, ?_, hs3, by rw [hb3, hb2, hb1]⟩
    rw [show (a :: b :: src).length / 2 = src.length / 2 + 1 by simp only [List.length_cons]; omega]
    exact decodeX2Run_pair hX1 hd1 hd2 hd3

/-- Whatever the stream holds, the pairs loop stays in its table and its
buffer and writes at most `2 * n` bytes, all of them unless it fails. -/
theorem decodeX2Run_safe (ht : t.Sound tans12) : ∀ (n X0 X1 : ℕ) (r : Bsr), tans12.InRange X0 →
    tans12.InRange X1 → r.Wf →
    ∃ bs o, decodeX2Run t n X0 X1 r = .ok (bs, o) ∧ bs.length ≤ 2 * n ∧ (o.isSome → bs.length = 2 * n)
  | 0, X0, X1, r, _, _, _ => ⟨[], _, rfl, Nat.le_refl _, fun _ => rfl⟩
  | n + 1, X0, X1, r, h0, h1, hr => by
    obtain ⟨a, o, hd, hnext⟩ := decodeStep_safe ht h0 hr
    obtain ⟨hslot, hslt⟩ := h1.slot
    rw [decodeX2Run]
    simp only [hd, Exc.ok_bind, hslot, Chk.index_of_lt hslt]
    cases o with
    | none => exact ⟨_, none, rfl, by simp only [List.length_cons, List.length_nil]; omega, by simp⟩
    | some p =>
      obtain ⟨h0', hr'⟩ := hnext p.1 p.2 rfl
      obtain ⟨b, o, hd', hnext'⟩ := decodeStep_safe ht h1 hr'
      simp only [hd', Exc.ok_bind]
      cases o with
      | none => exact ⟨_, none, rfl, by simp only [List.length_cons, List.length_nil]; omega, by simp⟩
      | some q =>
        obtain ⟨h1', hr''⟩ := hnext' q.1 q.2 rfl
        obtain ⟨bs, o, hrun, hlen, hall⟩ := decodeX2Run_safe ht n p.1 q.1 q.2 h0' h1' hr''
        refine ⟨a :: (t.decode (X1 - tans12.size)).symbol :: bs, o, ?_, by simp only [List.length_cons]; omega,
          fun h => ?_⟩
        · simp only [hrun, Exc.ok_bind, Exc.pure_eq]
        · have := hall h
          simp only [List.length_cons]
          omega

end Dual

end Netc
