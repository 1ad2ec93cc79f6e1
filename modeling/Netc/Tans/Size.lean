/-
# The size of a tANS stream

What an encoder writes does not depend on the room it is given: for every packet there is a number of bits
such that the encoder and the flush succeed just when the buffer has a byte more than their whole bytes, and
that many bytes it leaves. A symbol of frequency `f` takes `tableLog - log2 f` bits or one fewer, and
exactly that many where `f` is a power of two, whatever the state and whatever comes around it; so the size
of the stream is known up to one bit a symbol from the frequencies alone (`tans_stream_size`). This holds of
all four encoders and of the two interleaved states.

Key definitions: `Codes`, `runFields`, `StreamBits`, `symbolBits`.
Key theorems: `encodeRun_writes`, `width_runFields`, `encodeX2Run_writes`, `tans_stream_size`.
-/
import Netc.Tans.Codec
import Netc.Tans.Freq
import Netc.BitStack
import Mathlib.Data.Nat.Log

namespace Netc

/-! ### One step -/

section Step

variable {P : TansParams} {check : Bool} {t : Table} {sym : UInt8} {X : ℕ}

/-- The field a step writes: the low bits of the state, if there are any. -/
def stepField (t : Table) (sym : UInt8) (X : ℕ) : Fields :=
  if 0 < t.nb sym.toNat X then [(X &&& (1 <<< t.nb sym.toNat X - 1), t.nb sym.toNat X)] else []

/-- The state after a step. -/
def stepState (t : Table) (sym : UInt8) (X : ℕ) : ℕ := t.encodeState (t.place sym.toNat X)

theorem encodeStep_writes (hf : 0 < (t.encode sym.toNat).freq) (w : Bsw) :
    encodeStep check t sym X w = (bswWrites w (stepField t sym X)).map fun w => (stepState t sym X, w) := by
  have hf0 : ((t.encode sym.toNat).freq == 0) = false := by simpa using hf.ne'
  simp only [encodeStep, hf0, Bool.and_false, Bool.false_eq_true, if_false, stepField]
  by_cases h0 : 0 < t.nb sym.toNat X
  · rw [if_pos h0, if_pos h0, bswWrites_cons]
    rcases bswWrite w (X &&& (1 <<< t.nb sym.toNat X - 1)) (t.nb sym.toNat X) with w' | w' <;> rfl
  · rw [if_neg h0, if_neg h0]
    rfl

theorem width_stepField (t : Table) (sym : UInt8) (X : ℕ) : (stepField t sym X).width = t.nb sym.toNat X := by
  unfold stepField
  split
  · simp
  · simp only [Fields.width_nil]
    omega

theorem fit_stepField (ht : t.Sound P) (sym : UInt8) (X : ℕ) : (stepField t sym X).Fit := by
  have hnb := (ht.nb_le sym.toNat X).trans P.log_le
  unfold stepField
  split
  · next h0 =>
    intro p hp
    rw [List.mem_singleton.mp hp, land_low]
    exact ⟨h0, by simp only; omega, Nat.mod_lt _ (by positivity)⟩
  · intro p hp
    cases hp

end Step

/-! ### Packets -/

/-- Every position has a table, built for `P`, in which its symbol occurs. -/
def Codes (P : TansParams) (sel : ℕ → UInt8 → Option Table) : ℕ → UInt8 → List UInt8 → Prop
  | _, _, [] => True
  | i, prev, b :: src =>
    (∃ freq t, sel i prev = some t ∧ tansBuildWith P freq = some t ∧ 0 < freq b.toNat) ∧ Codes P sel (i + 1) b src

/-- The state after `src` and the fields written for it, the last byte's first. -/
def runFields (sel : ℕ → UInt8 → Option Table) : ℕ → UInt8 → List UInt8 → ℕ → ℕ × Fields
  | _, _, [], X => (X, [])
  | i, prev, b :: src, X =>
    let r := runFields sel (i + 1) b src X
    match sel i prev with
    | none => r
    | some t => (stepState t b r.1, r.2 ++ stepField t b r.1)

/-- The sum of `cost f` over the positions, `f` being the frequency of the symbol in the table of the
position. -/
def symbolBits (sel : ℕ → UInt8 → Option Table) (cost : ℕ → ℕ) : ℕ → UInt8 → List UInt8 → ℕ
  | _, _, [] => 0
  | i, prev, b :: src =>
    ((sel i prev).elim 0 fun t => cost (t.freq b.toNat)) + symbolBits sel cost (i + 1) b src

section Run

variable {P : TansParams} {check : Bool} {sel : ℕ → UInt8 → Option Table} {X : ℕ}

theorem bswWrites_append (w : Bsw) (ws ws' : Fields) :
    bswWrites w (ws ++ ws') = bswWrites w ws >>= fun w => bswWrites w ws' := List.foldlM_append

theorem freq_encode {freq : Freq} {t : Table} {b : UInt8} (h : tansBuildWith P freq = some t) (hf : 0 < freq b.toNat) :
    0 < (t.encode b.toNat).freq := by
  rw [tansBuildWith_encode_freq h (UInt8.toNat_lt b)]
  exact hf

theorem inRange_runFields (hX : P.InRange X) : ∀ (src : List UInt8) (i : ℕ) (prev : UInt8), Codes P sel i prev src →
    P.InRange (runFields sel i prev src X).1
  | [], _, _, _ => hX
  | b :: src, i, prev, ⟨⟨freq, t, hsel, hbuild, hf⟩, hrest⟩ => by
    have ih := inRange_runFields hX src (i + 1) b hrest
    simp only [runFields, hsel]
    exact ((tansBuildWith_sound hbuild).code b _ (freq_encode hbuild hf) ih).2.1

/-- **An encoder makes these writes and no others**, into whatever room. -/
theorem encodeRun_writes (w : Bsw) : ∀ (src : List UInt8) (i : ℕ) (prev : UInt8), Codes P sel i prev src →
    encodeRun check sel i prev src X w
      = (bswWrites w (runFields sel i prev src X).2).map fun w => ((runFields sel i prev src X).1, w)
  | [], _, _, _ => rfl
  | b :: src, i, prev, ⟨⟨freq, t, hsel, hbuild, hf⟩, hrest⟩ => by
    simp only [encodeRun, runFields, encodeRun_writes w src (i + 1) b hrest, hsel, bswWrites_append]
    rcases bswWrites w (runFields sel (i + 1) b src X).2 with w' | w'
    · rfl
    · simp only [Except.map, Exc.ok_bind]
      exact encodeStep_writes (freq_encode hbuild hf) w'

theorem fit_runFields : ∀ (src : List UInt8) (i : ℕ) (prev : UInt8), Codes P sel i prev src →
    (runFields sel i prev src X).2.Fit
  | [], _, _, _ => fun p hp => by cases hp
  | b :: src, i, prev, ⟨⟨freq, t, hsel, hbuild, hf⟩, hrest⟩ => by
    simp only [runFields, hsel]
    intro p hp
    rcases List.mem_append.mp hp with hp | hp
    · exact fit_runFields src (i + 1) b hrest p hp
    · exact fit_stepField (tansBuildWith_sound hbuild) b _ p hp

/-- A symbol of a built table has a frequency of at most the table's size. -/
theorem clog_le {freq : Freq} {t : Table} {s : ℕ} (h : tansBuildWith P freq = some t) (hs : s < 256) :
    Nat.clog 2 (freq s) ≤ P.tableLog := by
  obtain ⟨hsum, -⟩ := tansBuildWith_eq_some h
  apply (Nat.clog_le_iff_le_pow (by norm_num)).mpr
  have hsize : P.size = 2 ^ P.tableLog := by rw [TansParams.size]
  rcases Nat.eq_zero_or_pos (freq s) with h0 | hpos
  · rw [h0]
    exact Nat.zero_le _
  · have := @cumul_add_lt_size P freq hsum s (freq s - 1) hs (by omega)
    omega

/-- What a symbol takes. -/
theorem nb_bounds {freq : Freq} {t : Table} (h : tansBuildWith P freq = some t) {b : UInt8}
    (hf : 0 < freq b.toNat) {X : ℕ} (hX : P.InRange X) : P.tableLog - Nat.clog 2 (freq b.toNat) ≤ t.nb b.toNat X ∧
      t.nb b.toNat X ≤ P.tableLog - Nat.log2 (freq b.toNat) :=
  ⟨le_nb_of_le_two_pow h (UInt8.toNat_lt b) hf (Nat.le_pow_clog (by norm_num) _) (clog_le h (UInt8.toNat_lt b)) hX,
    nb_le_of_log2 h (UInt8.toNat_lt b) hf X⟩

/-- **The bits of a packet** lie between the sums of the least and of the most that its symbols take. -/
theorem width_runFields (hX : P.InRange X) : ∀ (src : List UInt8) (i : ℕ) (prev : UInt8), Codes P sel i prev src →
    symbolBits sel (fun f => P.tableLog - Nat.clog 2 f) i prev src ≤ (runFields sel i prev src X).2.width ∧
      (runFields sel i prev src X).2.width ≤ symbolBits sel (fun f => P.tableLog - Nat.log2 f) i prev src
  | [], _, _, _ => ⟨le_refl 0, le_refl 0⟩
  | b :: src, i, prev, ⟨⟨freq, t, hsel, hbuild, hf⟩, hrest⟩ => by
    obtain ⟨hlo, hhi⟩ := width_runFields hX src (i + 1) b hrest
    have hin := inRange_runFields hX src (i + 1) b hrest
    have hfreq : t.freq = freq := tansBuildWith_freq hbuild
    have hb := nb_bounds hbuild hf hin
    simp only [symbolBits, runFields, hsel, Option.elim_some, hfreq, Fields.width_append, width_stepField]
    omega

end Run

/-! ### Streams -/

/-- An encoder and the flush into a buffer of `cap` bytes, as its callers run them: a state of zero is a
failure. -/
def encodeFlush (enc : Bsw → ℕ × Bsw) (cap : ℕ) : Except Bsw Bsw :=
  let r := enc (bswInit cap)
  if r.1 = 0 then .error r.2 else bswFlush r.2

/-- The two states and the flush. -/
def encodeX2Flush (t : Table) (src : List UInt8) (cap : ℕ) : Except Bsw Bsw :=
  match tansEncodeX2 t src (bswInit cap) with
  | .error w => .error w
  | .ok (_, _, w) => bswFlush w

/-- A stream of `T` bits: it succeeds just when the buffer has a byte more than their whole bytes, which is
its size. -/
structure StreamBits (stream : ℕ → Except Bsw Bsw) (T : ℕ) : Prop where
  room : ∀ cap, (∃ w, stream cap = .ok w) ↔ T / 8 + 1 ≤ cap
  size : ∀ cap w, stream cap = .ok w → w.out.length = T / 8 + 1

theorem streamBits_of_fields {ws : Fields} (h : ws.Fit) {stream : ℕ → Except Bsw Bsw}
    (hsame : ∀ cap w, stream cap = .ok w ↔ bswStream cap ws = .ok w) : StreamBits stream ws.width := by
  refine ⟨fun cap => ?_, fun cap w hw => (bswStream_holds h ((hsame cap w).mp hw)).2⟩
  rw [← bswStream_ok_iff h cap]
  exact exists_congr (hsame cap)

/-- The flush after the writes of an encoder that ends in state `X`. -/
theorem encodeFlush_eq_ok {enc : Bsw → ℕ × Bsw} {x : Except Bsw Bsw} {X cap : ℕ} (hX : X ≠ 0)
    (h : enc (bswInit cap) = encodeReturn (x.map fun w => (X, w))) (w : Bsw) :
    encodeFlush enc cap = .ok w ↔ x >>= bswFlush = .ok w := by
  rcases x with w' | w'
  · have hfail : enc (bswInit cap) = (0, w') := h
    simp [encodeFlush, hfail]
  · have hdone : enc (bswInit cap) = (X, w') := h
    rw [encodeFlush, hdone]
    simp only [if_neg hX, Exc.ok_bind]

section Streams

variable {P : TansParams} {check : Bool} {sel : ℕ → UInt8 → Option Table} {X : ℕ} {src : List UInt8}

/-- A stream with one state. -/
theorem encodeRun_stream_bits (hX : P.InRange X) (hcodes : Codes P sel 0 0 src) {enc : Bsw → ℕ × Bsw}
    (henc : ∀ w, enc w = encodeReturn (encodeRun check sel 0 0 src X w)) :
    ∃ T, StreamBits (encodeFlush enc) T ∧ symbolBits sel (fun f => P.tableLog - Nat.clog 2 f) 0 0 src ≤ T ∧
      T ≤ symbolBits sel (fun f => P.tableLog - Nat.log2 f) 0 0 src := by
  have hin := inRange_runFields hX src 0 0 hcodes
  have hne : (runFields sel 0 0 src X).1 ≠ 0 := by
    have := P.size_pos
    have := hin.1
    omega
  refine ⟨_, streamBits_of_fields (fit_runFields src 0 0 hcodes) fun cap w => ?_, width_runFields hX src 0 0 hcodes⟩
  exact encodeFlush_eq_ok hne (by rw [henc, encodeRun_writes _ src 0 0 hcodes]) w

/-- With one table the position does not matter. -/
theorem symbolBits_one (t : Table) (cost : ℕ → ℕ) : ∀ (src : List UInt8) (i : ℕ) (prev : UInt8),
    symbolBits (fun _ _ => some t) cost i prev src = (src.map fun b => cost (t.freq b.toNat)).sum
  | [], _, _ => rfl
  | b :: src, i, prev => by rw [symbolBits, symbolBits_one t cost src, Option.elim_some, List.map_cons, List.sum_cons]

theorem codes_one {freq : Freq} {t : Table} (h : tansBuildWith P freq = some t) :
    ∀ (src : List UInt8) (i : ℕ) (prev : UInt8), (∀ b ∈ src, 0 < freq b.toNat) → Codes P (fun _ _ => some t) i prev src
  | [], _, _, _ => trivial
  | b :: src, i, _, hf => ⟨⟨freq, t, rfl, h, hf b (List.mem_cons_self ..)⟩,
      codes_one h src (i + 1) b fun c hc => hf c (List.mem_cons_of_mem _ hc)⟩

end Streams

/-! ### Two states -/

/-- The two states after `src` and the fields written for it. -/
def x2Fields (t : Table) : List UInt8 → ℕ × ℕ × Fields
  | [] => (tans12.size, tans12.size, [])
  | [a] => (stepState t a tans12.size, tans12.size, stepField t a tans12.size)
  | a :: b :: src =>
    let r := x2Fields t src
    (stepState t a r.1, stepState t b r.2.1, r.2.2 ++ stepField t b r.2.1 ++ stepField t a r.1)

section X2

variable {freq : Freq} {t : Table}

theorem inRange_x2Fields (h : tansBuild freq = some t) : ∀ src : List UInt8, (∀ b ∈ src, 0 < freq b.toNat) →
    tans12.InRange (x2Fields t src).1 ∧ tans12.InRange (x2Fields t src).2.1
  | [], _ => ⟨tans12.inRange_size, tans12.inRange_size⟩
  | [a], hf => by
    have hfa := freq_encode h (hf a (by simp))
    exact ⟨((tansBuildWith_sound h).code a _ hfa tans12.inRange_size).2.1, tans12.inRange_size⟩
  | a :: b :: src, hf => by
    obtain ⟨h0, h1⟩ := inRange_x2Fields h src fun c hc => hf c (by simp [hc])
    have hfa := freq_encode h (hf a (by simp))
    have hfb := freq_encode h (hf b (by simp))
    exact ⟨((tansBuildWith_sound h).code a _ hfa h0).2.1, ((tansBuildWith_sound h).code b _ hfb h1).2.1⟩

/-- **The encoder of two states makes these writes and no others.** -/
theorem encodeX2Run_writes (h : tansBuild freq = some t) (w : Bsw) : ∀ src : List UInt8, (∀ b ∈ src, 0 < freq b.toNat) →
    encodeX2Run t src w
      = (bswWrites w (x2Fields t src).2.2).map fun w => ((x2Fields t src).1, (x2Fields t src).2.1, w)
  | [], _ => rfl
  | [a], hf => by
    rw [encodeX2Run, encodeStep_writes (freq_encode h (hf a (by simp)))]
    simp only [x2Fields]
    rcases bswWrites w (stepField t a tans12.size) with w' | w' <;> rfl
  | a :: b :: src, hf => by
    have hfa := freq_encode h (hf a (by simp))
    have hfb := freq_encode h (hf b (by simp))
    rw [encodeX2Run, encodeX2Run_writes h w src fun c hc => hf c (by simp [hc])]
    simp only [x2Fields, bswWrites_append]
    rcases bswWrites w (x2Fields t src).2.2 with w₁ | w₁
    · rfl
    · simp only [Except.map, Exc.ok_bind, encodeStep_writes hfb]
      rcases bswWrites w₁ (stepField t b (x2Fields t src).2.1) with w₂ | w₂
      · rfl
      · simp only [Exc.ok_bind, encodeStep_writes hfa]
        rcases bswWrites w₂ (stepField t a (x2Fields t src).1) with w₃ | w₃ <;> rfl

theorem fit_x2Fields (h : tansBuild freq = some t) : ∀ src : List UInt8, (x2Fields t src).2.2.Fit
  | [] => fun p hp => by cases hp
  | [a] => fit_stepField (tansBuildWith_sound h) a _
  | a :: b :: src => by
    intro p hp
    rcases List.mem_append.mp hp with hp | hp
    · rcases List.mem_append.mp hp with hp | hp
      · exact fit_x2Fields h src p hp
      · exact fit_stepField (tansBuildWith_sound h) b _ p hp
    · exact fit_stepField (tansBuildWith_sound h) a _ p hp

theorem width_x2Fields (h : tansBuild freq = some t) : ∀ src : List UInt8, (∀ b ∈ src, 0 < freq b.toNat) →
    (src.map fun b => tans12.tableLog - Nat.clog 2 (freq b.toNat)).sum ≤ (x2Fields t src).2.2.width ∧
      (x2Fields t src).2.2.width ≤ (src.map fun b => tans12.tableLog - Nat.log2 (freq b.toNat)).sum
  | [], _ => ⟨le_refl 0, le_refl 0⟩
  | [a], hf => by
    have ha := nb_bounds h (hf a (by simp)) tans12.inRange_size
    simpa only [x2Fields, width_stepField, List.map_cons, List.map_nil,
      List.sum_cons, List.sum_nil, Nat.add_zero] using ha
  | a :: b :: src, hf => by
    have hrest : ∀ c ∈ src, 0 < freq c.toNat := fun c hc => hf c (by simp [hc])
    obtain ⟨hlo, hhi⟩ := width_x2Fields h src hrest
    obtain ⟨h0, h1⟩ := inRange_x2Fields h src hrest
    have ha := nb_bounds h (hf a (by simp)) h0
    have hb := nb_bounds h (hf b (by simp)) h1
    simp only [x2Fields, Fields.width_append, width_stepField, List.map_cons, List.sum_cons]
    omega

end X2

/-! ### All encoders -/

/-- **The size of a tANS stream.** For every packet that is not empty and every encoder whose tables have
its symbols there is a number of bits, which does not depend on the buffer: encoder and flush succeed just
when the buffer has a byte more than their whole bytes, and that is the size of the stream. The number lies
between the sums over the symbols of `tableLog - ⌈log2 f⌉` and of `tableLog - ⌊log2 f⌋`, where `f` is the
symbol's frequency in the table of its position. So it is for the encoders with one table (12 or 10 bits),
with a table for each bucket, with a table for each bucket and class of the byte before, and for the two
interleaved states. -/
theorem tans_stream_size (src : List UInt8) (hne : src ≠ []) :
    (∀ (P : TansParams) (check : Bool) (freq : Freq) (t : Table) (X : ℕ), tansBuildWith P freq = some t →
      (∀ b ∈ src, 0 < freq b.toNat) → P.InRange X →
      ∃ T, StreamBits (encodeFlush fun w => tansEncodeWith P check t src w X) T ∧
        (src.map fun b => P.tableLog - Nat.clog 2 (freq b.toNat)).sum ≤ T ∧
        T ≤ (src.map fun b => P.tableLog - Nat.log2 (freq b.toNat)).sum) ∧
    (∀ (tables : ℕ → Table) (X : ℕ), Codes tans12 (pctxSelect tables) 0 0 src → tans12.InRange X →
      ∃ T, StreamBits (encodeFlush fun w => tansEncodePctx tables src w X) T ∧
        symbolBits (pctxSelect tables) (fun f => 12 - Nat.clog 2 f) 0 0 src ≤ T ∧
        T ≤ symbolBits (pctxSelect tables) (fun f => 12 - Nat.log2 f) 0 0 src) ∧
    (∀ (bigram : ℕ → ℕ → Table) (tables : ℕ → Table) (classMap : UInt8 → ℕ) (X : ℕ),
      Codes tans12 (bigramSelect bigram tables classMap) 0 0 src → tans12.InRange X →
      ∃ T, StreamBits (encodeFlush fun w => tansEncodePctxBigram bigram tables classMap src w X) T ∧
        symbolBits (bigramSelect bigram tables classMap) (fun f => 12 - Nat.clog 2 f) 0 0 src ≤ T ∧
        T ≤ symbolBits (bigramSelect bigram tables classMap) (fun f => 12 - Nat.log2 f) 0 0 src) ∧
    ∀ (freq : Freq) (t : Table), tansBuild freq = some t → (∀ b ∈ src, 0 < freq b.toNat) → 2 ≤ src.length →
      ∃ T, StreamBits (encodeX2Flush t src) T ∧ (src.map fun b => 12 - Nat.clog 2 (freq b.toNat)).sum ≤ T ∧
        T ≤ (src.map fun b => 12 - Nat.log2 (freq b.toNat)).sum := by
  have hempty : src.isEmpty = false := by simpa using hne
  have hstart : ∀ (P : TansParams) {X : ℕ}, P.InRange X → startState P X = X := fun P X hX => if_neg (not_lt.mpr hX.1)
  refine ⟨fun P check freq t X h hf hX => ?_, fun tables X hcodes hX => ?_,
    fun bigram tables classMap X hcodes hX => ?_,
    fun freq t h hf h2 => ?_⟩
  · have hfreq : t.freq = freq := tansBuildWith_freq h
    have henc : ∀ w, tansEncodeWith P check t src w X
        = encodeReturn (encodeRun check (fun _ _ => some t) 0 0 src X w) := fun w => by
      rw [tansEncodeWith, (tansBuildWith_sound h).valid, hempty, if_neg (by simp), hstart P hX]
    have hstream := encodeRun_stream_bits hX (codes_one h src 0 0 hf) henc
    simpa only [symbolBits_one, hfreq] using hstream
  · exact encodeRun_stream_bits hX hcodes fun w => by
      rw [tansEncodePctx, hempty, if_neg (by simp), hstart tans12 hX]
  · exact encodeRun_stream_bits hX hcodes fun w => by
      rw [tansEncodePctxBigram, hempty, if_neg (by simp), hstart tans12 hX]
  · refine ⟨_, streamBits_of_fields (fit_x2Fields h src) fun cap w => ?_, width_x2Fields h src hf⟩
    have hcond : (!t.valid || decide (src.length < 2)) = false := by
      rw [(tansBuildWith_sound h).valid, decide_eq_false (by omega)]
      rfl
    rw [encodeX2Flush, tansEncodeX2, hcond, if_neg (by simp), encodeX2Run_writes h _ src hf, bswStream]
    rcases bswWrites (bswInit cap) (x2Fields t src).2.2 with w' | w' <;> rfl

/-- Where all symbols have the frequency 16 each takes eight bits: a stream of one symbol has two bytes. -/
theorem tans_stream_size_flat : ∃ t, tansBuild (fun _ => 16) = some t ∧
    StreamBits (encodeFlush fun w => tansEncode t [7] w tans12.size) 8 := by
  have hsum : cumul (fun _ => 16) 256 = tans12.size := by rw [cumul_const, size_tans12]
  have hbuild : ∃ t, tansBuild (fun _ => 16) = some t := by
    rw [tansBuild, tansBuildWith, if_neg (not_not.mpr hsum)]
    exact ⟨_, rfl⟩
  obtain ⟨t, ht⟩ := hbuild
  obtain ⟨T, hstream, hlo, hhi⟩ := (tans_stream_size [7] (by simp)).1 tans12 false _ t tans12.size ht (by simp)
    tans12.inRange_size
  have hclog : Nat.clog 2 16 = 4 := by norm_num
  have hlog : Nat.log2 16 = 4 := by decide
  have h12 : tans12.tableLog = 12 := rfl
  simp only [List.map_cons, List.map_nil, List.sum_cons, List.sum_nil, hclog, hlog, h12] at hlo hhi
  obtain rfl : T = 8 := by omega
  exact ⟨t, ht, hstream⟩

end Netc
