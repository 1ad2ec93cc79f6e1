/-
# The tables invert each other

What `netc_tans_build` and `netc_tans_build_10` make of a frequency table, in
full: the encode table lists every state once, every symbol has as many slots
as its frequency, an encode step is undone by the decode entry of the state it
leads to, and every state with every value of the bits it reads is what exactly
one encode step leaves (`tansBuild_inverse`). All entries fit their fields, so
no cast of the code cuts one short (`tansBuildWith_fields`).

Key definitions: `floorLog2U32`, `Table.encodeTo`, `Table.Inverse`.
Key theorems: `encodeStep_eq_encodeTo`, `tansBuildWith_inverse`, `tansBuild_inverse`.
-/
import Netc.Tans.Codec

namespace Netc

/-! ### Steps without the stream -/

/-- `floor_log2_u32` -/
def floorLog2U32 (v : ℕ) : ℕ := if 1 < v then floorLog2U32 (v >>> 1) + 1 else 0
decreasing_by
  rw [Nat.shiftRight_one]
  omega

theorem floorLog2U32_eq (v : ℕ) : floorLog2U32 v = Nat.log2 v := by
  induction v using floorLog2U32.induct with
  | case1 v h ih =>
    rw [floorLog2U32, if_pos h, ih, Nat.shiftRight_one, Nat.log2_def v, if_pos (show 2 ≤ v by omega)]
  | case2 v h => rw [floorLog2U32, if_neg h, Nat.log2_def v, if_neg (show ¬2 ≤ v by omega)]

/-- Where the step of `tans_encode_step` leads from state `X`, how many bits it writes, and these. -/
def Table.encodeTo (t : Table) (s : UInt8) (X : ℕ) : ℕ × ℕ × ℕ :=
  (t.encodeState (t.place s.toNat X), t.nb s.toNat X, X &&& (1 <<< t.nb s.toNat X - 1))

/-- The step of the encoder is this one, with the bits written if there are any. -/
theorem encodeStep_eq_encodeTo {t : Table} {s : UInt8} {X Y nb low : ℕ} (h : t.encodeTo s X = (Y, nb, low)) (w : Bsw) :
    encodeStep false t s X w = if 0 < nb then (bswWrite w low nb).map fun w => (Y, w) else .ok (Y, w) := by
  obtain ⟨rfl, rfl, rfl⟩ : _ = Y ∧ _ = nb ∧ _ = low := by simpa [Table.encodeTo] using h
  simp only [encodeStep, Bool.false_and, Bool.false_eq_true, if_false]
  split
  · cases bswWrite w (X &&& (1 <<< t.nb s.toNat X - 1)) (t.nb s.toNat X) <;> rfl
  · rfl

/-- **Tables that invert each other**, for the frequencies `freq`. -/
structure Table.Inverse (P : TansParams) (freq : Freq) (t : Table) : Prop where
  /-- `encode_state` is a permutation of the states. -/
  states : Set.BijOn t.encodeState (Set.Iio P.size) (Set.Ico P.size (2 * P.size))
  /-- A symbol has as many slots as its frequency. -/
  slots : ∀ s : UInt8, ((Finset.range P.size).filter fun p => (t.decode p).symbol = s).card = freq s.toNat
  /-- An encode step picks an occurrence of the symbol, and the slot of the state it leads to undoes it. -/
  step : ∀ (s : UInt8) (X : ℕ), 0 < freq s.toNat → P.InRange X →
    ∃ Y nb, t.encodeTo s X = (Y, nb, X % 2 ^ nb) ∧
      (∀ w, encodeStep false t s X w
        = if 0 < nb then (bswWrite w (X % 2 ^ nb) nb).map fun w => (Y, w) else .ok (Y, w)) ∧
      P.InRange Y ∧ freq s.toNat ≤ X >>> nb ∧ X >>> nb - freq s.toNat < freq s.toNat ∧
      (t.decode (Y - P.size)).symbol = s ∧ (t.decode (Y - P.size)).nbBits = nb ∧
      (t.decode (Y - P.size)).nextStateBase + X % 2 ^ nb = X
  /-- Every state with every value of its bits is reached by one encode step. -/
  unique : ∀ Y, P.InRange Y → ∀ bits < 2 ^ (t.decode (Y - P.size)).nbBits, ∃! q : UInt8 × ℕ,
    0 < freq q.1.toNat ∧ P.InRange q.2 ∧ t.encodeTo q.1 q.2 = (Y, (t.decode (Y - P.size)).nbBits, bits)

section Inverse

variable {P : TansParams} {freq : Freq} {t : Table}

theorem TansParams.coprime_size (P : TansParams) : Nat.Coprime P.spreadStep P.size := by
  unfold TansParams.size
  exact P.coprime

theorem encodeState_bijOn (h : tansBuildWith P freq = some t) :
    Set.BijOn t.encodeState (Set.Iio P.size) (Set.Ico P.size (2 * P.size)) := by
  have hstate : ∀ i < P.size, t.encodeState i = P.size + Ans.walk P.size P.spreadStep i :=
    fun i => tansBuildWith_encodeState h
  refine ⟨fun i hi => ?_, fun i hi j hj hij => ?_, fun Y hY => ?_⟩
  · have := @Ans.walk_lt P.size P.spreadStep P.size_pos i
    rw [Set.mem_Ico, hstate i hi]
    omega
  · rw [hstate i hi, hstate j hj] at hij
    exact Ans.walk_inj P.coprime_size hi hj (Nat.add_left_cancel hij)
  · obtain ⟨hge, hlt⟩ := hY
    obtain ⟨i, hi, hwalk⟩ := Ans.walk_surj P.coprime_size (show Y - P.size < P.size by omega)
    refine ⟨i, hi, ?_⟩
    rw [hstate i hi]
    omega

/-- The slots of a symbol are those of its occurrences. -/
theorem card_slots (h : tansBuildWith P freq = some t) (s : UInt8) :
    ((Finset.range P.size).filter fun p => (t.decode p).symbol = s).card = freq s.toNat := by
  obtain ⟨hsum, -⟩ := tansBuildWith_eq_some h
  have hs := UInt8.toNat_lt s
  have himage : (Finset.range P.size).filter (fun p => (t.decode p).symbol = s)
      = (Finset.range (freq s.toNat)).image fun k => Ans.walk P.size P.spreadStep (cumul freq s.toNat + k) := by
    ext p
    simp only [Finset.mem_filter, Finset.mem_range, Finset.mem_image]
    constructor
    · rintro ⟨hp, hsym⟩
      obtain ⟨s', k, hs', hk, rfl⟩ := exists_occurrence hsum hp
      rw [tansBuildWith_decode h hs' hk, decodeEntryOf] at hsym
      have hsame : s.toNat = s' := by
        rw [← hsym]
        exact UInt8.toNat_ofNat_of_lt' hs'
      rw [hsame]
      exact ⟨k, hk, rfl⟩
    · rintro ⟨k, hk, rfl⟩
      rw [tansBuildWith_decode h hs hk, decodeEntryOf]
      exact ⟨Ans.walk_lt P.size_pos _, UInt8.ofNat_toNat⟩
  rw [himage, Finset.card_image_of_injOn, Finset.card_range]
  intro k hk k' hk' hkk
  rw [Finset.mem_coe, Finset.mem_range] at hk hk'
  exact Nat.add_left_cancel (Ans.walk_inj P.coprime_size (cumul_add_lt_size hsum hs hk)
    (cumul_add_lt_size hsum hs hk') hkk)

/-- An encode step and the slot it leads to. -/
theorem encodeTo_decode (h : tansBuildWith P freq = some t) {s : UInt8} {X : ℕ} (hf : 0 < freq s.toNat)
    (hX : P.InRange X) : ∃ Y nb, t.encodeTo s X = (Y, nb, X % 2 ^ nb) ∧ P.InRange Y ∧
      freq s.toNat ≤ X >>> nb ∧ X >>> nb - freq s.toNat < freq s.toNat ∧
      (t.decode (Y - P.size)).symbol = s ∧ (t.decode (Y - P.size)).nbBits = nb ∧
      (t.decode (Y - P.size)).nextStateBase + X % 2 ^ nb = X := by
  have hs := UInt8.toNat_lt s
  have hf' : 0 < (t.encode s.toNat).freq := by rwa [tansBuildWith_encode_freq h hs]
  obtain ⟨-, hY, -⟩ := (tansBuildWith_sound h).code s X hf' hX
  obtain ⟨hge, hlt⟩ := shiftRight_nb_bounds h hs hf hX
  refine ⟨_, t.nb s.toNat X, by rw [Table.encodeTo, land_low], hY, hge, by omega, ?_⟩
  rw [decode_encodeState h hs hf hX, UInt8.ofNat_toNat]
  refine ⟨rfl, rfl, ?_⟩
  simp only
  rw [Nat.shiftRight_eq_div_pow, Nat.shiftLeft_eq, Nat.mul_comm]
  exact Nat.div_add_mod ..

/-- A slot with its bits is the encode step of the state it leads to. -/
theorem encodeTo_of_decode (h : tansBuildWith P freq = some t) {Y bits : ℕ} (hY : P.InRange Y)
    (hbits : bits < 2 ^ (t.decode (Y - P.size)).nbBits) :
    0 < freq (t.decode (Y - P.size)).symbol.toNat ∧ P.InRange ((t.decode (Y - P.size)).nextStateBase + bits) ∧
      t.encodeTo (t.decode (Y - P.size)).symbol ((t.decode (Y - P.size)).nextStateBase + bits)
        = (Y, (t.decode (Y - P.size)).nbBits, bits) := by
  obtain ⟨hsum, -⟩ := tansBuildWith_eq_some h
  obtain ⟨hge, hlt⟩ := hY
  obtain ⟨s, k, hs, hk, hp⟩ := exists_occurrence hsum (show Y - P.size < P.size by omega)
  obtain ⟨hbase, htop⟩ := decodeEntryOf_bounds hsum hs hk
  rw [hp, tansBuildWith_decode h hs hk] at hbits ⊢
  set nb := P.tableLog - Nat.log2 (freq s + k) with hnb
  have hentry : decodeEntryOf P freq (s, k) = ⟨UInt8.ofNat s, nb, (freq s + k) <<< nb⟩ := rfl
  rw [hentry] at hbits hbase htop ⊢
  simp only at hbits hbase htop ⊢
  have hsym : (UInt8.ofNat s).toNat = s := UInt8.toNat_ofNat_of_lt' hs
  set X := (freq s + k) <<< nb + bits with hXdef
  have hX : P.InRange X := ⟨by omega, by omega⟩
  have hf : 0 < freq s := by omega
  -- the state taken down again is the number of the occurrence
  have hdown : X >>> nb = freq s + k := by
    rw [hXdef, Nat.shiftRight_eq_div_pow, Nat.shiftLeft_eq, Nat.add_comm, Nat.add_mul_div_right _ _ (by positivity),
      Nat.div_eq_of_lt hbits, Nat.zero_add]
  have hlow : X % 2 ^ nb = bits := by
    rw [hXdef, Nat.shiftLeft_eq, Nat.add_comm, Nat.add_mul_mod_self_right, Nat.mod_eq_of_lt hbits]
  have hshift : t.nb s X = nb := Ans.shift_unique (shiftRight_nb_bounds h hs hf hX) (by rw [hdown]; omega)
  have hplace : t.place s X = cumul freq s + k := by
    rw [place_eq h hs hf hX, hshift, hdown, Nat.add_sub_cancel_left]
  rw [hsym]
  refine ⟨hf, hX, ?_⟩
  rw [Table.encodeTo, hsym, hshift, land_low, hlow, hplace,
    tansBuildWith_encodeState h (cumul_add_lt_size hsum hs hk), ← hp, Nat.add_sub_cancel' hge]

/-- **A built table inverts itself.** -/
theorem tansBuildWith_inverse (h : tansBuildWith P freq = some t) : t.Inverse P freq := by
  refine ⟨encodeState_bijOn h, card_slots h, fun s X hf hX => ?_, fun Y hY bits hbits => ?_⟩
  · obtain ⟨Y, nb, hto, hrest⟩ := encodeTo_decode h hf hX
    exact ⟨Y, nb, hto, encodeStep_eq_encodeTo hto, hrest⟩
  refine ⟨((t.decode (Y - P.size)).symbol, (t.decode (Y - P.size)).nextStateBase + bits),
    encodeTo_of_decode h hY hbits, ?_⟩
  rintro ⟨s, X⟩ ⟨hf, hX, hto⟩
  obtain ⟨Y', nb, hto', -, -, -, hsym, -, hback⟩ := encodeTo_decode h hf hX
  rw [hto] at hto'
  obtain ⟨rfl, rfl, rfl⟩ : Y = Y' ∧ _ = nb ∧ bits = _ := by simpa using hto'
  rw [hsym, hback]

/-- **No field is cut short**: the entries fit in the 16 and 8 bits they are stored in. -/
theorem tansBuildWith_fields (h : tansBuildWith P freq = some t) :
    (∀ s < 256, (t.encode s).freq < 2 ^ 16 ∧ (t.encode s).lower < 2 ^ 16 ∧ (t.encode s).cumul < 2 ^ 16 ∧
      (t.encode s).nbHi < 2 ^ 8) ∧
    ∀ i < P.size, t.encodeState i < 2 ^ 16 ∧ (t.decode i).nextStateBase < 2 ^ 16 ∧ (t.decode i).nbBits < 2 ^ 8 := by
  obtain ⟨hsum, ht⟩ := tansBuildWith_eq_some h
  have hsize := P.size_le
  have hlog := P.log_le
  constructor
  · intro s hs
    by_cases hf : freq s = 0
    · rw [ht]
      simp [buildEncode, hf]
    · have hle := freq_le_size hsum hs
      have hcum := cumul_mono freq (show s ≤ 256 by omega)
      have htwo := P.two_size
      obtain ⟨-, hlower⟩ := Ans.base_bounds (R := P.tableLog) (Nat.pos_of_ne_zero hf) (by omega)
      have hpos : 0 < 2 ^ (P.tableLog - Nat.log2 (freq s)) := by positivity
      rw [tansBuildWith_encode h hs (Nat.pos_of_ne_zero hf)]
      simp only
      omega
  · intro i hi
    obtain ⟨-, hslot, hbits⟩ := (tansBuildWith_sound h).slot i hi
    have hpos : 0 < 2 ^ (t.decode i).nbBits := by positivity
    have hwalk := @Ans.walk_lt P.size P.spreadStep P.size_pos i
    rw [tansBuildWith_encodeState h hi]
    omega

end Inverse

theorem tansBuildWith_of_sum {P : TansParams} {freq : Freq} (h : cumul freq 256 = P.size) :
    ∃ t, tansBuildWith P freq = some t := by
  rw [tansBuildWith, if_neg (by simpa using h)]
  exact ⟨_, rfl⟩

/-- **The builders make tables that invert each other**, of every frequency table with the right sum. -/
theorem tansBuild_inverse (freq : Freq) :
    (cumul freq 256 = 4096 → ∃ t, tansBuild freq = some t ∧ t.Inverse tans12 freq) ∧
      (cumul freq 256 = 1024 → ∃ t, tansBuild10 freq = some t ∧ t.Inverse tans10 freq) := by
  constructor
  · intro hsum
    obtain ⟨t, ht⟩ := tansBuildWith_of_sum (hsum.trans size_tans12.symm)
    exact ⟨t, ht, tansBuildWith_inverse ht⟩
  · intro hsum
    obtain ⟨t, ht⟩ := tansBuildWith_of_sum (hsum.trans size_tans10.symm)
    exact ⟨t, ht, tansBuildWith_inverse ht⟩

/-- Symbols of four frequencies, for both widths. -/
theorem tansBuild_inverse_four :
    (∃ t, tansBuild (fun s => if s = 7 then 3900 else if s = 9 then 180 else if s < 4 then 4 else 0) = some t ∧
      t.Inverse tans12 fun s => if s = 7 then 3900 else if s = 9 then 180 else if s < 4 then 4 else 0) ∧
    ∃ t, tansBuild10 (fun s => if s = 7 then 900 else if s = 9 then 120 else if s < 4 then 1 else 0) = some t ∧
      t.Inverse tans10 fun s => if s = 7 then 900 else if s = 9 then 120 else if s < 4 then 1 else 0 :=
  ⟨(tansBuild_inverse _).1 (by decide +kernel), (tansBuild_inverse _).2 (by decide +kernel)⟩

end Netc
