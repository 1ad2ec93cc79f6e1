/-
# Symbols a table does not have

`netc_tans_encode` and `netc_tans_encode_x2` do not look whether a symbol occurs in
their table, as the other encoders do. The entry of a symbol that does not is all
zero, so that the step reads `encode_state` at the state itself, behind the end
of the array. The two encoders are given here with that access checked: they
stay in the array, and report failure for absent symbols, just on packets
that have none (`tansEncode_reports_iff`).

Key definitions: `encodeStepChk`, `tansEncodeChk`, `tansEncodeX2Chk`, `Reports`, `ReportsX2`.
Key theorems: `tansEncode_reports_iff`.
-/
import Netc.Tans.Roundtrip

namespace Netc

/-! ### The encoders with their array access checked -/

/-- One step of an encoder that does not look for absent symbols; `encode_state` is read after the bits are written. -/
def encodeStepChk (tbl : Table) (sym : UInt8) (X : ℕ) (w : Bsw) : Chk (Except Bsw (ℕ × Bsw)) :=
  match encodeStep false tbl sym X w with
  | .error w => .ok (.error w)
  | .ok p => do
    Chk.index (tbl.place sym.toNat X) tans12.size
    return .ok p

/-- The loop of `netc_tans_encode`. -/
def encodeRunChk (tbl : Table) : List UInt8 → ℕ → Bsw → Chk (Except Bsw (ℕ × Bsw))
  | [], X, w => .ok (.ok (X, w))
  | b :: src, X, w => do
    match ← encodeRunChk tbl src X w with
    | .error w => return .error w
    | .ok (X, w) => encodeStepChk tbl b X w

/-- `netc_tans_encode` -/
def tansEncodeChk (tbl : Table) (src : List UInt8) (w : Bsw) (X : ℕ) : Chk (ℕ × Bsw) :=
  if !tbl.valid || src.isEmpty then .ok (0, w)
  else do
    let r ← encodeRunChk tbl src (startState tans12 X) w
    return encodeReturn r

/-- The loop of `netc_tans_encode_x2`. -/
def encodeX2RunChk (tbl : Table) : List UInt8 → Bsw → Chk (Except Bsw (ℕ × ℕ × Bsw))
  | [], w => .ok (.ok (tans12.size, tans12.size, w))
  | [a], w => do
    match ← encodeStepChk tbl a tans12.size w with
    | .error w => return .error w
    | .ok (X0, w) => return .ok (X0, tans12.size, w)
  | a :: b :: src, w => do
    match ← encodeX2RunChk tbl src w with
    | .error w => return .error w
    | .ok (X0, X1, w) =>
      match ← encodeStepChk tbl b X1 w with
      | .error w => return .error w
      | .ok (X1, w) =>
        match ← encodeStepChk tbl a X0 w with
        | .error w => return .error w
        | .ok (X0, w) => return .ok (X0, X1, w)

/-- `netc_tans_encode_x2` -/
def tansEncodeX2Chk (tbl : Table) (src : List UInt8) (w : Bsw) : Chk (Except Bsw (ℕ × ℕ × Bsw)) :=
  if !tbl.valid || src.length < 2 then .ok (.error w) else encodeX2RunChk tbl src w

/-! ### Reporting -/

/-- `netc_tans_encode` stays in its table on this packet, whatever the writer and the state it starts from,
and returns 0 if some symbol does not occur. -/
def Reports (t : Table) (src : List UInt8) : Prop :=
  ∀ w X, X < 8192 → ∃ r, tansEncodeChk t src w X = .ok r ∧ ((∃ b ∈ src, t.freq b.toNat = 0) → r.1 = 0)

/-- `netc_tans_encode_x2` stays in its table on this packet, whatever the writer, and returns -1 if some
symbol does not occur. -/
def ReportsX2 (t : Table) (src : List UInt8) : Prop :=
  ∀ w, ∃ r, tansEncodeX2Chk t src w = .ok r ∧ ((∃ b ∈ src, t.freq b.toNat = 0) → ∃ w', r = .error w')

section Steps

variable {t : Table}

/-- The entry of a symbol that occurs has its frequency. -/
theorem encode_freq_pos {freq : Freq} (ht : tansBuild freq = some t) {b : UInt8} (hf : 0 < freq b.toNat) :
    0 < (t.encode b.toNat).freq := by
  rw [tansBuildWith_encode_freq ht (UInt8.toNat_lt b)]
  exact hf

/-- A symbol that occurs is coded within the array. -/
theorem encodeStepChk_eq (ht : t.Sound tans12) {b : UInt8} (hf : 0 < (t.encode b.toNat).freq) {X : ℕ}
    (hX : tans12.InRange X) (w : Bsw) : encodeStepChk t b X w = .ok (encodeStep false t b X w) ∧
      ∀ X' w', encodeStep false t b X w = .ok (X', w') → tans12.InRange X' := by
  obtain ⟨hplace, hr, -⟩ := ht.code b X hf hX
  refine ⟨?_, fun X' w' h => ?_⟩
  · rw [encodeStepChk]
    rcases encodeStep false t b X w with w' | p
    · rfl
    · rw [Chk.index_of_lt hplace]
      rfl
  · rw [encodeStep_state h]
    exact hr

/-- A symbol that does not occur is looked for behind the array. -/
theorem encodeStepChk_absent {freq : Freq} (ht : tansBuild freq = some t) {b : UInt8} (hf : freq b.toNat = 0) {X : ℕ}
    (hX : tans12.InRange X) (w : Bsw) : encodeStepChk t b X w = .error .index := by
  have hentry : t.encode b.toNat = ⟨0, 0, 0, 0⟩ := by
    obtain ⟨-, rfl⟩ := tansBuildWith_eq_some ht
    simp [buildEncode, hf]
  have hnb : t.nb b.toNat X = 0 := by simp [Table.nb, hentry]
  have hlt : X < 2 ^ 32 := by
    have := hX.2
    have := tans12.size_le
    omega
  have hplace : t.place b.toNat X = X := by
    rw [Table.place, hnb, hentry, subU32_of_le (Nat.zero_le _) (by simpa using hlt)]
    simp
  have hstep : encodeStep false t b X w = .ok (t.encodeState X, w) := by
    simp only [encodeStep, Bool.false_and, Bool.false_eq_true, if_false, hnb, hplace, Nat.lt_irrefl]
  have hge : ¬X < tans12.size := not_lt.mpr hX.1
  rw [encodeStepChk, hstep, hplace]
  simp only [Chk.index, if_neg hge, Exc.error_bind]

theorem encodeRunChk_eq (ht : t.Sound tans12) {X : ℕ} (hX : tans12.InRange X) (w : Bsw) : ∀ (src : List UInt8)
    (i : ℕ) (prev : UInt8), (∀ b ∈ src, 0 < (t.encode b.toNat).freq) →
    encodeRunChk t src X w = .ok (encodeRun false (fun _ _ => some t) i prev src X w) ∧
      ∀ X' w', encodeRun false (fun _ _ => some t) i prev src X w = .ok (X', w') → tans12.InRange X'
  | [], i, prev, _ => by
    refine ⟨rfl, fun X' w' h => ?_⟩
    obtain ⟨rfl, -⟩ := Prod.mk.inj (Except.ok.inj h)
    exact hX
  | b :: src, i, prev, hf => by
    obtain ⟨h1, h2⟩ := encodeRunChk_eq ht hX w src (i + 1) b (fun c hc => hf c (by simp [hc]))
    rw [encodeRunChk, h1, Exc.ok_bind, encodeRun]
    rcases hrun : encodeRun false (fun _ _ => some t) (i + 1) b src X w with w₁ | ⟨X₁, w₁⟩
    · exact ⟨rfl, by simp⟩
    · exact encodeStepChk_eq ht (hf b (by simp)) (h2 X₁ w₁ hrun) w₁

/-- With room, the run over a packet with an absent symbol leaves the array. -/
theorem encodeRunChk_absent {freq : Freq} (ht : tansBuild freq = some t) {X : ℕ} (hX : tans12.InRange X) {w : Bsw}
    {T V : ℕ} (hw : w.Holds T V) : ∀ src : List UInt8, (∃ b ∈ src, freq b.toNat = 0) →
    (T + tans12.tableLog * src.length) / 8 + 1 ≤ w.cap → encodeRunChk t src X w = .error .index
  | [], h, _ => by simp at h
  | b :: src, h, hcap => by
    rw [List.length_cons, Nat.mul_add, Nat.mul_one] at hcap
    rw [encodeRunChk]
    by_cases hsrc : ∃ c ∈ src, freq c.toNat = 0
    · rw [encodeRunChk_absent ht hX hw src hsrc (by omega), Exc.error_bind]
    · -- the first byte is the last one the encoder comes to
      have hb : freq b.toNat = 0 := by
        obtain ⟨c, hc, hc0⟩ := h
        rcases List.mem_cons.mp hc with rfl | hc
        · exact hc0
        · exact absurd ⟨c, hc, hc0⟩ hsrc
      have hs := tansBuildWith_sound ht
      have hf : ∀ c ∈ src, 0 < (t.encode c.toNat).freq := by
        intro c hc
        exact encode_freq_pos ht (Nat.pos_of_ne_zero fun h0 => hsrc ⟨c, hc, h0⟩)
      obtain ⟨X₁, w₁, T₁, V₁, hrun, hX₁, -⟩ := @encodeRun_ok tans12 false t T V w hs X hX hw src 1 b hf (by omega)
      rw [(encodeRunChk_eq hs hX w src 1 b hf).1, hrun, Exc.ok_bind]
      exact encodeStepChk_absent ht hb hX₁ w₁

theorem encodeX2RunChk_eq (ht : t.Sound tans12) (w : Bsw) : ∀ src : List UInt8,
    (∀ b ∈ src, 0 < (t.encode b.toNat).freq) → encodeX2RunChk t src w = .ok (encodeX2Run t src w) ∧
      ∀ X0 X1 w', encodeX2Run t src w = .ok (X0, X1, w') → tans12.InRange X0 ∧ tans12.InRange X1
  | [], _ => by
    refine ⟨rfl, fun X0 X1 w' h => ?_⟩
    obtain ⟨rfl, rfl, -⟩ := Except.ok.inj h
    exact ⟨tans12.inRange_size, tans12.inRange_size⟩
  | [a], hf => by
    obtain ⟨h1, h2⟩ := encodeStepChk_eq ht (hf a (by simp)) tans12.inRange_size w
    rw [encodeX2RunChk, h1, Exc.ok_bind, encodeX2Run]
    rcases hstep : encodeStep false t a tans12.size w with w₁ | ⟨X, w₁⟩
    · exact ⟨rfl, by simp⟩
    · refine ⟨rfl, fun X0 X1 w' h => ?_⟩
      obtain ⟨rfl, rfl, -⟩ := Except.ok.inj h
      exact ⟨h2 X w₁ hstep, tans12.inRange_size⟩
  | a :: b :: src, hf => by
    obtain ⟨h1, h2⟩ := encodeX2RunChk_eq ht w src (fun c hc => hf c (by simp [hc]))
    rw [encodeX2RunChk, h1, Exc.ok_bind, encodeX2Run]
    rcases hrun : encodeX2Run t src w with w₁ | ⟨Y0, Y1, w₁⟩
    · exact ⟨rfl, by simp⟩
    · obtain ⟨hY0, hY1⟩ := h2 Y0 Y1 w₁ hrun
      obtain ⟨h3, h4⟩ := encodeStepChk_eq ht (hf b (by simp)) hY1 w₁
      simp only [h3, Exc.ok_bind]
      rcases hb : encodeStep false t b Y1 w₁ with w₂ | ⟨Z1, w₂⟩
      · exact ⟨rfl, by simp⟩
      · obtain ⟨h5, h6⟩ := encodeStepChk_eq ht (hf a (by simp)) hY0 w₂
        simp only [h5, Exc.ok_bind]
        rcases ha : encodeStep false t a Y0 w₂ with w₃ | ⟨Z0, w₃⟩
        · exact ⟨rfl, by simp⟩
        · refine ⟨rfl, fun X0 X1 w' h => ?_⟩
          obtain ⟨rfl, rfl, -⟩ := Except.ok.inj h
          exact ⟨h6 Z0 w₃ ha, h4 Z1 w₂ hb⟩

/-- With room, so does the run with two states. -/
theorem encodeX2RunChk_absent {freq : Freq} (ht : tansBuild freq = some t) {w : Bsw} {T V : ℕ} (hw : w.Holds T V) :
    ∀ src : List UInt8, (∃ b ∈ src, freq b.toNat = 0) → (T + tans12.tableLog * src.length) / 8 + 1 ≤ w.cap →
    encodeX2RunChk t src w = .error .index
  | [], h, _ => by simp at h
  | [a], h, _ => by
    have ha : freq a.toNat = 0 := by simpa using h
    rw [encodeX2RunChk, encodeStepChk_absent ht ha tans12.inRange_size, Exc.error_bind]
  | a :: b :: src, h, hcap => by
    rw [List.length_cons, List.length_cons, Nat.mul_add, Nat.mul_add, Nat.mul_one] at hcap
    rw [encodeX2RunChk]
    by_cases hsrc : ∃ c ∈ src, freq c.toNat = 0
    · rw [encodeX2RunChk_absent ht hw src hsrc (by omega), Exc.error_bind]
    · have hs := tansBuildWith_sound ht
      have hf : ∀ c ∈ src, 0 < (t.encode c.toNat).freq := by
        intro c hc
        exact encode_freq_pos ht (Nat.pos_of_ne_zero fun h0 => hsrc ⟨c, hc, h0⟩)
      obtain ⟨Y0, Y1, w₁, T₁, V₁, hrun, hY0, hY1, hcap₁, hw₁, hT₁, -⟩ := encodeX2Run_ok hs hw src hf (by omega)
      rw [(encodeX2RunChk_eq hs w src hf).1, hrun, Exc.ok_bind]
      simp only
      by_cases hb : freq b.toNat = 0
      · rw [encodeStepChk_absent ht hb hY1, Exc.error_bind]
      · have ha : freq a.toNat = 0 := by
          obtain ⟨c, hc, hc0⟩ := h
          rcases List.mem_cons.mp hc with rfl | hc
          · exact hc0
          · rcases List.mem_cons.mp hc with rfl | hc
            · exact absurd hc0 hb
            · exact absurd ⟨c, hc, hc0⟩ hsrc
        have hfb := encode_freq_pos ht (Nat.pos_of_ne_zero hb)
        have hnb := hs.nb_le b.toNat Y1
        obtain ⟨Z1, w₂, hstep⟩ := @encodeStep_ok false t T₁ V₁ w₁ b hfb Y1 hw₁ (by omega)
        rw [(encodeStepChk_eq hs hfb hY1 w₁).1, hstep, Exc.ok_bind]
        simp only
        rw [encodeStepChk_absent ht ha hY0, Exc.error_bind]

end Steps

/-! ### Whole packets -/

section Packets

variable {freq : Freq} {t : Table} {src : List UInt8}

/-- Twelve bits for each symbol are room enough for every packet. -/
theorem room_of_cap {cap : ℕ} (hcap : 12 * src.length / 8 + 1 ≤ cap) :
    (0 + tans12.tableLog * src.length) / 8 + 1 ≤ (bswInit cap).cap := by
  simp only [bswInit, tans12]
  omega

/-- `netc_tans_encode` leaves the array on a packet with an absent symbol. -/
theorem tansEncodeChk_absent (ht : tansBuild freq = some t) (hsrc : ∃ b ∈ src, freq b.toNat = 0) {cap : ℕ}
    (hcap : 12 * src.length / 8 + 1 ≤ cap) : tansEncodeChk t src (bswInit cap) 4096 = .error .index := by
  have hempty : src.isEmpty = false := by
    obtain ⟨b, hb, -⟩ := hsrc
    rw [List.isEmpty_eq_false_iff_exists_mem]
    exact ⟨b, hb⟩
  have hrun := encodeRunChk_absent ht tans12.inRange_size (bswInit_holds cap) src hsrc (room_of_cap hcap)
  rw [tansEncodeChk, (tansBuildWith_sound ht).valid, hempty, if_neg (by simp), ← size_tans12, startState_size, hrun,
    Exc.error_bind]

/-- `netc_tans_encode_x2` does, on those long enough for it. -/
theorem tansEncodeX2Chk_absent (ht : tansBuild freq = some t) (hsrc : ∃ b ∈ src, freq b.toNat = 0)
    (hlen : ¬src.length < 2) {cap : ℕ} (hcap : 12 * src.length / 8 + 1 ≤ cap) :
    tansEncodeX2Chk t src (bswInit cap) = .error .index := by
  have hlen' : decide (src.length < 2) = false := decide_eq_false hlen
  have hrun := encodeX2RunChk_absent ht (bswInit_holds cap) src hsrc (room_of_cap hcap)
  rw [tansEncodeX2Chk, (tansBuildWith_sound ht).valid, hlen', if_neg (by simp), hrun]

theorem not_reports_of_absent (ht : tansBuild freq = some t) (hsrc : ∃ b ∈ src, freq b.toNat = 0) :
    ¬Reports t src := by
  intro h
  obtain ⟨r, hr, -⟩ := h (bswInit (12 * src.length / 8 + 1)) 4096 (by norm_num)
  rw [tansEncodeChk_absent ht hsrc le_rfl] at hr
  cases hr

theorem not_reportsX2_of_absent (ht : tansBuild freq = some t) (hsrc : ∃ b ∈ src, freq b.toNat = 0)
    (hlen : ¬src.length < 2) : ¬ReportsX2 t src := by
  intro h
  obtain ⟨r, hr, -⟩ := h (bswInit (12 * src.length / 8 + 1))
  rw [tansEncodeX2Chk_absent ht hsrc hlen le_rfl] at hr
  cases hr

/-- A packet all of whose symbols occur has none that is absent. -/
theorem not_absent_of_occurs (ht : tansBuild freq = some t) (h : ∀ b ∈ src, 0 < freq b.toNat) :
    ¬∃ b ∈ src, t.freq b.toNat = 0 := by
  rintro ⟨b, hb, h0⟩
  rw [tansBuildWith_freq ht] at h0
  exact (h b hb).ne' h0

theorem reports_of_occurs (ht : tansBuild freq = some t) (h : ∀ b ∈ src, 0 < freq b.toNat) : Reports t src := by
  intro w X hX
  have hX' : tans12.InRange (startState tans12 X) := by
    rw [TansParams.InRange, startState, size_tans12]
    split <;> omega
  have hf : ∀ b ∈ src, 0 < (t.encode b.toNat).freq := fun b hb => encode_freq_pos ht (h b hb)
  rw [tansEncodeChk, (encodeRunChk_eq (tansBuildWith_sound ht) hX' w src 0 0 hf).1]
  split
  · exact ⟨_, rfl, fun _ => rfl⟩
  · exact ⟨_, rfl, fun h0 => absurd h0 (not_absent_of_occurs ht h)⟩

theorem reportsX2_of_occurs (ht : tansBuild freq = some t) (h : ∀ b ∈ src, 0 < freq b.toNat) : ReportsX2 t src := by
  intro w
  have hf : ∀ b ∈ src, 0 < (t.encode b.toNat).freq := fun b hb => encode_freq_pos ht (h b hb)
  rw [tansEncodeX2Chk, (encodeX2RunChk_eq (tansBuildWith_sound ht) w src hf).1]
  split
  · exact ⟨_, rfl, fun _ => ⟨w, rfl⟩⟩
  · exact ⟨_, rfl, fun h0 => absurd h0 (not_absent_of_occurs ht h)⟩

/-- A packet too short for two states is refused at once. -/
theorem reportsX2_of_short (hlen : src.length < 2) : ReportsX2 t src := by
  intro w
  refine ⟨.error w, ?_, fun _ => ⟨w, rfl⟩⟩
  rw [tansEncodeX2Chk, if_pos (by simp [hlen])]

end Packets

/-- **When the two encoders stay in their table and report absent symbols**: `netc_tans_encode` on packets all of
whose symbols occur, `netc_tans_encode_x2` on these and on those too short for it. -/
theorem tansEncode_reports_iff (freq : Freq) (t : Table) (ht : tansBuild freq = some t) (src : List UInt8) :
    (Reports t src ↔ ∀ b ∈ src, 0 < freq b.toNat) ∧
    (ReportsX2 t src ↔ src.length < 2 ∨ ∀ b ∈ src, 0 < freq b.toNat) := by
  have habsent : (¬∀ b ∈ src, 0 < freq b.toNat) → ∃ b ∈ src, freq b.toNat = 0 := by
    intro h
    push Not at h
    obtain ⟨b, hb, h0⟩ := h
    exact ⟨b, hb, by omega⟩
  refine ⟨⟨fun h => ?_, reports_of_occurs ht⟩, fun h => ?_, ?_⟩
  · by_contra hall
    exact not_reports_of_absent ht (habsent hall) h
  · by_contra hno
    obtain ⟨hlen, hall⟩ := not_or.mp hno
    exact not_reportsX2_of_absent ht (habsent hall) hlen h
  · rintro (hlen | h)
    · exact reportsX2_of_short hlen
    · exact reportsX2_of_occurs ht h

/-- Only byte 0 occurs. -/
def onlyZero : Freq := fun s => if s = 0 then 4096 else 0

theorem onlyZero_builds : ∃ t, tansBuild onlyZero = some t := by
  have hsum : ∀ n, cumul onlyZero (n + 1) = 4096 := by
    intro n
    induction n with
    | zero => rfl
    | succ n ih => rw [cumul_succ, ih, onlyZero, if_neg (by omega)]
  have h256 : cumul onlyZero 256 = tans12.size := by rw [hsum 255, size_tans12]
  rw [tansBuild, tansBuildWith, if_neg (by simpa using h256)]
  exact ⟨_, rfl⟩

theorem tansEncode_reports_zeros : ∃ t, tansBuild onlyZero = some t ∧ Reports t [0, 0] ∧ ReportsX2 t [0, 0] := by
  obtain ⟨t, ht⟩ := onlyZero_builds
  have h := tansEncode_reports_iff onlyZero t ht [0, 0]
  exact ⟨t, ht, h.1.mpr (by simp [onlyZero]), h.2.mpr (.inr (by simp [onlyZero]))⟩

/-- Byte 1 is looked for at 4096, behind the array. -/
theorem tansEncode_absent : ∃ t, tansBuild onlyZero = some t ∧
    tansEncodeChk t [1] (bswInit 8) 4096 = .error .index ∧ ¬Reports t [1] ∧
    tansEncodeX2Chk t [1, 0] (bswInit 8) = .error .index ∧ ¬ReportsX2 t [1, 0] := by
  obtain ⟨t, ht⟩ := onlyZero_builds
  have h1 : ∃ b ∈ ([1] : List UInt8), onlyZero b.toNat = 0 := ⟨1, by decide⟩
  have h10 : ∃ b ∈ ([1, 0] : List UInt8), onlyZero b.toNat = 0 := ⟨1, by decide⟩
  exact ⟨t, ht, tansEncodeChk_absent ht h1 (by decide), not_reports_of_absent ht h1,
    tansEncodeX2Chk_absent ht h10 (by decide) (by decide), not_reportsX2_of_absent ht h10 (by decide)⟩

end Netc
