/-
# Frequencies for the tables

`freq_normalize` of `netc_dict.c`, its copy `freq_normalize_adaptive` of
`netc_adaptive.c`, and `netc_freq_rescale_12_to_10` of `netc_tans.c`. Counts
are scaled to sum to the table size: every symbol has one slot, the other 3840
go to the symbols in proportion, and the largest takes what rounding left.

Key definitions: `freqNormalize`, `freqRescale12To10`.
Key theorems: `freqNormalize_pos`, `cumul_freqNormalize`.
-/
import Netc.Tans.Table

namespace Netc

/-! ### Normalisation -/

/-- The variables of the second phase of `freq_normalize`. -/
structure NormState where
  out : Freq
  tableSum : ℕ
  maxSym : ℕ
  maxVal : ℕ

/-- The share of symbol `s` in the 3840 slots. -/
def bonus (raw : Freq) (total s : ℕ) : ℕ := min (raw s * 3840 % 2 ^ 64 / total) 0xFFFE

/-- One round of the loop over the symbols. -/
def normStep (raw : Freq) (total : ℕ) (st : NormState) (s : ℕ) : NormState :=
  if raw s = 0 then st
  else
    let v := 1 + bonus raw total s
    let st := { st with out := Function.update st.out s v, tableSum := st.tableSum + bonus raw total s }
    if st.maxVal < v then { st with maxSym := s, maxVal := v } else st

/-- The loop over the symbols. -/
def normLoop (raw : Freq) (total : ℕ) : NormState :=
  (List.range 256).foldl (normStep raw total) ⟨fun _ => 1, 256, 0, 1⟩

/-- `excess` taken from the symbols in turn, one from each that has more than one. -/
def spreadExcess (out : Freq) (excess : ℕ) : Freq :=
  ((List.range 256).foldl (fun (st : Freq × ℕ) s =>
    if 0 < st.2 ∧ 1 < st.1 s then (Function.update st.1 s (st.1 s - 1), st.2 - 1) else st) (out, excess)).1

/-- The correction of the rounding drift on the largest symbol. -/
def normCorrect (st : NormState) : Freq :=
  if st.tableSum < 4096 then
    Function.update st.out st.maxSym (st.out st.maxSym + (4096 - st.tableSum))
  else if 4096 < st.tableSum then
    let excess := st.tableSum - 4096
    if excess % 2 ^ 16 + 1 < st.out st.maxSym then
      Function.update st.out st.maxSym (st.out st.maxSym - excess % 2 ^ 16)
    else spreadExcess st.out excess
  else st.out

/-- `freq_normalize` -/
def freqNormalize (raw : Freq) (total : ℕ) : Freq :=
  if total = 0 then fun _ => 16 else normCorrect (normLoop raw total)

/-- `freq_normalize_adaptive` -/
def freqNormalizeAdaptive (blended : Freq) (total : ℕ) : Freq := freqNormalize blended total

/-! ### Rescaling -/

/-- The variables of `netc_freq_rescale_12_to_10`; `largestSym` has `none` for `-1`. -/
structure RescaleState where
  freq10 : Freq
  total10 : ℕ
  largestSym : Option ℕ
  largestFreq12 : ℕ

/-- One round of the scaling pass. -/
def rescaleStep (freq12 : Freq) (st : RescaleState) (s : ℕ) : RescaleState :=
  if freq12 s = 0 then { st with freq10 := Function.update st.freq10 s 0 }
  else
    let scaled := (freq12 s * 1024 + 2048) / 4096
    let scaled := if scaled = 0 then 1 else scaled
    let st := { st with freq10 := Function.update st.freq10 s (scaled % 2 ^ 16), total10 := st.total10 + scaled }
    if st.largestFreq12 < freq12 s then { st with largestSym := some s, largestFreq12 := freq12 s } else st

/-- One round of the redistribution pass. -/
def redistributeStep (largest : ℕ) (st : Freq × ℤ) (s : ℕ) : Freq × ℤ :=
  if st.2 = 0 ∨ s = largest ∨ st.1 s = 0 then st
  else if 0 < st.2 then (Function.update st.1 s (st.1 s + 1), st.2 - 1)
  else if 1 < st.1 s then (Function.update st.1 s (st.1 s - 1), st.2 + 1)
  else st

/-- `netc_freq_rescale_12_to_10` -/
def freqRescale12To10 (freq12 : Freq) : Option Freq :=
  if cumul freq12 256 ≠ 4096 then none
  else
    let st := (List.range 256).foldl (rescaleStep freq12) ⟨fun _ => 0, 0, none, 0⟩
    match st.largestSym with
    | none => none
    | some largest =>
      let newFreq : ℤ := st.freq10 largest + (1024 - st.total10)
      if newFreq < 1 then
        let freq10 := Function.update st.freq10 largest 1
        some ((List.range 256).foldl (redistributeStep largest) (freq10, 1024 - (cumul freq10 256 : ℤ))).1
      else some (Function.update st.freq10 largest (newFreq.toNat % 2 ^ 16))

/-- The 10-bit table made of a 12-bit one, on both sides of a connection. -/
def table10 (tbl12 : Table) : Option Table := (freqRescale12To10 tbl12.freq).bind tansBuild10

/-! ### What normalisation gives -/

section Normalize

variable {raw : Freq} {total : ℕ}

/-- The loop over the symbols gave each of the first `n` its share. -/
structure NormInv (raw : Freq) (total n : ℕ) (st : NormState) : Prop where
  out_eq : ∀ s, st.out s = 1 + if s < n then bonus raw total s else 0
  sum_eq : st.tableSum = 256 + cumul (bonus raw total) n
  max_lt : st.maxSym < 256

theorem bonus_zero {s : ℕ} (h : raw s = 0) : bonus raw total s = 0 := by simp [bonus, h]

theorem lt_succ_of_ne {s n : ℕ} (h : s ≠ n) : s < n + 1 ↔ s < n := by omega

theorem normStep_inv {n : ℕ} (hn : n < 256) {st : NormState} (h : NormInv raw total n st) :
    NormInv raw total (n + 1) (normStep raw total st n) := by
  obtain ⟨h1, h2, h3⟩ := h
  have hcum : cumul (bonus raw total) (n + 1) = cumul (bonus raw total) n + bonus raw total n := cumul_succ ..
  rw [normStep]
  split
  · next h0 =>
    refine ⟨fun s => ?_, by rw [h2, hcum, bonus_zero h0, Nat.add_zero], h3⟩
    rw [h1]
    by_cases hs : s = n
    · subst hs
      simp [bonus_zero h0]
    · simp only [lt_succ_of_ne hs]
  · have hout : ∀ s, Function.update st.out n (1 + bonus raw total n) s
        = 1 + if s < n + 1 then bonus raw total s else 0 := by
      intro s
      by_cases hs : s = n
      · subst hs
        simp
      · simp only [Function.update_of_ne hs, h1, lt_succ_of_ne hs]
    simp only
    split
    · exact ⟨hout, by simp only; omega, hn⟩
    · exact ⟨hout, by simp only; omega, h3⟩

theorem normLoop_inv (raw : Freq) (total : ℕ) : NormInv raw total 256 (normLoop raw total) := by
  have key : ∀ n ≤ 256, NormInv raw total n ((List.range n).foldl (normStep raw total) ⟨fun _ => 1, 256, 0, 1⟩) := by
    intro n
    induction n with
    | zero => exact fun _ => ⟨fun s => by simp, by simp [cumul], by norm_num⟩
    | succ n ih =>
      intro hn
      rw [List.range_succ, List.foldl_append]
      exact normStep_inv hn (ih (by omega))
  exact key 256 (Nat.le_refl _)

theorem spreadExcess_pos {out : Freq} (h : ∀ s, 0 < out s) (excess : ℕ) : ∀ s, 0 < spreadExcess out excess s := by
  have key : ∀ (l : List ℕ) (st : Freq × ℕ), (∀ s, 0 < st.1 s) → ∀ s, 0 < (l.foldl (fun (st : Freq × ℕ) s =>
      if 0 < st.2 ∧ 1 < st.1 s then (Function.update st.1 s (st.1 s - 1), st.2 - 1) else st) st).1 s := by
    intro l
    induction l with
    | nil => exact fun st h => h
    | cons a l ih =>
      intro st h
      rw [List.foldl_cons]
      refine ih _ fun s => ?_
      split
      · by_cases hs : s = a
        · subst hs
          simp only [Function.update_self]
          omega
        · simp only [Function.update_of_ne hs]
          exact h s
      · exact h s
  exact key _ _ h

/-- **Every symbol keeps a slot**, whatever the counts. -/
theorem freqNormalize_pos (raw : Freq) (total s : ℕ) : 0 < freqNormalize raw total s := by
  rw [freqNormalize]
  split
  · norm_num
  · obtain ⟨hout, -, -⟩ := normLoop_inv raw total
    set st := normLoop raw total
    have hpos : ∀ s, 0 < st.out s := fun s => by rw [hout]; omega
    have hup : ∀ v, 0 < v → 0 < Function.update st.out st.maxSym v s := by
      intro v hv
      by_cases hs : s = st.maxSym
      · rw [hs, Function.update_self]
        exact hv
      · rw [Function.update_of_ne hs]
        exact hpos s
    rw [normCorrect]
    split
    · exact hup _ (by have := hpos st.maxSym; omega)
    · split
      · simp only
        split
        · exact hup _ (by omega)
        · exact spreadExcess_pos hpos _ s
      · exact hpos s

theorem cumul_const (c n : ℕ) : cumul (fun _ => c) n = n * c := by simp [cumul]

theorem cumul_add (f g : Freq) : ∀ n, cumul (fun s => f s + g s) n = cumul f n + cumul g n
  | 0 => rfl
  | n + 1 => by
    rw [cumul_succ, cumul_succ, cumul_succ, cumul_add f g n]
    omega

theorem cumul_congr {f g : Freq} {n : ℕ} (h : ∀ s < n, f s = g s) : cumul f n = cumul g n := by
  rw [cumul, cumul]
  congr 1
  exact List.map_congr_left fun s hs => h s (List.mem_range.mp hs)

theorem cumul_le_mul {f : Freq} {c n : ℕ} (h : ∀ s < n, f s ≤ c) : cumul f n ≤ n * c := by
  induction n with
  | zero => simp [cumul]
  | succ n ih =>
    have hn := h n (Nat.lt_succ_self n)
    have hrest := ih fun s hs => h s (Nat.lt_succ_of_lt hs)
    rw [cumul_succ, Nat.succ_mul]
    omega

/-- A sum with one term replaced. -/
theorem cumul_update (f : Freq) {s : ℕ} (v : ℕ) : ∀ {n : ℕ}, s < n →
    cumul (Function.update f s v) n + f s = cumul f n + v
  | n + 1, h => by
    rw [cumul_succ, cumul_succ]
    by_cases hs : s = n
    · subst hs
      rw [Function.update_self, cumul_congr (g := f) fun t ht => Function.update_of_ne (by omega) ..]
      omega
    · have ih := cumul_update f v (show s < n by omega)
      rw [Function.update_of_ne (Ne.symm hs)]
      omega

theorem cumul_update_add (f : Freq) {s : ℕ} (d : ℕ) {n : ℕ} (h : s < n) :
    cumul (Function.update f s (f s + d)) n = cumul f n + d := by
  have := cumul_update f (f s + d) h
  omega

/-- The shares never take more than the 3840 slots. -/
theorem cumul_bonus_le (ht : 0 < total) : ∀ n, total * cumul (bonus raw total) n ≤ cumul raw n * 3840
  | 0 => by simp [cumul]
  | n + 1 => by
    have ih := cumul_bonus_le ht n
    have h1 : bonus raw total n ≤ raw n * 3840 / total :=
      (min_le_left _ _).trans (Nat.div_le_div_right (Nat.mod_le _ _))
    have h2 : total * bonus raw total n ≤ raw n * 3840 :=
      (Nat.mul_le_mul_left _ h1).trans (Nat.mul_div_le _ _)
    rw [cumul_succ, cumul_succ, mul_add, add_mul]
    omega

/-- **Normalised counts sum to the table size** when the total is that of the counts. -/
theorem cumul_freqNormalize (htotal : total = cumul raw 256) : cumul (freqNormalize raw total) 256 = 4096 := by
  rw [freqNormalize]
  split
  · rw [cumul_const]
  · next h0 =>
    obtain ⟨hout, hsum, hmax⟩ := normLoop_inv raw total
    set st := normLoop raw total
    have hle : cumul (bonus raw total) 256 ≤ 3840 := by
      have h := @cumul_bonus_le raw _ (show 0 < total by omega) 256
      rw [← htotal] at h
      exact Nat.le_of_mul_le_mul_left h (by omega)
    have hcum : cumul st.out 256 = st.tableSum := by
      rw [hsum, cumul_congr (g := fun s => 1 + bonus raw total s) fun s hs => by rw [hout, if_pos hs], cumul_add,
        cumul_const]
    rw [normCorrect]
    split
    · rw [cumul_update_add _ _ hmax, hcum]
      omega
    · rw [if_neg (by omega), hcum]
      omega

end Normalize

end Netc
