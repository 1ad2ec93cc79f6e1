/-
# From 12 to 10 bits

What `netc_freq_rescale_12_to_10` makes of a frequency table. Every frequency is divided by four, rounded, and kept at
one at least; the largest symbol takes the difference to 1024, and if it has not that much, the
other symbols give one slot each in a single pass. When many symbols were rounded up that is
not enough: the sum of the result is then above 1024, by as much as
`cumul_rescaled` says, and `netc_tans_build_10` turns the table down.

Key definitions: `rounded`, `largestFreq`, `often`, `RescaleUsable`.
Key theorems: `cumul_rescaled`, `rescale_usable_iff`.
-/
import Netc.Tans.Freq

namespace Netc

/-- A quarter of a frequency, rounded, and at least one if the symbol occurs. -/
def rounded (f : ℕ) : ℕ := if f = 0 then 0 else max 1 ((f + 2) / 4)

/-- The largest frequency of a table. -/
def largestFreq (freq : Freq) : ℕ := (List.range 256).foldl (fun m s => max m (freq s)) 0

/-- How many symbols have a frequency of six at least: those that keep more than one slot. -/
def often (freq : Freq) : ℕ := cumul (fun s => if 6 ≤ freq s then 1 else 0) 256

theorem one_le_rounded {f : ℕ} : 1 ≤ rounded f ↔ 1 ≤ f := by
  rw [rounded]
  split
  · omega
  · omega

theorem one_lt_rounded {f : ℕ} : 1 < rounded f ↔ 6 ≤ f := by
  rw [rounded]
  split <;> omega

/-! ### Scaling -/

section Scale

variable {freq12 : Freq}

/-- The largest of the first `n` frequencies. -/
private def largestTo (freq : Freq) (n : ℕ) : ℕ := (List.range n).foldl (fun m s => max m (freq s)) 0

private theorem largestTo_succ (freq : Freq) (n : ℕ) : largestTo freq (n + 1) = max (largestTo freq n) (freq n) := by
  simp [largestTo, List.range_succ]

/-- What the scaling pass has done after `n` symbols. -/
structure RescaleInv (freq12 : Freq) (n : ℕ) (st : RescaleState) : Prop where
  freq_eq : ∀ s, st.freq10 s = if s < n then rounded (freq12 s) else 0
  total_eq : st.total10 = cumul (fun s => rounded (freq12 s)) n
  largest_eq : st.largestFreq12 = largestTo freq12 n
  sym : ∀ L, st.largestSym = some L → L < n ∧ freq12 L = st.largestFreq12
  none : st.largestSym = none → st.largestFreq12 = 0

theorem scaled_eq (f : ℕ) : (f * 1024 + 2048) / 4096 = (f + 2) / 4 := by omega

theorem rescaleStep_inv {n : ℕ} {st : RescaleState} (hle : freq12 n ≤ 4096) (h : RescaleInv freq12 n st) :
    RescaleInv freq12 (n + 1) (rescaleStep freq12 st n) := by
  have hfreq : ∀ s, Function.update st.freq10 n (rounded (freq12 n)) s
      = if s < n + 1 then rounded (freq12 s) else 0 := by
    intro s
    by_cases hs : s = n
    · rw [hs, Function.update_self, if_pos (Nat.lt_succ_self n)]
    · rw [Function.update_of_ne hs, h.freq_eq]
      simp only [lt_succ_of_ne hs]
  have htotal : st.total10 + rounded (freq12 n) = cumul (fun s => rounded (freq12 s)) (n + 1) := by
    rw [cumul_succ, h.total_eq]
  have hmax := largestTo_succ freq12 n
  rw [← h.largest_eq] at hmax
  have hold : ∀ L, st.largestSym = some L → L < n + 1 ∧ freq12 L = st.largestFreq12 := fun L hL =>
    ⟨Nat.lt_succ_of_lt (h.sym L hL).1, (h.sym L hL).2⟩
  rw [rescaleStep]
  split
  · next h0 =>
    have hr : rounded (freq12 n) = 0 := by rw [h0]; rfl
    rw [hr] at hfreq htotal
    exact ⟨hfreq, htotal, by simp only; omega, hold, h.none⟩
  · next h0 =>
    -- the scaled frequency is the rounded one, and no 16-bit field cuts it short
    have hr : (if (freq12 n * 1024 + 2048) / 4096 = 0 then 1 else (freq12 n * 1024 + 2048) / 4096)
        = rounded (freq12 n) := by
      rw [scaled_eq, rounded, if_neg h0]
      split <;> omega
    have h16 : rounded (freq12 n) % 2 ^ 16 = rounded (freq12 n) := by
      rw [rounded, if_neg h0]
      omega
    simp only [hr, h16]
    split
    · next hlt =>
      refine ⟨hfreq, htotal, by simp only; omega, fun L hL => ?_, fun hL => absurd hL (by simp)⟩
      obtain rfl := Option.some.inj hL
      exact ⟨Nat.lt_succ_self _, rfl⟩
    · next hge => exact ⟨hfreq, htotal, by simp only; omega, hold, h.none⟩

theorem rescale_inv (hle : ∀ s < 256, freq12 s ≤ 4096) {n : ℕ} (hn : n ≤ 256) :
    RescaleInv freq12 n ((List.range n).foldl (rescaleStep freq12) ⟨fun _ => 0, 0, none, 0⟩) := by
  induction n with
  | zero => exact ⟨fun s => by simp, rfl, rfl, fun L hL => (by cases hL), fun _ => rfl⟩
  | succ n ih =>
    rw [List.range_succ, List.foldl_append]
    exact rescaleStep_inv (hle n hn) (ih (by omega))

end Scale

/-! ### Redistribution -/

section Redistribute

variable {g : Freq} {L e : ℕ}

/-- How many of the first `n` symbols other than `L` have a slot to give. -/
def givers (g : Freq) (L n : ℕ) : ℕ := cumul (fun s => if s ≠ L ∧ 1 < g s then 1 else 0) n

/-- What the pass that takes `e` slots back has done after `n` symbols. -/
structure RedistributeInv (g : Freq) (L e n : ℕ) (st : Freq × ℤ) : Prop where
  diff : st.2 = -((e - givers g L n : ℕ) : ℤ)
  sum : cumul st.1 256 + min e (givers g L n) = cumul g 256
  rest : ∀ s, n ≤ s → st.1 s = g s
  support : ∀ s, 1 ≤ st.1 s ↔ 1 ≤ g s

theorem redistributeStep_inv {n : ℕ} (hn : n < 256) {st : Freq × ℤ} (h : RedistributeInv g L e n st) :
    RedistributeInv g L e (n + 1) (redistributeStep L st n) := by
  obtain ⟨hdiff, hsum, hrest, hsupp⟩ := h
  have hgn := hrest n (Nat.le_refl n)
  have hsucc : givers g L (n + 1) = givers g L n + if n ≠ L ∧ 1 < g n then 1 else 0 := cumul_succ ..
  have hrest' : ∀ s, n + 1 ≤ s → st.1 s = g s := fun s hs => hrest s (by omega)
  -- a symbol that gives nothing leaves everything as it was
  have hsame : ¬(n ≠ L ∧ 1 < g n) → RedistributeInv g L e (n + 1) st := by
    intro hno
    rw [if_neg hno] at hsucc
    have hsucc : givers g L (n + 1) = givers g L n := hsucc
    exact ⟨by rw [hsucc, hdiff], by rw [hsucc, hsum], hrest', hsupp⟩
  rw [redistributeStep]
  by_cases h0 : st.2 = 0
  · rw [if_pos (.inl h0)]
    have he : e ≤ givers g L n := by omega
    have hmono : givers g L n ≤ givers g L (n + 1) := by omega
    exact ⟨by omega, by omega, hrest', hsupp⟩
  · by_cases hgives : n ≠ L ∧ 1 < g n
    · obtain ⟨hL, h1⟩ := hgives
      rw [if_pos ⟨hL, h1⟩] at hsucc
      rw [if_neg (by rw [hgn]; omega), if_neg (by omega), if_pos (by rw [hgn]; exact h1)]
      have hupd := cumul_update st.1 (st.1 n - 1) hn
      refine ⟨by simp only; omega, by simp only; omega, fun s hs => ?_, fun s => ?_⟩
      · exact (Function.update_of_ne (by omega) ..).trans (hrest' s hs)
      · by_cases hs : s = n
        · subst hs
          simp only [Function.update_self, hgn]
          omega
        · simp only [Function.update_of_ne hs]
          exact hsupp s
    · split
      · exact hsame hgives
      · next hcond =>
        have hle : st.1 n ≤ 1 := by
          rw [hgn]
          omega
        rw [if_neg (by omega), if_neg (by omega)]
        exact hsame hgives

theorem redistribute_inv (hsum : cumul g 256 = 1024 + e) {n : ℕ} (hn : n ≤ 256) :
    RedistributeInv g L e n ((List.range n).foldl (redistributeStep L) (g, 1024 - (cumul g 256 : ℤ))) := by
  induction n with
  | zero =>
    have h0 : givers g L 0 = 0 := rfl
    rw [List.range_zero, List.foldl_nil]
    exact ⟨by rw [h0]; simp only; omega, by rw [h0, Nat.min_zero, Nat.add_zero], fun _ _ => rfl, fun _ => Iff.rfl⟩
  | succ n ih =>
    rw [List.range_succ, List.foldl_append]
    exact redistributeStep_inv hn (ih (by omega))

end Redistribute

/-! ### The rescaled table -/

section Rescale

variable {freq12 : Freq}

theorem le_largestFreq {s : ℕ} (hs : s < 256) : freq12 s ≤ largestFreq freq12 := by
  have key : ∀ n, s < n → freq12 s ≤ largestTo freq12 n := by
    intro n hn
    induction n with
    | zero => omega
    | succ n ih =>
      rw [largestTo_succ]
      rcases Nat.lt_succ_iff_lt_or_eq.mp hn with hlt | rfl
      · exact (ih hlt).trans (le_max_left _ _)
      · exact le_max_right _ _
  exact key 256 hs

/-- Some symbol has its share of the table. -/
theorem sixteen_le_largestFreq (hsum : cumul freq12 256 = 4096) : 16 ≤ largestFreq freq12 := by
  have := @cumul_le_mul freq12 _ _ fun s hs => le_largestFreq hs
  omega

theorem freq12_le (hsum : cumul freq12 256 = 4096) {s : ℕ} (hs : s < 256) : freq12 s ≤ 4096 := by
  have := @freq_le_size tans12 freq12 (by rw [hsum, size_tans12]) s hs
  rwa [size_tans12] at this

/-- The symbols that can give a slot are those that occur often, without the largest. -/
theorem givers_eq {g : Freq} {L : ℕ} (hL : L < 256) (h6 : 6 ≤ freq12 L)
    (hg : ∀ s < 256, s ≠ L → g s = rounded (freq12 s)) : givers g L 256 + 1 = often freq12 := by
  have hgiv : givers g L 256 = cumul (Function.update (fun s => if 6 ≤ freq12 s then 1 else 0) L 0) 256 := by
    refine cumul_congr fun s hs => ?_
    by_cases hsL : s = L
    · rw [hsL, Function.update_self, if_neg (by simp)]
    · rw [Function.update_of_ne hsL, hg s hs hsL]
      simp only [ne_eq, hsL, not_false_eq_true, true_and, one_lt_rounded]
  have hupd := cumul_update (fun s => if 6 ≤ freq12 s then 1 else 0) 0 hL
  simp only [if_pos h6] at hupd
  rw [hgiv, often]
  omega

/-- The scaling pass has found a symbol of largest frequency. -/
theorem exists_largestSym (hsum : cumul freq12 256 = 4096) {st : RescaleState} (hinv : RescaleInv freq12 256 st) :
    ∃ L < 256, st.largestSym = some L ∧ freq12 L = largestFreq freq12 ∧
      st.freq10 L = rounded (largestFreq freq12) := by
  have h16 := sixteen_le_largestFreq hsum
  have hM : st.largestFreq12 = largestFreq freq12 := hinv.largest_eq
  rcases hL : st.largestSym with _ | L
  · have := hinv.none hL
    omega
  · obtain ⟨hlt, hfL⟩ := hinv.sym L hL
    have hfL' : freq12 L = largestFreq freq12 := hfL.trans hM
    exact ⟨L, hlt, rfl, hfL', by rw [hinv.freq_eq, if_pos hlt, hfL']⟩

/-- A positive value in the place of one symbol that occurs keeps the symbols. -/
theorem one_le_update {f : Freq} {L v : ℕ} (hf : ∀ s < 256, f s = rounded (freq12 s)) (hL : 1 ≤ freq12 L) (hv : 1 ≤ v)
    {s : ℕ} (hs : s < 256) : 1 ≤ Function.update f L v s ↔ 1 ≤ freq12 s := by
  by_cases hsL : s = L
  · rw [hsL, Function.update_self]
    omega
  · rw [Function.update_of_ne hsL, hf s hs, one_le_rounded]

/-- **What the rescaled table sums to.** It is 1024 and what the rounding left over, after the largest symbol gave all
but one of its slots and each symbol that occurs often one. The symbols that occur are those that did. -/
theorem cumul_rescaled (hsum : cumul freq12 256 = 4096) :
    ∃ freq10, freqRescale12To10 freq12 = some freq10 ∧
      cumul freq10 256 = 1024 + (cumul (fun s => rounded (freq12 s)) 256
        - (1022 + rounded (largestFreq freq12) + often freq12)) ∧
      ∀ s < 256, 1 ≤ freq10 s ↔ 1 ≤ freq12 s := by
  have hinv := @rescale_inv freq12 (fun s hs => freq12_le hsum hs) 256 (Nat.le_refl 256)
  have h16 := sixteen_le_largestFreq hsum
  rw [freqRescale12To10, if_neg (by omega)]
  set st := (List.range 256).foldl (rescaleStep freq12) ⟨fun _ => 0, 0, none, 0⟩ with hst
  have hfreq : ∀ s < 256, st.freq10 s = rounded (freq12 s) := fun s hs => by rw [hinv.freq_eq, if_pos hs]
  have hcum : cumul st.freq10 256 = st.total10 := by rw [hinv.total_eq, cumul_congr hfreq]
  have htotal : st.total10 = cumul (fun s => rounded (freq12 s)) 256 := hinv.total_eq
  obtain ⟨L, hlt, hL, hfL, hrL⟩ := exists_largestSym hsum hinv
  have hr1 : 1 ≤ rounded (largestFreq freq12) := one_le_rounded.mpr (by omega)
  have hgiv : ∀ v, givers (Function.update st.freq10 L v) L 256 + 1 = often freq12 := fun v =>
    givers_eq hlt (by omega) fun s hs hsL => by rw [Function.update_of_ne hsL, hfreq s hs]
  have hupd := fun v => cumul_update st.freq10 v hlt
  simp only [hL]
  split
  · next hneg =>
    -- the largest keeps one slot, the others give what is still missing
    have h1 := hupd 1
    have hg := hgiv 1
    obtain ⟨e, he⟩ : ∃ e, cumul (Function.update st.freq10 L 1) 256 = 1024 + e :=
      ⟨_, (Nat.add_sub_of_le (by omega)).symm⟩
    have hred := @redistribute_inv _ L e he 256 (Nat.le_refl 256)
    have hend := hred.sum
    refine ⟨_, rfl, ?_, fun s hs => (hred.support s).trans (one_le_update hfreq (by omega) le_rfl hs)⟩
    omega
  · next hpos =>
    obtain ⟨v, hv⟩ := Int.eq_ofNat_of_zero_le (show 0 ≤ (st.freq10 L : ℤ) + (1024 - st.total10) by omega)
    have hgv := hgiv v
    have h1 := hupd v
    have hle : rounded (largestFreq freq12) ≤ st.total10 := by
      have := hupd 0
      omega
    have hmod : ((st.freq10 L : ℤ) + (1024 - st.total10)).toNat % 2 ^ 16 = v := by
      rw [hv, Int.toNat_natCast]
      omega
    rw [hmod]
    refine ⟨_, rfl, ?_, fun s hs => one_le_update hfreq (by omega) (by omega) hs⟩
    omega

end Rescale

/-- Rescaling succeeds with a table that `netc_tans_build_10` accepts, over the same symbols. -/
def RescaleUsable (freq12 : Freq) : Prop :=
  ∃ freq10, freqRescale12To10 freq12 = some freq10 ∧ cumul freq10 256 = 1024 ∧
    (∀ s < 256, 1 ≤ freq10 s ↔ 1 ≤ freq12 s) ∧ (tansBuild10 freq10).isSome

/-- **When the rescaled table is usable**: the quarters of the frequencies, rounded, do not go beyond 1024 by more than
what the largest symbol and the symbols of frequency six and more can give back. -/
theorem rescale_usable_iff (freq12 : Freq) (hsum : cumul freq12 256 = 4096) : RescaleUsable freq12 ↔
    cumul (fun s => rounded (freq12 s)) 256 ≤ 1022 + rounded (largestFreq freq12) + often freq12 := by
  obtain ⟨freq10, hres, hcum, hsupp⟩ := cumul_rescaled hsum
  constructor
  · rintro ⟨freq10', hres', hcum', -⟩
    rw [hres, Option.some.injEq] at hres'
    rw [← hres', hcum] at hcum'
    omega
  · intro hle
    rw [Nat.sub_eq_zero_of_le hle] at hcum
    refine ⟨freq10, hres, hcum, hsupp, ?_⟩
    rw [tansBuild10, tansBuildWith, size_tans10, if_neg (by omega)]
    rfl

theorem rescale_usable_flat : RescaleUsable fun _ => 16 :=
  (rescale_usable_iff _ (cumul_const 16 256)).mpr (by decide +kernel)

/-- A quarter of the symbols with nearly all of the table, the others with one slot each. -/
def crowdedFreq : Freq := fun s => if s < 64 then 61 else 1

/-- The others keep their slot, so that one pass over the 63 that can give leaves 51 slots too many. -/
theorem rescale_crowded : cumul crowdedFreq 256 = 4096 ∧ ¬RescaleUsable crowdedFreq := by
  have hsum : cumul crowdedFreq 256 = 4096 := by decide +kernel
  obtain ⟨freq10, hres, hcum, -⟩ := cumul_rescaled hsum
  have hover : cumul (fun s => rounded (crowdedFreq s)) 256
      - (1022 + rounded (largestFreq crowdedFreq) + often crowdedFreq) = 51 := by decide +kernel
  refine ⟨hsum, ?_⟩
  rintro ⟨freq10', hres', hcum', -⟩
  rw [hres, Option.some.injEq] at hres'
  rw [← hres', hcum, hover] at hcum'
  omega

end Netc
