/-
# The class map of a trained dictionary

Phase 2b of `netc_dict_train` sorts the 256 previous bytes by their most
frequent successor and cuts the sorted array into eight groups of 32. The
insertion sort in place is the one on lists that `Dict.lean` trains with
(`sortInPlace_eq`); it permutes the bytes and puts them in order, so that the
classes are of one size and follow the order of the successors
(`dictTrain_classes`).

Key definitions: `sortInPlace`, `succCount`, `IsPeak`.
Key theorems: `sortInPlace_eq`, `sortedPrev_perm`, `sortedPrev_pairwise`, `trainClassMap_sorted`, `dictTrain_classes`.
-/
import Netc.Dict

namespace Netc

/-! ### Sorting in place -/

/-- `while (j >= 0 && cond_peak[sorted_prev[j]] > key_peak)`, with `j + 1` in the place of `j`: the array, and the
place that is free for the key. -/
def moveUp (peak : ℕ → ℕ) (keyPeak : ℕ) : ℕ → (ℕ → ℕ) → (ℕ → ℕ) × ℕ
  | 0, a => (a, 0)
  | n + 1, a =>
    if keyPeak < peak (a n) then moveUp peak keyPeak n (Function.update a (n + 1) (a n)) else (a, n + 1)

/-- The round of the insertion sort for place `i`. -/
def insertInPlace (peak : ℕ → ℕ) (a : ℕ → ℕ) (i : ℕ) : ℕ → ℕ :=
  let key := a i
  let r := moveUp peak (peak key) i a
  Function.update r.1 r.2 key

/-- The sort of `sorted_prev`, as the code does it. -/
def sortInPlace (peak : ℕ → ℕ) : ℕ → ℕ := (List.range' 1 255).foldl (insertInPlace peak) id

section Sorting

variable {peak : ℕ → ℕ}

/-- The entries behind place `n` stay as they are. -/
theorem moveUp_of_gt {v : ℕ} : ∀ {n : ℕ} {a : ℕ → ℕ}, (moveUp peak v n a).2 ≤ n ∧
    ∀ i, n < i → (moveUp peak v n a).1 i = a i
  | 0, a => ⟨Nat.le_refl 0, fun _ _ => rfl⟩
  | n + 1, a => by
    rw [moveUp]
    split
    · obtain ⟨hle, hsame⟩ := @moveUp_of_gt v n (Function.update a (n + 1) (a n))
      refine ⟨by omega, fun i hi => ?_⟩
      rw [hsame i (by omega), Function.update_of_ne (by omega)]
    · exact ⟨Nat.le_refl _, fun _ _ => rfl⟩

/-- The first `n` entries of an array. -/
def entries (a : ℕ → ℕ) (n : ℕ) : List ℕ := (List.range n).map a

theorem entries_succ (a : ℕ → ℕ) (n : ℕ) : entries a (n + 1) = entries a n ++ [a n] := by
  simp [entries, List.range_succ]

theorem entries_congr {a b : ℕ → ℕ} {n : ℕ} (h : ∀ i < n, a i = b i) : entries a n = entries b n :=
  List.map_congr_left fun i hi => h i (List.mem_range.mp hi)

/-- **One round in place** is one round on lists. -/
theorem entries_moveUp {key : ℕ} : ∀ {n : ℕ} {a : ℕ → ℕ},
    entries (Function.update (moveUp peak (peak key) n a).1 (moveUp peak (peak key) n a).2 key) (n + 1)
      = insertPrev peak (entries a n) key
  | 0, a => by simp [moveUp, entries, insertPrev]
  | n + 1, a => by
    rw [entries_succ a n, insertPrev, moveUp]
    split
    · next hlt =>
      have hdrop := List.rdropWhile_concat_pos (fun j => decide (peak key < peak j)) (entries a n) (a n)
        (by simpa using hlt)
      have htake := List.rtakeWhile_concat_pos (fun j => decide (peak key < peak j)) (entries a n) (a n)
        (by simpa using hlt)
      obtain ⟨hle, hsame⟩ := @moveUp_of_gt peak (peak key) n (Function.update a (n + 1) (a n))
      have ih := @entries_moveUp key n (Function.update a (n + 1) (a n))
      have hbelow : entries (Function.update a (n + 1) (a n)) n = entries a n :=
        entries_congr fun i hi => Function.update_of_ne (by omega) _ _
      rw [hdrop, htake, entries_succ, ih, insertPrev, hbelow, Function.update_of_ne (by omega),
        hsame _ (Nat.lt_succ_self n), Function.update_self]
      simp
    · next hge =>
      have hdrop := List.rdropWhile_concat_neg (fun j => decide (peak key < peak j)) (entries a n) (a n)
        (by simpa using hge)
      have htake := List.rtakeWhile_concat_neg (fun j => decide (peak key < peak j)) (entries a n) (a n)
        (by simpa using hge)
      have hbelow : entries (Function.update a (n + 1) key) (n + 1) = entries a (n + 1) :=
        entries_congr fun i hi => Function.update_of_ne (by omega) _ _
      rw [hdrop, htake, entries_succ, hbelow, Function.update_self, entries_succ]

/-- After the rounds up to place `n` the first entries are sorted and the others untouched. -/
theorem foldl_insertInPlace : ∀ n : ℕ,
    entries ((List.range' 1 n).foldl (insertInPlace peak) id) (n + 1)
        = (List.range (n + 1)).foldl (insertPrev peak) [] ∧
      ∀ i, n < i → (List.range' 1 n).foldl (insertInPlace peak) id i = i
  | 0 => ⟨by simp [entries, insertPrev], fun _ _ => rfl⟩
  | n + 1 => by
    obtain ⟨ih, hrest⟩ := foldl_insertInPlace n
    set a := (List.range' 1 n).foldl (insertInPlace peak) id with ha
    have hfold : (List.range' 1 (n + 1)).foldl (insertInPlace peak) id = insertInPlace peak a (n + 1) := by
      rw [List.range'_concat, List.foldl_append, ← ha]
      simp [Nat.add_comm]
    have hkey : a (n + 1) = n + 1 := hrest _ (Nat.lt_succ_self n)
    obtain ⟨hle, hsame⟩ := @moveUp_of_gt peak (peak (a (n + 1))) (n + 1) a
    rw [hfold, insertInPlace]
    refine ⟨?_, fun i hi => ?_⟩
    · rw [entries_moveUp, ih, hkey, List.range_succ (n := n + 1), List.foldl_append]
      rfl
    · rw [Function.update_of_ne (by omega), hsame i hi]
      exact hrest i (by omega)

/-- **The sort in place is the sort on lists.** -/
theorem sortInPlace_eq (peak : ℕ → ℕ) : entries (sortInPlace peak) 256 = sortedPrev peak :=
  (foldl_insertInPlace 255).1

/-! ### The sorted bytes -/

theorem insertPrev_perm (l : List ℕ) (key : ℕ) : (insertPrev peak l key).Perm (key :: l) := by
  unfold insertPrev
  refine List.perm_middle.trans (List.Perm.of_eq ?_)
  rw [List.rdropWhile_append_rtakeWhile]

theorem insertPrev_pairwise {l : List ℕ} (h : l.Pairwise fun a b => peak a ≤ peak b) (key : ℕ) :
    (insertPrev peak l key).Pairwise fun a b => peak a ≤ peak b := by
  rw [← List.rdropWhile_append_rtakeWhile (p := fun j => decide (peak key < peak j)) (l := l)] at h
  rw [insertPrev]
  set A := l.rdropWhile fun j => decide (peak key < peak j) with hA
  set B := l.rtakeWhile fun j => decide (peak key < peak j) with hB
  obtain ⟨hAA, hBB, hAB⟩ := List.pairwise_append.mp h
  -- all that stays in front is at most the last of it, which is not larger than the key
  have hAkey : ∀ a ∈ A, peak a ≤ peak key := by
    intro a ha
    have hne : A ≠ [] := List.ne_nil_of_mem ha
    have hlast : ¬peak key < peak (A.getLast hne) := by simpa using List.rdropWhile_last_not _ _ hne
    have hle : peak a ≤ peak (A.getLast hne) := by
      rw [← List.dropLast_append_getLast hne] at hAA ha
      rcases List.mem_append.mp ha with ha | ha
      · exact (List.pairwise_append.mp hAA).2.2 a ha _ (by simp)
      · rw [List.mem_singleton.mp ha]
    omega
  have hkeyB : ∀ b ∈ B, peak key ≤ peak b := by
    intro b hb
    have := List.mem_rtakeWhile_imp hb
    simp only [decide_eq_true_eq] at this
    exact this.le
  refine List.pairwise_append.mpr ⟨hAA, List.pairwise_cons.mpr ⟨hkeyB, hBB⟩, fun a ha b hb => ?_⟩
  rcases List.mem_cons.mp hb with rfl | hb
  · exact hAkey a ha
  · exact hAB a ha b hb

theorem foldl_insertPrev : ∀ (keys l : List ℕ), l.Pairwise (fun a b => peak a ≤ peak b) →
    (keys.foldl (insertPrev peak) l).Perm (keys ++ l) ∧
      (keys.foldl (insertPrev peak) l).Pairwise fun a b => peak a ≤ peak b
  | [], l, h => ⟨List.Perm.refl _, h⟩
  | key :: keys, l, h => by
    obtain ⟨hperm, hsorted⟩ := foldl_insertPrev keys _ (insertPrev_pairwise h key)
    refine ⟨hperm.trans ?_, hsorted⟩
    exact ((insertPrev_perm l key).append_left keys).trans List.perm_middle

/-- The sort permutes the bytes. -/
theorem sortedPrev_perm (peak : ℕ → ℕ) : (sortedPrev peak).Perm (List.range 256) := by
  have h := (@foldl_insertPrev peak (List.range 256) [] List.Pairwise.nil).1
  rwa [List.append_nil] at h

/-- The sort puts them in order. -/
theorem sortedPrev_pairwise (peak : ℕ → ℕ) : (sortedPrev peak).Pairwise fun a b => peak a ≤ peak b :=
  (foldl_insertPrev (List.range 256) [] List.Pairwise.nil).2

theorem length_sortedPrev (peak : ℕ → ℕ) : (sortedPrev peak).length = 256 := by
  rw [(sortedPrev_perm peak).length_eq, List.length_range]

end Sorting

/-! ### The groups -/

section Groups

variable {α β : Type} [DecidableEq α]

theorem foldl_update_of_not_mem {key : ℕ → α} {val : ℕ → β} {x : α} : ∀ {l : List ℕ} {m : α → β}, x ∉ l.map key →
    l.foldl (fun m i => Function.update m (key i) (val i)) m x = m x
  | [], _, _ => rfl
  | i :: l, m, h => by
    rw [List.map_cons, List.mem_cons, not_or] at h
    rw [List.foldl_cons, foldl_update_of_not_mem h.2, Function.update_of_ne h.1]

/-- A loop that writes to distinct places leaves what it wrote. -/
theorem foldl_update_of_mem {key : ℕ → α} {val : ℕ → β} {i : ℕ} : ∀ {l : List ℕ} {m : α → β}, (l.map key).Nodup →
    i ∈ l → l.foldl (fun m i => Function.update m (key i) (val i)) m (key i) = val i
  | j :: l, m, hnd, hi => by
    rw [List.map_cons, List.nodup_cons] at hnd
    rw [List.foldl_cons]
    rcases List.mem_cons.mp hi with rfl | hi
    · rw [foldl_update_of_not_mem hnd.1, Function.update_self]
    · exact foldl_update_of_mem hnd.2 hi

end Groups

/-- Entry `i` of `sorted_prev`, as a byte. -/
def prevAt (peak : ℕ → ℕ) (i : ℕ) : UInt8 := UInt8.ofNat ((sortedPrev peak).getD i 0)

/-- The two loops over the groups are one loop over the sorted bytes. -/
theorem trainClassMap_eq (packets : List (List UInt8)) : trainClassMap packets
    = (List.range 256).foldl (fun m i => Function.update m
        (prevAt (fun prev => peakSym ((condCounts packets).raw prev)) i) (UInt8.ofNat (i / 32))) fun _ => 0 := by
  have hrange : List.range 256
      = (List.range bigramCtxCount).flatMap fun g => (List.range 32).map fun k => g * 32 + k := by
    decide +kernel
  rw [hrange, List.foldl_flatMap]
  simp only [trainClassMap, List.foldl_map, prevAt]
  refine List.foldl_ext _ _ _ fun m g _ => List.foldl_ext _ _ _ fun m k hk => ?_
  rw [show (g * 32 + k) / 32 = g by have := List.mem_range.mp hk; omega]

section Classes

variable {peak : ℕ → ℕ}

theorem toNat_prevAt {i : ℕ} (hi : i < 256) : ∃ h : i < (sortedPrev peak).length,
    (prevAt peak i).toNat = (sortedPrev peak)[i] ∧ (sortedPrev peak)[i] < 256 := by
  have hlen : i < (sortedPrev peak).length := by rwa [length_sortedPrev]
  have hlt : (sortedPrev peak)[i] < 256 :=
    List.mem_range.mp ((sortedPrev_perm peak).mem_iff.mp (List.getElem_mem hlen))
  refine ⟨hlen, ?_, hlt⟩
  rw [prevAt, List.getD_eq_getElem _ _ hlen]
  exact UInt8.toNat_ofNat_of_lt' hlt

/-- No byte is sorted twice. -/
theorem prevAt_inj {i j : ℕ} (hi : i < 256) (hj : j < 256) (h : prevAt peak i = prevAt peak j) : i = j := by
  obtain ⟨hi', hieq, -⟩ := @toNat_prevAt peak i hi
  obtain ⟨hj', hjeq, -⟩ := @toNat_prevAt peak j hj
  have hnd : (sortedPrev peak).Nodup := (sortedPrev_perm peak).nodup_iff.mpr List.nodup_range
  apply (List.Nodup.getElem_inj_iff hnd).mp
  rw [← hieq, ← hjeq, h]

/-- Every byte is sorted. -/
theorem exists_prevAt (p : UInt8) : ∃ i < 256, prevAt peak i = p := by
  have hmem : p.toNat ∈ sortedPrev peak := (sortedPrev_perm peak).mem_iff.mpr (List.mem_range.mpr (UInt8.toNat_lt p))
  obtain ⟨i, hi, hget⟩ := List.getElem_of_mem hmem
  rw [length_sortedPrev] at hi
  refine ⟨i, hi, UInt8.toNat_inj.mp ?_⟩
  obtain ⟨hlen, hbyte, -⟩ := @toNat_prevAt peak i hi
  rw [hbyte, hget]

/-- A byte with a smaller peak is sorted before one with a larger. -/
theorem lt_of_peak_lt {i j : ℕ} (hi : i < 256) (hj : j < 256)
    (h : peak (prevAt peak i).toNat < peak (prevAt peak j).toNat) : i < j := by
  obtain ⟨hi', hieq, -⟩ := @toNat_prevAt peak i hi
  obtain ⟨hj', hjeq, -⟩ := @toNat_prevAt peak j hj
  rw [hieq, hjeq] at h
  by_contra hge
  rcases Nat.lt_or_eq_of_le (not_lt.mp hge) with hlt | rfl
  · have := List.pairwise_iff_getElem.mp (sortedPrev_pairwise peak) j i hj' hi' hlt
    omega
  · exact lt_irrefl _ h

end Classes

/-- **The class of a byte** is the number of its group. -/
theorem trainClassMap_sorted (packets : List (List UInt8)) {i : ℕ} (hi : i < 256) :
    (trainClassMap packets (prevAt (fun prev => peakSym ((condCounts packets).raw prev)) i)).toNat = i / 32 := by
  rw [trainClassMap_eq, foldl_update_of_mem _ (List.mem_range.mpr hi), UInt8.toNat_ofNat']
  · omega
  · refine List.Nodup.map_on (fun a ha b hb hab => ?_) List.nodup_range
    exact prevAt_inj (List.mem_range.mp ha) (List.mem_range.mp hb) hab

/-! ### Successors -/

/-- How often `s` comes after `p` in the packets; what comes first comes after 0. -/
def succCount (packets : List (List UInt8)) (p s : UInt8) : ℕ :=
  (positions packets).countP fun x => x.2.1 = p ∧ x.2.2 = s

/-- The most frequent symbol, the smallest of them; 0 if no symbol occurs. -/
def IsPeak (c : UInt8 → ℕ) (s : UInt8) : Prop := (∀ u, c u ≤ c s) ∧ ∀ u < s, c u < c s

theorem IsPeak.unique {c : UInt8 → ℕ} {s s' : UInt8} (h : IsPeak c s) (h' : IsPeak c s') : s = s' := by
  apply UInt8.le_antisymm
  · apply UInt8.not_lt.mp
    intro hlt
    have := h.2 s' hlt
    have := h'.1 s
    omega
  · apply UInt8.not_lt.mp
    intro hlt
    have := h'.2 s hlt
    have := h.1 s'
    omega

/-- `cond_counts` counts the successors. -/
theorem condCounts_raw (packets : List (List UInt8)) (p s : UInt8) :
    (condCounts packets).raw p.toNat s.toNat = succCount packets p s := by
  have key : ∀ (l : List (ℕ × UInt8 × UInt8)) (c : Counts ℕ),
      (l.foldl (fun c x => c.add x.2.1.toNat x.2.2) c).raw p.toNat s.toNat
        = c.raw p.toNat s.toNat + l.countP fun x => x.2.1 = p ∧ x.2.2 = s := by
    intro l
    induction l with
    | nil => simp
    | cons x l ih =>
      intro c
      have hadd : (c.add x.2.1.toNat x.2.2).raw p.toNat s.toNat
          = c.raw p.toNat s.toNat + if x.2.1 = p ∧ x.2.2 = s then 1 else 0 := by
        unfold Counts.add
        by_cases hp : x.2.1 = p
        · subst hp
          by_cases hs : x.2.2 = s
          · subst hs
            simp [bump]
          · have hne : s.toNat ≠ x.2.2.toNat := fun h => hs (UInt8.toNat_inj.mp h.symm)
            simp [bump, hs, Function.update_of_ne hne]
        · have hne : p.toNat ≠ x.2.1.toNat := fun h => hp (UInt8.toNat_inj.mp h.symm)
          simp [hp, Function.update_of_ne hne]
      rw [List.foldl_cons, ih, List.countP_cons, hadd]
      simp only [decide_eq_true_eq]
      omega
  have h := key (positions packets) (.zero ℕ)
  rwa [show (Counts.zero ℕ).raw p.toNat s.toNat = 0 from rfl, Nat.zero_add] at h

/-- The loop over the symbols finds the first of the largest counts. -/
theorem foldl_peak (c : ℕ → ℕ) : ∀ n : ℕ,
    let st := (List.range n).foldl (fun (st : ℕ × ℕ) s => if st.1 < c s then (c s, s) else st) (0, 0)
    (∀ u < n, c u ≤ st.1) ∧ (st = (0, 0) ∨ st.2 < n ∧ c st.2 = st.1 ∧ ∀ u < st.2, c u < st.1)
  | 0 => ⟨fun _ h => absurd h (Nat.not_lt_zero _), .inl rfl⟩
  | n + 1 => by
    obtain ⟨hmax, hfirst⟩ := foldl_peak c n
    simp only [List.range_succ, List.foldl_append, List.foldl_cons, List.foldl_nil]
    generalize (List.range n).foldl (fun (st : ℕ × ℕ) s => if st.1 < c s then (c s, s) else st) (0, 0) = st
      at hmax hfirst ⊢
    split
    · next hlt =>
      refine ⟨fun u hu => ?_, .inr ⟨Nat.lt_succ_self n, rfl, fun u hu => ?_⟩⟩
      · rcases Nat.lt_succ_iff_lt_or_eq.mp hu with hu | rfl
        · have := hmax u hu
          simp only
          omega
        · exact Nat.le_refl _
      · have := hmax u hu
        simp only
        omega
    · next hge =>
      refine ⟨fun u hu => ?_, hfirst.imp_right fun h => ⟨by omega, h.2⟩⟩
      rcases Nat.lt_succ_iff_lt_or_eq.mp hu with hu | rfl
      · exact hmax u hu
      · omega

/-- `cond_peak` is the most frequent successor. -/
theorem peakSym_isPeak (packets : List (List UInt8)) (p : UInt8) :
    IsPeak (succCount packets p) (UInt8.ofNat (peakSym ((condCounts packets).raw p.toNat))) ∧
      peakSym ((condCounts packets).raw p.toNat) < 256 := by
  obtain ⟨hmax, hfirst⟩ := foldl_peak ((condCounts packets).raw p.toNat) 256
  set st := (List.range 256).foldl (fun (st : ℕ × ℕ) s =>
    if st.1 < (condCounts packets).raw p.toNat s then ((condCounts packets).raw p.toNat s, s) else st) (0, 0) with hst
  have hpeak : peakSym ((condCounts packets).raw p.toNat) = st.2 := rfl
  have hlt : st.2 < 256 := by
    rcases hfirst with h | h
    · rw [h]
      norm_num
    · exact h.1
  have hbyte : (UInt8.ofNat st.2).toNat = st.2 := UInt8.toNat_ofNat_of_lt' hlt
  rw [hpeak]
  refine ⟨⟨fun u => ?_, fun u hu => ?_⟩, hlt⟩
  · have hu := hmax u.toNat (UInt8.toNat_lt u)
    rw [← condCounts_raw, ← condCounts_raw, hbyte]
    rcases hfirst with h | ⟨-, hval, -⟩
    · rw [h] at hu
      omega
    · omega
  · have hu : u.toNat < st.2 := by
      rw [← hbyte]
      exact UInt8.lt_iff_toNat_lt.mp hu
    rw [← condCounts_raw, ← condCounts_raw, hbyte]
    rcases hfirst with h | ⟨-, hval, hless⟩
    · rw [h] at hu
      omega
    · rw [hval]
      exact hless _ hu

/-! ### The classes -/

/-- The classes of a corpus are of one size, and a byte with a smaller most frequent successor is in no later
class. -/
structure Partition (packets : List (List UInt8)) (cls : UInt8 → ℕ) : Prop where
  class_lt : ∀ p, cls p < 8
  size : ∀ c < 8, ((Finset.range 256).filter fun p => cls (UInt8.ofNat p) = c).card = 32
  ordered : ∀ p q s s', IsPeak (succCount packets p) s → IsPeak (succCount packets q) s' → s < s' → cls p ≤ cls q

theorem trainClassMap_partition (packets : List (List UInt8)) :
    Partition packets fun p => (trainClassMap packets p).toNat := by
  set peak := fun prev => peakSym ((condCounts packets).raw prev) with hpeak
  have hclass : ∀ {i}, i < 256 → (trainClassMap packets (prevAt peak i)).toNat = i / 32 := trainClassMap_sorted packets
  refine ⟨fun p => ?_, fun c hc => ?_, fun p q s s' hp hq hlt => ?_⟩
  · obtain ⟨i, hi, rfl⟩ := @exists_prevAt peak p
    rw [hclass hi]
    omega
  · -- the bytes of a class are the 32 entries of its group
    have himage : (Finset.range 256).filter (fun p => (trainClassMap packets (UInt8.ofNat p)).toNat = c)
        = (Finset.Ico (c * 32) (c * 32 + 32)).image fun i => (prevAt peak i).toNat := by
      ext p
      simp only [Finset.mem_filter, Finset.mem_range, Finset.mem_image, Finset.mem_Ico]
      constructor
      · rintro ⟨hp, hcls⟩
        obtain ⟨i, hi, hbyte⟩ := @exists_prevAt peak (UInt8.ofNat p)
        rw [← hbyte, hclass hi] at hcls
        refine ⟨i, by omega, ?_⟩
        rw [hbyte]
        exact UInt8.toNat_ofNat_of_lt' hp
      · rintro ⟨i, hi, rfl⟩
        rw [UInt8.ofNat_toNat, hclass (by omega)]
        exact ⟨UInt8.toNat_lt _, by omega⟩
    rw [himage, Finset.card_image_of_injOn, Nat.card_Ico, Nat.add_sub_cancel_left]
    intro i hi j hj hij
    simp only [Finset.coe_Ico, Set.mem_Ico] at hi hj
    exact prevAt_inj (by omega) (by omega) (UInt8.toNat_inj.mp hij)
  · obtain ⟨i, hi, rfl⟩ := @exists_prevAt peak p
    obtain ⟨j, hj, rfl⟩ := @exists_prevAt peak q
    obtain ⟨hpi, hpi256⟩ := peakSym_isPeak packets (prevAt peak i)
    obtain ⟨hpj, hpj256⟩ := peakSym_isPeak packets (prevAt peak j)
    obtain rfl := hp.unique hpi
    obtain rfl := hq.unique hpj
    have hlt : peak (prevAt peak i).toNat < peak (prevAt peak j).toNat := by
      have h := UInt8.lt_iff_toNat_lt.mp hlt
      rwa [UInt8.toNat_ofNat_of_lt' hpi256, UInt8.toNat_ofNat_of_lt' hpj256] at h
    have hij := lt_of_peak_lt hi hj hlt
    rw [hclass hi, hclass hj]
    omega

theorem dictTrain_classMap {packets : List (List UInt8)} {modelId : UInt8} {d : Dict}
    (h : dictTrain packets modelId = .ok d) :
    d.bigramClassMap = trainClassMap (packets.map (List.take maxPacketSize)) := by
  obtain ⟨cut, rfl, -, -, rfl⟩ := dictTrain_eq_ok h
  rfl

/-- **Training partitions the bytes** into eight classes of 32, in the order of their most frequent successors.
Of each packet the first 65535 bytes count. -/
theorem dictTrain_classes (packets : List (List UInt8)) (modelId : UInt8) (hid : ¬(modelId = 0 ∨ modelId = 255)) :
    ∃ d, dictTrain packets modelId = .ok d ∧
      Partition (packets.map (List.take maxPacketSize)) d.bigramClass := by
  obtain ⟨d, hd⟩ := dictTrain_ok packets hid
  refine ⟨d, hd, ?_⟩
  unfold Dict.bigramClass
  rw [dictTrain_classMap hd]
  exact trainClassMap_partition _

/-- A corpus of one packet. -/
theorem dictTrain_classes_one : ∃ d, dictTrain [[7, 9, 7, 9, 8]] 1 = .ok d ∧
    Partition ([[7, 9, 7, 9, 8]].map (List.take maxPacketSize)) d.bigramClass :=
  dictTrain_classes _ 1 (by decide)

end Netc
