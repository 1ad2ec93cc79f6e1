/-
# Majority votes in bounded counters

The vote keeps one candidate and a count: a vote for the candidate raises the count, up to a bound `cap`,
any other lowers it, and at zero the next vote names the candidate. With unbounded counters a value with
more than half of the votes is the candidate at the end. With bounded ones it is so as long as at most `cap`
votes are not for it (`majority`); beyond that the candidate can be overtaken (`overtaken`), and where no
value has a majority each can be made the candidate by the order of the votes (`exists_elected`).
-/
import Mathlib.Tactic
import Mathlib.Data.List.Count

namespace Vote

variable {α : Type}

/-- A candidate and its count. -/
structure State (α : Type) where
  candidate : α
  count : ℕ

variable [DecidableEq α] {cap : ℕ} {s : State α} {v : α} {l : List α}

/-- One vote. -/
def cast (cap : ℕ) (s : State α) (b : α) : State α :=
  if s.count = 0 then ⟨b, 1⟩
  else if s.candidate = b then if s.count < cap then ⟨s.candidate, s.count + 1⟩ else s
  else ⟨s.candidate, s.count - 1⟩

/-- The state after the votes `l`. -/
def run (cap : ℕ) (s : State α) (l : List α) : State α := l.foldl (cast cap) s

theorem run_cons (b : α) (l : List α) : run cap s (b :: l) = run cap (cast cap s b) l := rfl

theorem run_append (l l' : List α) : run cap s (l ++ l') = run cap (run cap s l) l' := List.foldl_append

/-- The votes are those for `v` and those for others. -/
theorem count_add_length_ne (v : α) (l : List α) : l.count v + (l.filter (· ≠ v)).length = l.length := by
  induction l with
  | nil => rfl
  | cons b l ih =>
    rw [List.count_cons, List.filter_cons, List.length_cons]
    by_cases hb : b = v
    · simp only [hb, beq_self_eq_true, if_true, ne_eq, not_true_eq_false, decide_false, Bool.false_eq_true, if_false]
      simp only [ne_eq] at ih
      omega
    · simp only [beq_iff_eq, hb, if_false, ne_eq, not_false_eq_true, decide_true, if_true, List.length_cons]
      simp only [ne_eq] at ih
      omega

/-- Two values share the votes. -/
theorem count_two_le {a b : α} (hab : a ≠ b) (l : List α) : l.count a + l.count b ≤ l.length := by
  have hb := List.count_le_length (a := b) (l := l.filter (· ≠ a))
  rw [List.count_filter (by simpa using hab.symm)] at hb
  have := count_add_length_ne a l
  omega

/-! ### The winner of a majority -/

/-- What the state says about `v` after `a` votes for it and `b` for others. -/
def Tally (cap : ℕ) (v : α) (a b : ℕ) (s : State α) : Prop :=
  (s.candidate = v → a ≤ s.count + b ∨ cap ≤ s.count + b) ∧ (s.candidate ≠ v → a + s.count ≤ b ∨ cap < b)

theorem Tally.vote_for {a b : ℕ} (h : Tally cap v a b s) : Tally cap v (a + 1) b (cast cap s v) := by
  obtain ⟨hfor, hother⟩ := h
  unfold cast
  by_cases h0 : s.count = 0
  · rw [if_pos h0]
    refine ⟨fun _ => ?_, fun hne => absurd rfl hne⟩
    -- a count of zero says the same of both sides
    by_cases hv : s.candidate = v
    · rcases hfor hv with h | h <;> simp only <;> omega
    · rcases hother hv with h | h <;> simp only <;> omega
  · rw [if_neg h0]
    by_cases hv : s.candidate = v
    · rw [if_pos hv]
      split
      · refine ⟨fun _ => ?_, fun hne => absurd hv hne⟩
        rcases hfor hv with h | h <;> simp only <;> omega
      · next hcap => exact ⟨fun _ => Or.inr (by omega), fun hne => absurd hv hne⟩
    · rw [if_neg hv]
      refine ⟨fun he => absurd he hv, fun _ => ?_⟩
      rcases hother hv with h | h <;> simp only <;> omega

theorem Tally.vote_other {a b : ℕ} {u : α} (hu : u ≠ v) (h : Tally cap v a b s) :
    Tally cap v a (b + 1) (cast cap s u) := by
  obtain ⟨hfor, hother⟩ := h
  unfold cast
  by_cases h0 : s.count = 0
  · rw [if_pos h0]
    refine ⟨fun he => absurd he hu, fun _ => ?_⟩
    by_cases hv : s.candidate = v
    · rcases hfor hv with h | h <;> simp only <;> omega
    · rcases hother hv with h | h <;> simp only <;> omega
  · rw [if_neg h0]
    by_cases hv : s.candidate = v
    · rw [if_neg (hv ▸ hu.symm)]
      refine ⟨fun _ => ?_, fun hne => absurd hv hne⟩
      rcases hfor hv with h | h <;> simp only <;> omega
    · have hkeep : ∀ k, k ≤ s.count + 1 → Tally cap v a (b + 1) ⟨s.candidate, k⟩ := by
        intro k hk
        refine ⟨fun he => absurd he hv, fun _ => ?_⟩
        rcases hother hv with h | h <;> simp only <;> omega
      split
      · split
        · exact hkeep _ le_rfl
        · exact hkeep _ (by omega)
      · exact hkeep _ (by omega)

theorem Tally.run {a b : ℕ} (h : Tally cap v a b s) (l : List α) :
    Tally cap v (a + l.count v) (b + (l.length - l.count v)) (run cap s l) := by
  induction l generalizing a b s with
  | nil => exact h
  | cons u l ih =>
    have hle := List.count_le_length (a := v) (l := l)
    rw [run_cons, List.length_cons]
    by_cases hu : u = v
    · subst hu
      have := ih h.vote_for
      rw [List.count_cons_self]
      rwa [show a + (l.count u + 1) = a + 1 + l.count u by omega,
        show l.length + 1 - (l.count u + 1) = l.length - l.count u by omega]
    · have := ih (h.vote_other hu)
      rw [List.count_cons_of_ne hu]
      rwa [show b + (l.length + 1 - l.count v) = b + 1 + (l.length - l.count v) by omega]

/-- **The majority wins** when at most `cap` votes are for others. -/
theorem majority (h0 : s.count = 0) (hv : l.length < 2 * l.count v) (hcap : l.length ≤ l.count v + cap) :
    (run cap s l).candidate = v := by
  have hstart : Tally cap v 0 0 s := ⟨fun _ => Or.inl (Nat.zero_le _), fun _ => Or.inl (by omega)⟩
  by_contra hne
  rcases (hstart.run l).2 hne with h | h <;> omega

/-! ### Votes that take the candidate's place -/

theorem count_cast_le (hcap : 1 ≤ cap) (h : s.count ≤ cap) (b : α) : (cast cap s b).count ≤ cap := by
  unfold cast
  split
  · exact hcap
  · split
    · split
      · next hlt => exact hlt
      · exact h
    · exact (Nat.sub_le _ _).trans h

/-- The count stays in its bound. -/
theorem count_run_le (hcap : 1 ≤ cap) (h : s.count ≤ cap) (l : List α) : (run cap s l).count ≤ cap := by
  induction l generalizing s with
  | nil => exact h
  | cons b l ih => exact ih (count_cast_le hcap h b)

theorem candidate_cast (s : State α) (b : α) :
    (cast cap s b).candidate = s.candidate ∨ (cast cap s b).candidate = b := by
  unfold cast
  split
  · exact Or.inr rfl
  · split
    · split <;> exact Or.inl rfl
    · exact Or.inl rfl

theorem candidate_run_ne (hs : s.candidate ≠ v) (hl : ∀ b ∈ l, b ≠ v) : (run cap s l).candidate ≠ v := by
  induction l generalizing s with
  | nil => exact hs
  | cons b l ih =>
    refine ih ?_ fun x hx => hl x (List.mem_cons_of_mem _ hx)
    rcases @candidate_cast α _ cap s b with h | h <;> rw [h]
    · exact hs
    · exact hl b List.mem_cons_self

/-- More votes for others than the count depose the candidate. -/
theorem overtaken (hl : ∀ b ∈ l, b ≠ v) (hc : s.count < l.length) : (run cap s l).candidate ≠ v := by
  induction l generalizing s with
  | nil => exact absurd hc (Nat.not_lt_zero _)
  | cons b l ih =>
    have hb := hl b List.mem_cons_self
    have hrest : ∀ x ∈ l, x ≠ v := fun x hx => hl x (List.mem_cons_of_mem _ hx)
    rw [run_cons]
    by_cases hv : s.candidate = v
    · unfold cast
      split
      · exact candidate_run_ne hb hrest
      · rw [if_neg (hv ▸ hb.symm)]
        refine ih hrest ?_
        simp only [List.length_cons] at hc ⊢
        omega
    · refine candidate_run_ne ?_ hrest
      rcases @candidate_cast α _ cap s b with h | h <;> rw [h]
      · exact hv
      · exact hb

/-- **A majority can lose** when more than `cap` votes are for others: they come last. -/
theorem exists_deposed (hcap : 1 ≤ cap) (h0 : s.count = 0) (h : l.count v + cap < l.length) :
    ∃ l', l'.Perm l ∧ (run cap s l').candidate ≠ v := by
  refine ⟨l.filter (· = v) ++ l.filter (· ≠ v), ?_, ?_⟩
  · simpa using List.filter_append_perm (fun b => decide (b = v)) l
  · rw [run_append]
    refine overtaken (fun b hb => by simpa using (List.mem_filter.mp hb).2) ?_
    have hle := count_run_le (s := s) hcap (by omega) (l.filter (· = v))
    have := count_add_length_ne v l
    omega

/-! ### Ties -/

/-- Three values share the votes. -/
theorem count_three_le {a b c : α} (hab : a ≠ b) (hac : a ≠ c) (hbc : b ≠ c) (l : List α) :
    l.count a + l.count b + l.count c ≤ l.length := by
  have hrest := count_two_le hbc (l.filter (· ≠ a))
  rw [List.count_filter (by simpa using hab.symm), List.count_filter (by simpa using hac.symm)] at hrest
  have := count_add_length_ne a l
  omega

/-- The votes of a list of pairs. -/
def votes (ps : List (α × α)) : List α := ps.flatMap fun p => [p.1, p.2]

omit [DecidableEq α] in
theorem votes_cons (p : α × α) (ps : List (α × α)) : votes (p :: ps) = p.1 :: p.2 :: votes ps := rfl

omit [DecidableEq α] in
theorem votes_append (ps qs : List (α × α)) : votes (ps ++ qs) = votes ps ++ votes qs := List.flatMap_append

/-- Some value that occurs is at least as frequent as every other. -/
theorem exists_most_frequent (h : l ≠ []) : ∃ v ∈ l, ∀ u, l.count u ≤ l.count v := by
  obtain ⟨v, hv, hmax⟩ := l.toFinset.exists_max_image (fun u => l.count u)
    ⟨l.head h, List.mem_toFinset.mpr (List.head_mem h)⟩
  refine ⟨v, List.mem_toFinset.mp hv, fun u => ?_⟩
  by_cases hu : u ∈ l
  · exact hmax u (List.mem_toFinset.mpr hu)
  · rw [List.count_eq_zero_of_not_mem hu]
    exact Nat.zero_le _

/-- Votes without a majority pair off into votes that differ. -/
theorem exists_pairs {n : ℕ} (l : List α) (hn : l.length = 2 * n) (h : ∀ u, l.count u ≤ n) :
    ∃ ps : List (α × α), (∀ p ∈ ps, p.1 ≠ p.2) ∧ (votes ps).Perm l := by
  induction n generalizing l with
  | zero =>
    rw [List.length_eq_zero_iff.mp hn]
    exact ⟨[], by simp, List.Perm.refl _⟩
  | succ n ih =>
    have hne : l ≠ [] := fun he => by simp [he] at hn
    obtain ⟨v, hv, hmax⟩ := exists_most_frequent hne
    -- not every vote is for `v`
    obtain ⟨u, hu, huv⟩ : ∃ u ∈ l, u ≠ v := by
      by_contra hall
      push Not at hall
      have := List.count_eq_length.mpr fun b hb => (hall b hb).symm
      have := h v
      omega
    have hu' : u ∈ l.erase v := (List.mem_erase_of_ne huv).mpr hu
    have hperm : (v :: u :: (l.erase v).erase u).Perm l :=
      ((List.perm_cons_erase hu').symm.cons v).trans (List.perm_cons_erase hv).symm
    obtain ⟨ps, hps, hp⟩ := ih ((l.erase v).erase u) (by have := hperm.length_eq; simp at this; omega) (by
      intro x
      have hx := h x
      have hcount := hperm.count_eq x
      simp only [List.count_cons, beq_iff_eq] at hcount
      by_cases hxv : v = x
      · rw [if_pos hxv] at hcount
        omega
      · by_cases hxu : u = x
        · rw [if_pos hxu] at hcount
          omega
        · -- a third value as frequent as `v` leaves no vote for `u`
          have h3 := count_three_le hxv (Ne.symm huv) (Ne.symm hxu) l
          have h1 := List.one_le_count_iff.mpr hu
          have h2 := hmax x
          rw [if_neg hxv, if_neg hxu] at hcount
          omega)
    refine ⟨(v, u) :: ps, ?_, ?_⟩
    · intro p hmem
      rcases List.mem_cons.mp hmem with rfl | hmem
      · exact huv.symm
      · exact hps p hmem
    · rw [votes_cons]
      exact ((hp.cons u).cons v).trans hperm

/-- Two votes that differ leave the count at zero, with the first as candidate. -/
theorem run_pair {a b : α} (hab : a ≠ b) (h0 : s.count = 0) : run cap s [a, b] = ⟨a, 0⟩ := by
  simp only [run, List.foldl_cons, List.foldl_nil, cast, h0, if_true, Nat.one_ne_zero, if_false, if_neg hab,
    Nat.sub_self]

theorem count_run_votes {ps : List (α × α)} (hps : ∀ p ∈ ps, p.1 ≠ p.2) (h0 : s.count = 0) :
    (run cap s (votes ps)).count = 0 := by
  induction ps generalizing s with
  | nil => exact h0
  | cons p ps ih =>
    rw [votes_cons, show p.1 :: p.2 :: votes ps = [p.1, p.2] ++ votes ps from rfl, run_append,
      run_pair (hps p List.mem_cons_self) h0]
    exact ih (fun q hq => hps q (List.mem_cons_of_mem _ hq)) rfl

/-- **Without a majority any vote can win**: the others cancel in pairs. -/
theorem exists_elected (h0 : s.count = 0) (h : ∀ u, 2 * l.count u ≤ l.length) {w : α} (hw : w ∈ l) :
    ∃ l', l'.Perm l ∧ (run cap s l').candidate = w := by
  rcases Nat.even_or_odd' l.length with ⟨n, hn | hn⟩
  · obtain ⟨ps, hps, hp⟩ := exists_pairs l hn fun u => by have := h u; omega
    -- the pair of `w` goes last, `w` first in it
    obtain ⟨p, hpm, hwp⟩ := List.mem_flatMap.mp (hp.mem_iff.mpr hw)
    obtain ⟨as, bs, rfl⟩ := List.append_of_mem hpm
    have hrest : (votes (as ++ bs) ++ [p.1, p.2]).Perm l := by
      refine List.Perm.trans ?_ hp
      rw [votes_append, votes_append, votes_cons, List.append_assoc]
      exact List.Perm.append_left _ List.perm_append_comm
    have hzero : (run cap s (votes (as ++ bs))).count = 0 :=
      count_run_votes (fun q hq => hps q (by
        rcases List.mem_append.mp hq with hq | hq
        · exact List.mem_append_left _ hq
        · exact List.mem_append_right _ (List.mem_cons_of_mem _ hq))) h0
    have hne := hps p hpm
    rcases List.mem_pair.mp hwp with rfl | rfl
    · exact ⟨_, hrest, by rw [run_append, run_pair hne hzero]⟩
    · refine ⟨_, (List.Perm.append_left _ (List.Perm.swap _ _ [])).trans hrest, ?_⟩
      rw [run_append, run_pair hne.symm hzero]
  · have hperm := List.perm_cons_erase hw
    have hlen := hperm.length_eq
    obtain ⟨ps, hps, hp⟩ := exists_pairs (n := n) (l.erase w) (by rw [List.length_cons] at hlen; omega) fun u => by
      have := (List.erase_sublist (a := w) (l := l)).count_le u
      have := h u
      omega
    refine ⟨votes ps ++ [w], ?_, ?_⟩
    · exact List.perm_append_comm.trans ((hp.cons w).trans hperm.symm)
    · rw [run_append, run, List.foldl_cons, List.foldl_nil, cast, if_pos (count_run_votes hps h0)]

/-! ### Counters at many slots -/

section Slots

variable {κ β γ : Type} [DecidableEq κ]

omit [DecidableEq α] in
/-- A fold that updates one slot for each element, seen at slot `k`. -/
theorem foldl_update_apply (key : γ → κ) (f : β → γ → β) (l : List γ) (t : κ → β) (k : κ) :
    l.foldl (fun t p => Function.update t (key p) (f (t (key p)) p)) t k
      = (l.filter fun p => key p = k).foldl f (t k) := by
  induction l generalizing t with
  | nil => rfl
  | cons p l ih =>
    rw [List.foldl_cons, ih, List.filter_cons]
    by_cases hk : key p = k
    · subst hk
      simp only [Function.update_self, decide_true, if_true, List.foldl_cons]
    · simp only [hk, Function.update_of_ne (Ne.symm hk), decide_false, Bool.false_eq_true, if_false]

/-- A counter that stops at `top` counts up to it. -/
theorem foldl_saturating (top : ℕ) (q : γ → Bool) (l : List γ) {n : ℕ} (hn : n ≤ top) :
    l.foldl (fun n p => if q p then if n < top then n + 1 else n else n) n = min (n + l.countP q) top := by
  induction l generalizing n with
  | nil =>
    rw [List.foldl_nil, List.countP_nil]
    omega
  | cons p l ih =>
    rw [List.foldl_cons, List.countP_cons]
    split
    · split
      · rw [ih (by omega)]
        congr 1
        omega
      · rw [ih hn]
        omega
    · rw [ih hn, Nat.add_zero]

end Slots

end Vote
