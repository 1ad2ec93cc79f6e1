/-
# Run-length coding with bounded counts

A list is cut into runs of equal elements, each of at most `cap`, always as long as possible. Put together
again the runs give the list, and no other way to cut it into such runs has fewer (`expand_greedy`,
`length_greedy_le`): what is left behind a longer run is never harder to cut than what is left behind a
shorter one (`cost_drop_le`).

Key definitions: `lead`, `greedy`, `expand`.
Key theorems: `expand_greedy`, `cost_drop_le`, `length_greedy_le`.
-/
import Mathlib.Tactic
import Mathlib.Data.List.Infix

namespace Runs

variable {α : Type} [DecidableEq α]

/-- How many elements equal to `a` the list begins with, at most `c` of them. -/
def lead : ℕ → α → List α → ℕ
  | 0, _, _ => 0
  | _ + 1, _, [] => 0
  | c + 1, a, b :: l => if b = a then lead c a l + 1 else 0

/-- The runs of a list, each as long as possible and at most `cap + 1`; `fuel` bounds their number. -/
def greedy (cap : ℕ) : ℕ → List α → List (ℕ × α)
  | 0, _ => []
  | _ + 1, [] => []
  | fuel + 1, a :: l => (lead cap a l + 1, a) :: greedy cap fuel (l.drop (lead cap a l))

/-- The list that runs stand for. -/
def expand (ps : List (ℕ × α)) : List α := ps.flatMap fun p => List.replicate p.1 p.2

section Lead

variable {c : ℕ} {a : α} {l : List α}

theorem lead_le : ∀ (c : ℕ) (a : α) (l : List α), lead c a l ≤ c
  | 0, _, _ => le_refl 0
  | c + 1, a, [] => Nat.zero_le _
  | c + 1, a, b :: l => by
    rw [lead]
    split
    · have := lead_le c a l
      omega
    · omega

/-- The run is of equal elements. -/
theorem replicate_lead_append : ∀ (c : ℕ) (a : α) (l : List α), List.replicate (lead c a l) a ++ l.drop (lead c a l) = l
  | 0, _, _ => rfl
  | c + 1, a, [] => rfl
  | c + 1, a, b :: l => by
    rw [lead]
    split
    · next hb => rw [List.replicate_succ, List.cons_append, List.drop_succ_cons, replicate_lead_append c a l, hb]
    · rfl

/-- And no longer one is. -/
theorem le_lead : ∀ (c k : ℕ) (a : α) (l : List α), k ≤ c → k ≤ lead c a (List.replicate k a ++ l)
  | _, 0, _, _, _ => Nat.zero_le _
  | 0, k + 1, _, _, h => absurd h (by omega)
  | c + 1, k + 1, a, l, h => by
    have := le_lead c k a l (by omega)
    rw [List.replicate_succ, List.cons_append, lead, if_pos rfl]
    omega

end Lead

section Greedy

variable {cap : ℕ}

/-- With fuel for every element the fuel does not matter. -/
theorem greedy_fuel : ∀ (n fuel : ℕ) (l : List α), l.length ≤ n → l.length ≤ fuel → greedy cap n l = greedy cap fuel l
  | 0, fuel, l, hn, _ => by
    obtain rfl : l = [] := List.length_eq_zero_iff.mp (by omega)
    cases fuel <;> rfl
  | n + 1, fuel, [], _, _ => by cases fuel <;> rfl
  | n + 1, 0, a :: l, _, hf => absurd hf (by simp)
  | n + 1, fuel + 1, a :: l, hn, hf => by
    rw [List.length_cons] at hn hf
    rw [greedy, greedy, greedy_fuel n fuel _ (by rw [List.length_drop]; omega) (by rw [List.length_drop]; omega)]

/-- The number of runs. -/
def cost (cap : ℕ) (l : List α) : ℕ := (greedy cap l.length l).length

theorem cost_cons (a : α) (l : List α) : cost cap (a :: l) = cost cap (l.drop (lead cap a l)) + 1 := by
  rw [cost, List.length_cons, greedy, List.length_cons, cost,
    greedy_fuel l.length (l.drop (lead cap a l)).length _ (by rw [List.length_drop]; omega) (le_refl _)]

/-- **The runs give the list back.** -/
theorem expand_greedy : ∀ (fuel : ℕ) (l : List α), l.length ≤ fuel → expand (greedy cap fuel l) = l
  | 0, l, h => by
    obtain rfl : l = [] := List.length_eq_zero_iff.mp (by omega)
    rfl
  | _ + 1, [], _ => rfl
  | fuel + 1, a :: l, h => by
    have ih := expand_greedy fuel (l.drop (lead cap a l)) (by rw [List.length_drop]; rw [List.length_cons] at h; omega)
    rw [greedy, expand, List.flatMap_cons]
    simp only
    rw [List.replicate_succ, List.cons_append]
    exact congrArg (a :: ·) ((congrArg (List.replicate (lead cap a l) a ++ ·) ih).trans (replicate_lead_append cap a l))

theorem greedy_bounds : ∀ (fuel : ℕ) (l : List α), ∀ p ∈ greedy cap fuel l, 1 ≤ p.1 ∧ p.1 ≤ cap + 1
  | 0, _, p, hp => by cases hp
  | _ + 1, [], p, hp => by cases hp
  | fuel + 1, a :: l, p, hp => by
    rcases List.mem_cons.mp hp with rfl | hp
    · have := lead_le cap a l
      exact ⟨by simp only; omega, by simp only; omega⟩
    · exact greedy_bounds fuel _ p hp

/-- **Less is left, fewer runs**: from any later place on the list has no more runs. -/
theorem cost_drop_le : ∀ (n : ℕ) (l : List α), l.length ≤ n → ∀ k, cost cap (l.drop k) ≤ cost cap l
  | 0, l, h, k => by
    obtain rfl : l = [] := List.length_eq_zero_iff.mp (by omega)
    rw [List.drop_nil]
  | _ + 1, [], _, k => by rw [List.drop_nil]
  | n + 1, a :: l, h, k => by
    rw [List.length_cons] at h
    have ih := cost_drop_le n (l.drop (lead cap a l)) (by rw [List.length_drop]; omega)
    rw [cost_cons]
    rcases Nat.lt_or_ge (lead cap a l) k with hk | hk
    · -- behind the first run
      have hdrop : (a :: l).drop k = (l.drop (lead cap a l)).drop (k - 1 - lead cap a l) := by
        obtain ⟨j, rfl⟩ : ∃ j, k = j + 1 := ⟨k - 1, by omega⟩
        rw [List.drop_succ_cons, List.drop_drop]
        congr 1
        omega
      rw [hdrop]
      have := ih (k - 1 - lead cap a l)
      omega
    · rcases k with _ | k
      · rw [List.drop_zero, cost_cons]
      · -- inside the first run: the rest of it is a run again, and may be longer
        have hsplit : l.drop k = a :: (List.replicate (lead cap a l - (k + 1)) a ++ l.drop (lead cap a l)) := by
          have hl := replicate_lead_append cap a l
          rw [show lead cap a l = k + (lead cap a l - (k + 1) + 1) by omega, List.replicate_add, List.replicate_succ,
            ← show lead cap a l = k + (lead cap a l - (k + 1) + 1) by omega, List.append_assoc] at hl
          calc l.drop k = (List.replicate k a ++ (a :: List.replicate (lead cap a l - (k + 1)) a
                ++ l.drop (lead cap a l))).drop k := by rw [hl]
            _ = _ := by rw [List.drop_left' (List.length_replicate ..), List.cons_append]
        have hlong := le_lead cap (lead cap a l - (k + 1)) a (l.drop (lead cap a l)) (by
          have := lead_le cap a l
          omega)
        rw [List.drop_succ_cons, hsplit, cost_cons, List.drop_append, List.drop_eq_nil_of_le (by simpa using hlong),
          List.nil_append]
        have := ih (lead cap a (List.replicate (lead cap a l - (k + 1)) a ++ l.drop (lead cap a l))
          - (List.replicate (lead cap a l - (k + 1)) a).length)
        omega

/-- **No other runs are fewer.** -/
theorem cost_expand_le : ∀ ps : List (ℕ × α), (∀ p ∈ ps, 1 ≤ p.1 ∧ p.1 ≤ cap + 1) → cost cap (expand ps) ≤ ps.length
  | [], _ => le_refl 0
  | (c, a) :: ps, h => by
    have ih := cost_expand_le ps fun p hp => h p (List.mem_cons_of_mem _ hp)
    have hc := h (c, a) (List.mem_cons_self ..)
    simp only at hc
    have hexpand : expand ((c, a) :: ps) = a :: (List.replicate (c - 1) a ++ expand ps) := by
      rw [expand, List.flatMap_cons, ← List.cons_append, ← List.replicate_succ, Nat.sub_add_cancel hc.1]
      rfl
    have hlong := le_lead cap (c - 1) a (expand ps) (by omega)
    rw [hexpand, cost_cons, List.drop_append, List.drop_eq_nil_of_le (by simpa using hlong), List.nil_append,
      List.length_cons]
    have := @cost_drop_le α _ cap _ (expand ps) (le_refl _)
      (lead cap a (List.replicate (c - 1) a ++ expand ps) - (List.replicate (c - 1) a).length)
    omega

end Greedy

end Runs
