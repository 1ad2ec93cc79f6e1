/-
# Predictions with a confidence

An entry predicts one value and counts how sure it is: a value that was predicted raises the confidence, up
to `cap`, any other lowers it, and at the lowest the prediction is replaced. Two potentials say what that
achieves.

The occurrences of `v` that an entry still needs until it predicts `v` pay for the mistakes: a table of
entries that learns online makes at most twice the mistakes of any fixed table, and what its entries need at
the start (`misses_add_need`). The lead of `v` rises by one with `v`, up to `cap`, and falls by one at most
with any other value, so that a value with a lead over the others is predicted (`lead_run`).

Key definitions: `Entry`, `learn`, `need`, `lead`, `misses`.
Key theorems: `misses_add_need`, `lead_run`, `predicts_iff`.
-/
import Mathlib.Algebra.BigOperators.Group.Finset.Basic
import Mathlib.Algebra.Order.BigOperators.Group.Finset
import Mathlib.Data.List.Infix
import Mathlib.Tactic

namespace Confidence

variable {α ι : Type}

/-- A prediction and its confidence, zero if there is none. -/
structure Entry (α : Type) where
  value : α
  conf : ℕ

variable [DecidableEq α] [DecidableEq ι] {cap : ℕ} {e : Entry α} {v b : α}

/-- One observation. -/
def learn (cap : ℕ) (e : Entry α) (b : α) : Entry α :=
  if e.conf = 0 then ⟨b, 1⟩
  else if e.value ≠ b then
    if 1 < e.conf then ⟨e.value, e.conf - 1⟩ else ⟨b, 1⟩
  else if e.conf < cap then ⟨e.value, e.conf + 1⟩ else e

/-- The entry predicts `v`. -/
def Entry.Predicts (e : Entry α) (v : α) : Prop := e.conf ≠ 0 ∧ e.value = v

instance : Decidable (e.Predicts v) := inferInstanceAs (Decidable (_ ∧ _))

/-- How often `v` must be met until it is predicted. -/
def need (v : α) (e : Entry α) : ℕ := if e.conf = 0 then 1 else if e.value = v then 0 else e.conf

/-- How far `v` is ahead of all others. -/
def lead (v : α) (e : Entry α) : ℤ := if e.conf = 0 then 0 else if e.value = v then e.conf else 1 - e.conf

/-- What an observation makes of an entry. -/
theorem learn_cases (cap : ℕ) (e : Entry α) (b : α) : (e.conf = 0 ∧ learn cap e b = ⟨b, 1⟩) ∨
    (0 < e.conf ∧ e.value = b ∧ learn cap e b = ⟨b, if e.conf < cap then e.conf + 1 else e.conf⟩) ∨
    (1 < e.conf ∧ e.value ≠ b ∧ learn cap e b = ⟨e.value, e.conf - 1⟩) ∨
    (e.conf = 1 ∧ e.value ≠ b ∧ learn cap e b = ⟨b, 1⟩) := by
  unfold learn
  by_cases h0 : e.conf = 0
  · exact .inl ⟨h0, if_pos h0⟩
  · rw [if_neg h0]
    by_cases hb : e.value = b
    · refine .inr (.inl ⟨by omega, hb, ?_⟩)
      rw [if_neg (not_not.mpr hb), ← hb]
      split <;> rfl
    · rw [if_pos hb]
      by_cases h1 : 1 < e.conf
      · exact .inr (.inr (.inl ⟨h1, hb, if_pos h1⟩))
      · exact .inr (.inr (.inr ⟨by omega, hb, if_neg h1⟩))

section Values

variable {w : α} {c : ℕ}

theorem need_self (hc : 0 < c) : need v ⟨v, c⟩ = 0 := by
  rw [need, if_neg (by simp only; omega), if_pos rfl]

theorem need_ne (hw : w ≠ v) (hc : 0 < c) : need v ⟨w, c⟩ = c := by
  rw [need, if_neg (by simp only; omega), if_neg hw]

theorem lead_self (hc : 0 < c) : lead v ⟨v, c⟩ = c := by
  rw [lead, if_neg (by simp only; omega), if_pos rfl]

theorem lead_ne (hw : w ≠ v) (hc : 0 < c) : lead v ⟨w, c⟩ = 1 - c := by
  rw [lead, if_neg (by simp only; omega), if_neg hw]

end Values

theorem predicts_iff : e.Predicts v ↔ 1 ≤ lead v e := by
  unfold Entry.Predicts lead
  by_cases h0 : e.conf = 0
  · simp [h0]
  · by_cases hv : e.value = v
    · simp only [h0, hv, not_false_eq_true, ne_eq, and_self, if_false, if_true, true_iff]
      omega
    · simp only [h0, hv, and_false, if_false, false_iff]
      omega

theorem need_le {n : ℕ} (hn : 1 ≤ n) (h : e.conf ≤ n) : need v e ≤ n := by
  unfold need
  split
  · exact hn
  · split
    · exact Nat.zero_le n
    · exact h

theorem le_lead {n : ℕ} (hn : 1 ≤ n) (h : e.conf ≤ n) : 1 - (n : ℤ) ≤ lead v e := by
  unfold lead
  split
  · omega
  · split <;> omega

theorem conf_learn_le (hcap : 1 ≤ cap) (h : e.conf ≤ cap) (b : α) : (learn cap e b).conf ≤ cap := by
  rcases learn_cases cap e b with ⟨-, he⟩ | ⟨-, -, he⟩ | ⟨-, -, he⟩ | ⟨-, -, he⟩
  · rw [he]
    exact hcap
  · rw [he]
    simp only
    split <;> omega
  · rw [he]
    simp only
    omega
  · rw [he]
    exact hcap

theorem conf_foldl_le (hcap : 1 ≤ cap) : ∀ (l : List α) {e : Entry α}, e.conf ≤ cap → (l.foldl (learn cap) e).conf ≤ cap
  | [], _, h => h
  | b :: l, _, h => conf_foldl_le hcap l (conf_learn_le hcap h b)

/-! ### Mistakes -/

/-- **One observation.** A mistake at `v` is one that was needed; any other value may cost one now and one
later. -/
theorem miss_add_need (cap : ℕ) (e : Entry α) (v b : α) : (if e.Predicts b then 0 else 1) + need v (learn cap e b)
    ≤ need v e + if b = v then 0 else 2 := by
  obtain ⟨w, c⟩ := e
  rcases learn_cases cap ⟨w, c⟩ b with ⟨h0, he⟩ | ⟨h0, hb, he⟩ | ⟨h1, hb, he⟩ | ⟨h1, hb, he⟩ <;> rw [he]
  · have hmiss : ¬Entry.Predicts ⟨w, c⟩ b := fun h => h.1 h0
    have hneed : need v ⟨w, c⟩ = 1 := if_pos h0
    rw [if_neg hmiss, hneed]
    by_cases hv : b = v
    · rw [hv, need_self Nat.one_pos, if_pos rfl]
    · rw [need_ne hv Nat.one_pos, if_neg hv]
      omega
  · simp only at h0 hb
    subst hb
    have hpos : 0 < if c < cap then c + 1 else c := by split <;> omega
    have hhit : Entry.Predicts ⟨w, c⟩ w := ⟨h0.ne', rfl⟩
    rw [if_pos hhit]
    by_cases hv : w = v
    · rw [hv, need_self hpos, need_self h0, if_pos rfl]
    · rw [need_ne hv hpos, need_ne hv h0, if_neg hv]
      split <;> omega
  · simp only at h1 hb ⊢
    have hmiss : ¬Entry.Predicts ⟨w, c⟩ b := fun h => hb h.2
    rw [if_neg hmiss]
    by_cases hv : w = v
    · have hbv : ¬b = v := fun h => hb (hv.trans h.symm)
      rw [hv, need_self (by omega), need_self (by omega), if_neg hbv]
      omega
    · rw [need_ne hv (by omega), need_ne hv (by omega)]
      split <;> omega
  · simp only at h1 hb
    have hmiss : ¬Entry.Predicts ⟨w, c⟩ b := fun h => hb h.2
    rw [if_neg hmiss, h1]
    by_cases hv : w = v
    · have hbv : ¬b = v := fun h => hb (hv.trans h.symm)
      rw [need_ne hbv Nat.one_pos, if_neg hbv]
      omega
    · rw [need_ne hv Nat.one_pos]
      by_cases hbv : b = v
      · rw [hbv, need_self Nat.one_pos, if_pos rfl]
      · rw [need_ne hbv Nat.one_pos, if_neg hbv]
        omega

/-- The mistakes of a table that learns as it goes, over values met at keys. -/
def misses (cap : ℕ) : (ι → Entry α) → List (ι × α) → ℕ
  | _, [] => 0
  | t, p :: l => (if (t p.1).Predicts p.2 then 0 else 1) + misses cap (Function.update t p.1 (learn cap (t p.1) p.2)) l

/-- **Mistakes are twice those of any fixed table** `v`, and what the entries need at the start. -/
theorem misses_add_need (v : ι → α) {S : Finset ι} : ∀ (l : List (ι × α)) (t : ι → Entry α), (∀ p ∈ l, p.1 ∈ S) →
    misses cap t l ≤ ∑ k ∈ S, need (v k) (t k) + 2 * l.countP fun p => p.2 ≠ v p.1
  | [], _, _ => Nat.zero_le _
  | p :: l, t, hS => by
    have hp : p.1 ∈ S := hS p (List.mem_cons_self ..)
    have ih := misses_add_need v l (Function.update t p.1 (learn cap (t p.1) p.2))
      fun q hq => hS q (List.mem_cons_of_mem _ hq)
    have hstep := miss_add_need cap (t p.1) (v p.1) p.2
    -- only the entry met changes its need
    have hrest : ∑ k ∈ S.erase p.1, need (v k) (Function.update t p.1 (learn cap (t p.1) p.2) k)
        = ∑ k ∈ S.erase p.1, need (v k) (t k) :=
      Finset.sum_congr rfl fun k hk => by rw [Function.update_of_ne (Finset.ne_of_mem_erase hk)]
    rw [← Finset.add_sum_erase S _ hp, hrest, Function.update_self] at ih
    rw [← Finset.add_sum_erase S (fun k => need (v k) (t k)) hp, misses, List.countP_cons]
    by_cases hv : p.2 = v p.1
    · rw [if_pos hv] at hstep
      simp only [hv, ne_eq, not_true_eq_false, decide_false, Bool.false_eq_true, if_false] at ih hstep ⊢
      omega
    · rw [if_neg hv] at hstep
      simp only [hv, ne_eq, not_false_eq_true, decide_true, if_true]
      simp only [ne_eq] at ih
      omega

/-! ### The lead of a value -/

/-- How much oftener `v` is met than all others together. -/
def margin (v : α) : List α → ℤ
  | [] => 0
  | b :: l => (if b = v then 1 else -1) + margin v l

theorem margin_eq (v : α) : ∀ l : List α, margin v l = l.count v - (l.countP (· ≠ v) : ℤ)
  | [] => rfl
  | b :: l => by
    rw [margin, margin_eq v l, List.count_cons, List.countP_cons]
    by_cases hb : b = v
    · simp only [hb, if_true, beq_self_eq_true, ne_eq, not_true_eq_false, decide_false, Bool.false_eq_true, if_false,
        Nat.cast_add, Nat.cast_one, Nat.add_zero]
      omega
    · simp only [hb, if_false, beq_iff_eq, ne_eq, not_false_eq_true, decide_true, if_true, Nat.cast_add, Nat.cast_one,
        Nat.add_zero]
      omega

theorem lead_learn (hcap : 1 ≤ cap) (h : e.conf ≤ cap) (v b : α) :
    min (lead v e + if b = v then 1 else -1) cap ≤ lead v (learn cap e b) := by
  obtain ⟨w, c⟩ := e
  simp only at h
  rcases learn_cases cap ⟨w, c⟩ b with ⟨h0, he⟩ | ⟨h0, hb, he⟩ | ⟨h1, hb, he⟩ | ⟨h1, hb, he⟩ <;> rw [he]
  · have hlead : lead v ⟨w, c⟩ = 0 := if_pos h0
    rw [hlead]
    by_cases hv : b = v
    · rw [hv, lead_self Nat.one_pos, if_pos rfl]
      omega
    · rw [lead_ne hv Nat.one_pos, if_neg hv]
      omega
  · simp only at h0 hb
    subst hb
    have hpos : 0 < if c < cap then c + 1 else c := by split <;> omega
    by_cases hv : w = v
    · rw [hv, lead_self hpos, lead_self h0, if_pos rfl]
      split <;> omega
    · rw [lead_ne hv hpos, lead_ne hv h0, if_neg hv]
      split <;> omega
  · simp only at h1 hb ⊢
    by_cases hv : w = v
    · have hbv : ¬b = v := fun h => hb (hv.trans h.symm)
      rw [hv, lead_self (by omega), lead_self (by omega), if_neg hbv]
      omega
    · rw [lead_ne hv (by omega), lead_ne hv (by omega)]
      split <;> omega
  · simp only at h1 hb
    rw [h1]
    by_cases hv : w = v
    · have hbv : ¬b = v := fun h => hb (hv.trans h.symm)
      rw [hv, lead_self Nat.one_pos, lead_ne hbv Nat.one_pos, if_neg hbv]
      omega
    · rw [lead_ne hv Nat.one_pos]
      by_cases hbv : b = v
      · rw [hbv, lead_self Nat.one_pos, if_pos rfl]
        omega
      · rw [lead_ne hbv Nat.one_pos, if_neg hbv]
        omega

/-- **A lead lasts.** If `v` is ahead by `n` in all, and nowhere from the cap on falls below `n`, it is
ahead by `n` at the end. -/
theorem lead_run (hcap : 1 ≤ cap) {n : ℤ} : ∀ (l : List α) {e : Entry α}, e.conf ≤ cap → n ≤ lead v e + margin v l →
    (∀ s, s <:+ l → n ≤ cap + margin v s) → n ≤ lead v (l.foldl (learn cap) e)
  | [], _, _, h, _ => by simpa [margin] using h
  | b :: l, e, hconf, h, hs => by
    have hstep := lead_learn hcap hconf v b
    have hl := hs l (List.suffix_cons b l)
    rw [margin] at h
    rw [List.foldl_cons]
    apply lead_run hcap l (conf_learn_le hcap hconf b) _ fun s hsl => hs s (hsl.trans (List.suffix_cons b l))
    omega

end Confidence
