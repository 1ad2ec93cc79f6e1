/-
# Codes in which no word begins another

Where no word is the beginning of another one and none is empty, a sequence of words written without gaps
can be cut in one way only.

Key theorems: `Prefix.uniquelyDecodable`.
-/
import Mathlib.InformationTheory.Coding.UniquelyDecodable
import Mathlib.Data.List.Basic

namespace Prefix

variable {α : Type} {S : Set (List α)}

/-- Of two sequences of words that read the same, the first words are the same. -/
theorem head_eq (hfree : ∀ p ∈ S, ∀ q ∈ S, p <+: q → p = q) {p q a b : List α} (hp : p ∈ S) (hq : q ∈ S)
    (h : p ++ a = q ++ b) : p = q := by
  have hpre : p <+: q ++ b := h ▸ List.prefix_append p a
  rcases List.prefix_or_prefix_of_prefix hpre (List.prefix_append q b) with hpq | hqp
  · exact hfree p hp q hq hpq
  · exact (hfree q hq p hp hqp).symm

/-- **Words that begin no other can be told apart** in a sequence without gaps. -/
theorem uniquelyDecodable (hne : [] ∉ S) (hfree : ∀ p ∈ S, ∀ q ∈ S, p <+: q → p = q) :
    InformationTheory.UniquelyDecodable S := by
  intro ps
  induction ps with
  | nil =>
    intro qs _ hqs h
    rcases qs with _ | ⟨q, qs⟩
    · rfl
    · rw [List.flatten_nil, List.flatten_cons] at h
      exact absurd (hqs q List.mem_cons_self) ((List.append_eq_nil_iff.mp h.symm).1 ▸ hne)
  | cons p ps ih =>
    intro qs hps hqs h
    have hp := hps p List.mem_cons_self
    rcases qs with _ | ⟨q, qs⟩
    · rw [List.flatten_nil, List.flatten_cons] at h
      exact absurd hp ((List.append_eq_nil_iff.mp h).1 ▸ hne)
    · rw [List.flatten_cons, List.flatten_cons] at h
      obtain rfl := head_eq hfree hp (hqs q List.mem_cons_self) h
      rw [ih qs (fun w hw => hps w (List.mem_cons_of_mem _ hw)) (fun w hw => hqs w (List.mem_cons_of_mem _ hw))
        (List.append_cancel_left h)]

end Prefix
