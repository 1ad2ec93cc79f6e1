/-
# Channels between two copies of a state

Both ends of a channel keep a copy of a state that every message moves on. What a message looks like on the
wire depends on the state, and it can be read by whoever has the same state. Messages are under way for some
time, so that the copy of the receiver is behind the sender's by the messages it has not yet taken in.
`Behind` says this; sending (`Behind.send`) and receiving (`Behind.receive`) keep it, in any interleaving,
and with nothing under way the two copies are the same.

Key definitions: `Channel.Codec`, `Channel.Behind`.
Key theorems: `Channel.Behind.send`, `Channel.Behind.receive`, `Channel.Behind.same_of_idle`.
-/
import Mathlib.Data.List.Basic

namespace Channel

/-- States `σ` that messages `μ` move on, and wire forms `ω` that are read in a state. -/
structure Codec (σ μ ω : Type) where
  /-- The copies at both ends are the same, as far as the messages are concerned. -/
  same : σ → σ → Prop
  /-- The state after a message. -/
  absorb : σ → μ → σ
  /-- In this state the wire form is read as the message. -/
  reads : σ → ω → μ → Prop
  refl : ∀ s, same s s
  symm : ∀ {s t}, same s t → same t s
  trans : ∀ {s t u}, same s t → same t u → same s u
  absorb_same : ∀ {s t}, same s t → ∀ m, same (absorb s m) (absorb t m)
  reads_same : ∀ {s t}, same s t → ∀ {w m}, reads s w m → reads t w m

variable {σ μ ω : Type} (c : Codec σ μ ω) {s t u : σ} {w : ω} {m : μ} {flight : List ω} {pend : List μ}

/-- Read one after another, the wire forms under way are the messages `pend`. -/
def Underway : σ → List ω → List μ → Prop
  | _, [], [] => True
  | s, w :: flight, m :: pend => c.reads s w m ∧ Underway (c.absorb s m) flight pend
  | _, _, _ => False

/-- The receiver `s` is behind the sender `t` by the messages `pend`, which are under way. -/
structure Behind (s t : σ) (flight : List ω) (pend : List μ) : Prop where
  same : c.same (pend.foldl c.absorb s) t
  underway : Underway c s flight pend

variable {c}

theorem foldl_same (h : c.same s t) (pend : List μ) : c.same (pend.foldl c.absorb s) (pend.foldl c.absorb t) := by
  induction pend generalizing s t with
  | nil => exact h
  | cons m pend ih => exact ih (c.absorb_same h m)

theorem Underway.congr (hs : c.same s t) (h : Underway c s flight pend) : Underway c t flight pend := by
  induction flight generalizing s t pend with
  | nil =>
    cases pend with
    | nil => trivial
    | cons m pend => exact h.elim
  | cons w flight ih =>
    cases pend with
    | nil => exact h.elim
    | cons m pend => exact ⟨c.reads_same hs h.1, ih (c.absorb_same hs m) h.2⟩

theorem Underway.length_eq (h : Underway c s flight pend) : flight.length = pend.length := by
  induction flight generalizing s pend with
  | nil =>
    cases pend with
    | nil => rfl
    | cons m pend => exact h.elim
  | cons w flight ih =>
    cases pend with
    | nil => exact h.elim
    | cons m pend => rw [List.length_cons, List.length_cons, ih h.2]

/-- A message that is sent behind those under way. -/
theorem Underway.snoc (h : Underway c s flight pend) (hr : c.reads (pend.foldl c.absorb s) w m) :
    Underway c s (flight ++ [w]) (pend ++ [m]) := by
  induction flight generalizing s pend with
  | nil =>
    cases pend with
    | nil => exact ⟨hr, trivial⟩
    | cons m pend => exact h.elim
  | cons w flight ih =>
    cases pend with
    | nil => exact h.elim
    | cons m pend => exact ⟨h.1, ih h.2 hr⟩

/-- With nothing under way both copies are the same. -/
theorem behind_idle (h : c.same s t) : Behind c s t [] [] := ⟨h, trivial⟩

theorem Behind.same_of_idle (h : Behind c s t [] pend) : c.same s t ∧ pend = [] := by
  cases pend with
  | nil => exact ⟨h.same, rfl⟩
  | cons m pend => exact h.underway.elim

/-- **Sending.** -/
theorem Behind.send (h : Behind c s t flight pend) (hr : c.reads t w m) (hu : c.same (c.absorb t m) u) :
    Behind c s u (flight ++ [w]) (pend ++ [m]) := by
  refine ⟨?_, h.underway.snoc (c.reads_same (c.symm h.same) hr)⟩
  rw [List.foldl_append]
  exact c.trans (c.absorb_same h.same m) hu

/-- **Receiving.** The oldest message under way is read, and the receiver is less behind. -/
theorem Behind.receive (h : Behind c s t (w :: flight) pend) :
    ∃ m rest, pend = m :: rest ∧ c.reads s w m ∧ ∀ u, c.same (c.absorb s m) u → Behind c u t flight rest := by
  cases pend with
  | nil => exact h.underway.elim
  | cons m rest =>
    refine ⟨m, rest, rfl, h.underway.1, fun u hu => ⟨?_, h.underway.2.congr hu⟩⟩
    exact c.trans (c.symm (foldl_same hu rest)) h.same

end Channel
