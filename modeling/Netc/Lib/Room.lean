/-
# Encoders that fail for want of room only

An encoder that has written `n` units is given a capacity and fails when what it writes would exceed it.
`Room.Fills` says that the output only grows and that the capacity does nothing else: what was made with one
capacity is made with every other that holds it. Steps of this kind may be put in sequence (`Fills.bind`)
and in loops (`Fills.loop`).
-/
import Netc.Lib.Loop

namespace Room

variable {ε α β : Type}

/-- After `n` units, the step `x` makes at least these, and makes the same with every capacity that holds
it. -/
structure Fills (size : α → ℕ) (n : ℕ) (x : ℕ → Except ε α) : Prop where
  grows : ∀ {cap a}, x cap = .ok a → n ≤ size a
  capped : ∀ {cap cap' a}, x cap = .ok a → size a ≤ cap' → x cap' = .ok a

variable {size : α → ℕ} {size' : β → ℕ} {n : ℕ}

/-- A step that does not look at the capacity. -/
theorem fills_const {x : Except ε α} (h : ∀ a, x = .ok a → n ≤ size a) : Fills size n fun _ => x := ⟨h _, fun h _ => h⟩

/-- **Sequences.** -/
theorem Fills.bind {x : ℕ → Except ε α} {f : α → ℕ → Except ε β} (hx : Fills size n x)
    (hf : ∀ a, Fills size' (size a) (f a)) : Fills size' n fun cap => x cap >>= fun a => f a cap where
  grows h := by
    obtain ⟨a, h1, h2⟩ := Exc.bind_eq_ok h
    exact (hx.grows h1).trans ((hf a).grows h2)
  capped h hle := by
    obtain ⟨a, h1, h2⟩ := Exc.bind_eq_ok h
    simp only [hx.capped h1 (((hf a).grows h2).trans hle), Exc.ok_bind, (hf a).capped h2 hle]

/-- **Loops.** -/
theorem Fills.loop {guard : α → Bool} {body : α → ℕ → Except ε α}
    (h : ∀ a, guard a = true → Fills size (size a) (body a)) (k : ℕ) (a : α) :
    Fills size (size a) fun cap => Loop.run guard (fun s => body s cap) k a := by
  induction k generalizing a with
  | zero => exact fills_const fun b hb => by rw [Except.ok.inj hb]
  | succ k ih =>
    cases hg : guard a with
    | false =>
      simp only [Loop.run_false _ hg]
      exact fills_const fun b hb => by rw [Except.ok.inj hb]
    | true =>
      simp only [Loop.run, if_pos hg]
      exact (h a hg).bind ih

end Room
