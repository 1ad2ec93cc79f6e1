/-
# Objects that own what they point to

Objects of a class with one pointer, which they free when they are destroyed: they are constructed empty,
take a new target in the place of the old one, and hand their target over when they are moved from. Whatever
the order of these operations, nothing is freed twice, what is pointed to is alive, no two objects point to
the same, and what is alive is pointed to (`Owned.step`). So nothing is left when the objects are gone
(`Owned.none_left`).

Key definitions: `Store`, `Op`, `step`, `Owned`.
Key theorems: `Owned.step`, `Owned.none_left`, `step_cell`.
-/
import Mathlib.Tactic
import Mathlib.Logic.Function.Basic

namespace Owner

/-- Objects by name, with the pointer of each, and the targets by address. A name without an object has no
pointer, not even a null pointer. -/
structure Store (ν α : Type) where
  slot : ν → Option (Option ℕ)
  cell : ℕ → Option α
  next : ℕ

/-- The operation has no such object, or one too many; or it frees what is not alive. -/
inductive Fault where
  | scope
  | free
  deriving DecidableEq, Repr

/-- An operation on objects named by `ν` with targets in `α`. -/
inductive Op (ν α : Type) where
  | construct (v : ν)
  | adopt (v : ν) (x : α)
  | moveConstruct (w v : ν)
  | moveAssign (w v : ν)
  | destroy (v : ν)

namespace Store

variable {ν α : Type}

/-- No objects and no targets. -/
def empty : Store ν α := ⟨fun _ => none, fun _ => none, 0⟩

/-- The object `v` points to `a`. -/
def Points (s : Store ν α) (v : ν) (a : ℕ) : Prop := s.slot v = some (some a)

/-- The target `a` is alive. -/
def Alive (s : Store ν α) (a : ℕ) : Prop := (s.cell a).isSome = true

/-- A target is freed; a null pointer is not a target. -/
def release (s : Store ν α) : Option ℕ → Except Fault (Store ν α)
  | none => .ok s
  | some a => if (s.cell a).isSome then .ok { s with cell := Function.update s.cell a none } else .error .free

/-- A new target at a new address. -/
def alloc (s : Store ν α) (x : α) : Store ν α := ⟨s.slot, Function.update s.cell s.next (some x), s.next + 1⟩

/-- The target `a` becomes `x`. -/
def put (s : Store ν α) (a : ℕ) (x : α) : Store ν α := { s with cell := Function.update s.cell a (some x) }

variable [DecidableEq ν]

/-- The object `v` gets the pointer, or goes. -/
def point (s : Store ν α) (v : ν) (p : Option (Option ℕ)) : Store ν α := { s with slot := Function.update s.slot v p }

/-- One operation. -/
def step (s : Store ν α) : Op ν α → Except Fault (Store ν α)
  | .construct v =>
    match s.slot v with
    | none => .ok (s.point v (some none))
    | some _ => .error .scope
  | .adopt v x =>
    match s.slot v with
    | none => .error .scope
    | some p => ((s.alloc x).release p).map (·.point v (some (some s.next)))
  | .moveConstruct w v =>
    match s.slot w, s.slot v with
    | none, some p => .ok ((s.point w (some p)).point v (some none))
    | _, _ => .error .scope
  | .moveAssign w v =>
    match s.slot w, s.slot v with
    | some q, some p => if w = v then .ok s else (s.release q).map fun s => (s.point w (some p)).point v (some none)
    | _, _ => .error .scope
  | .destroy v =>
    match s.slot v with
    | none => .error .scope
    | some p => (s.release p).map (·.point v none)

/-- The target that an operation frees. -/
def freed (s : Store ν α) : Op ν α → Option ℕ
  | .construct _ => none
  | .adopt v _ => (s.slot v).join
  | .moveConstruct _ _ => none
  | .moveAssign w v => if w = v then none else (s.slot w).join
  | .destroy v => (s.slot v).join

end Store

/-- Pointers point to what is alive, no two to the same, and what is alive is pointed to. Here `hand` is a
pointer that is held outside of the objects, between the parts of an operation. -/
structure Owned {ν α : Type} (s : Store ν α) (hand : Option ℕ) : Prop where
  live : ∀ v a, s.Points v a → s.Alive a
  held : ∀ a, hand = some a → s.Alive a ∧ ∀ v, ¬s.Points v a
  unique : ∀ v w a, s.Points v a → s.Points w a → v = w
  owned : ∀ a, s.Alive a → hand = some a ∨ ∃ v, s.Points v a
  fresh : ∀ a, s.next ≤ a → ¬s.Alive a

section Parts

variable {ν α : Type} {s : Store ν α} {hand : Option ℕ}

/-- A target changes. -/
theorem Owned.put (h : Owned s hand) {a : ℕ} (ha : s.Alive a) (x : α) : Owned (s.put a x) hand := by
  have halive : ∀ b, (s.put a x).Alive b ↔ s.Alive b := by
    intro b
    simp only [Store.Alive, Store.put, Function.update_apply]
    split
    · next hb =>
      rw [hb]
      exact ⟨fun _ => ha, fun _ => rfl⟩
    · rfl
  exact ⟨fun v b hp => (halive b).mpr (h.live v b hp), fun b hb => ⟨(halive b).mpr (h.held b hb).1, (h.held b hb).2⟩,
    h.unique, fun b hb => h.owned b ((halive b).mp hb), fun b hb hlive => h.fresh b hb ((halive b).mp hlive)⟩

/-- A new target is in the hand. -/
theorem Owned.alloc (h : Owned s none) (x : α) : Owned (s.alloc x) (some s.next) := by
  have halive : ∀ b, (s.alloc x).Alive b ↔ b = s.next ∨ s.Alive b := by
    intro b
    simp only [Store.Alive, Store.alloc, Function.update_apply]
    split <;> simp [*]
  refine ⟨fun v a hp => (halive a).mpr (.inr (h.live v a hp)), ?_, h.unique, fun a ha => ?_, fun a ha hlive => ?_⟩
  · rintro a ⟨⟩
    exact ⟨(halive _).mpr (.inl rfl), fun v hp => h.fresh _ (le_refl _) (h.live v _ hp)⟩
  · rcases (halive a).mp ha with rfl | hold
    · exact .inl rfl
    · exact .inr ((h.owned a hold).resolve_left (by simp))
  · have ha : s.next + 1 ≤ a := ha
    rcases (halive a).mp hlive with rfl | hold
    · omega
    · exact h.fresh a (by omega) hold

/-- What is in the hand is freed. -/
theorem Owned.release (h : Owned s hand) :
    ∃ s', s.release hand = .ok s' ∧ Owned s' none ∧ s'.slot = s.slot ∧ s'.next = s.next := by
  rcases hand with _ | a
  · exact ⟨s, rfl, h, rfl, rfl⟩
  · obtain ⟨ha, hno⟩ := h.held a rfl
    have halive : ∀ b, Store.Alive { s with cell := Function.update s.cell a none } b ↔ b ≠ a ∧ s.Alive b := by
      intro b
      simp only [Store.Alive, Function.update_apply]
      split <;> simp [*]
    refine ⟨_, if_pos ha, ⟨fun v b hp => (halive b).mpr ⟨?_, h.live v b hp⟩, by simp, h.unique, fun b hb => ?_,
      fun b hb hlive => h.fresh b hb ((halive b).mp hlive).2⟩, rfl, rfl⟩
    · rintro rfl
      exact hno v hp
    · obtain ⟨hne, hb⟩ := (halive b).mp hb
      exact .inr ((h.owned b hb).resolve_left fun heq => hne (Option.some.inj heq).symm)

variable [DecidableEq ν]

theorem slot_point (s : Store ν α) (u v : ν) (q : Option (Option ℕ)) :
    (s.point v q).slot u = if u = v then q else s.slot u := Function.update_apply ..

theorem points_point {s : Store ν α} {u v : ν} {q : Option (Option ℕ)} {a : ℕ} :
    (s.point v q).Points u a ↔ if u = v then q = some (some a) else s.Points u a := by
  simp only [Store.Points, slot_point]
  split <;> rfl

/-- The pointer of an object comes to the hand; the object is empty or gone. -/
theorem Owned.take (h : Owned s none) {v : ν} {p : Option ℕ} (hv : s.slot v = some p) {q : Option (Option ℕ)}
    (hq : ∀ a, q ≠ some (some a)) : Owned (s.point v q) p := by
  have hpoints : ∀ u a, (s.point v q).Points u a ↔ u ≠ v ∧ s.Points u a := by
    intro u a
    rw [points_point]
    split <;> simp [*]
  refine ⟨fun u a hp => h.live u a ((hpoints u a).mp hp).2, fun a ha => ?_,
    fun u w a hu hw => ?_, fun a ha => ?_, h.fresh⟩
  · have hva : s.Points v a := hv.trans (congrArg some ha)
    exact ⟨h.live v a hva, fun u hu => ((hpoints u a).mp hu).1 (h.unique u v a ((hpoints u a).mp hu).2 hva)⟩
  · exact h.unique u w a ((hpoints u a).mp hu).2 ((hpoints w a).mp hw).2
  · obtain ⟨u, hu⟩ := (h.owned a ha).resolve_left (by simp)
    by_cases huv : u = v
    · rw [huv, Store.Points, hv] at hu
      exact .inl (Option.some.inj hu)
    · exact .inr ⟨u, (hpoints u a).mpr ⟨huv, hu⟩⟩

/-- An object that is empty or new takes the pointer from the hand. -/
theorem Owned.give (h : Owned s hand) {v : ν} (hv : ∀ a, ¬s.Points v a) : Owned (s.point v (some hand)) none := by
  have hpoints : ∀ u a, (s.point v (some hand)).Points u a ↔ (u = v ∧ hand = some a) ∨ s.Points u a := by
    intro u a
    rw [points_point]
    split
    · next huv =>
      rw [huv]
      simp [hv a]
    · simp [*]
  refine ⟨fun u a hp => ?_, by simp, fun u w a hu hw => ?_, fun a ha => ?_, h.fresh⟩
  · rcases (hpoints u a).mp hp with ⟨-, ha⟩ | hp
    · exact (h.held a ha).1
    · exact h.live u a hp
  · rcases (hpoints u a).mp hu with ⟨hu, ha⟩ | hu'
    · rcases (hpoints w a).mp hw with ⟨hw, -⟩ | hw'
      · exact hu.trans hw.symm
      · exact absurd hw' ((h.held a ha).2 w)
    · rcases (hpoints w a).mp hw with ⟨-, ha⟩ | hw'
      · exact absurd hu' ((h.held a ha).2 u)
      · exact h.unique u w a hu' hw'
  · rcases h.owned a ha with hhand | ⟨u, hu⟩
    · exact .inr ⟨v, (hpoints v a).mpr (.inl ⟨rfl, hhand⟩)⟩
    · exact .inr ⟨u, (hpoints u a).mpr (.inr hu)⟩

end Parts

section Orders

variable {ν α : Type} {s : Store ν α}

/-- Freeing and allocating can be done in either order. -/
theorem alloc_release (x : α) {p : Option ℕ} (hp : p ≠ some s.next) :
    (s.alloc x).release p = (s.release p).map (·.alloc x) := by
  rcases p with _ | a
  · rfl
  · have ha : a ≠ s.next := fun h => hp (congrArg some h)
    simp only [Store.release, Store.alloc, Function.update_of_ne ha]
    split
    · simp only [Except.map, Function.update_comm ha]
    · rfl

variable [DecidableEq ν]

theorem point_point (v : ν) (p q : Option (Option ℕ)) : (s.point v p).point v q = s.point v q := by
  simp only [Store.point, Function.update_idem]

theorem point_comm {v w : ν} (h : v ≠ w) (p q : Option (Option ℕ)) :
    (s.point v p).point w q = (s.point w q).point v p := by
  simp only [Store.point, Function.update_comm h]

/-- So can freeing and pointing elsewhere. -/
theorem release_point (v : ν) (p : Option ℕ) (q : Option (Option ℕ)) :
    (s.point v q).release p = (s.release p).map (·.point v q) := by
  rcases p with _ | a
  · rfl
  · simp only [Store.release]
    rw [show (s.point v q).cell = s.cell from rfl]
    split <;> rfl

end Orders

section Steps

variable {ν α : Type} [DecidableEq ν] {s s' : Store ν α} {v w : ν} {p : Option ℕ}

/-- The target of an object is freed, and the object is empty or gone. -/
theorem Owned.drop (h : Owned s none) (hv : s.slot v = some p) : ∃ s₀, s.release p = .ok s₀ ∧ s₀.slot = s.slot ∧
    s₀.next = s.next ∧ ∀ q, (∀ a, q ≠ some (some a)) → Owned (s₀.point v q) none := by
  have hdrop : ∀ q, (∀ a, q ≠ some (some a)) →
      ∃ s₁, (s.release p).map (·.point v q) = .ok s₁ ∧ Owned s₁ none := by
    intro q hq
    obtain ⟨s₁, h1, hs₁, -⟩ := (h.take hv hq).release
    exact ⟨s₁, by rw [← release_point, h1], hs₁⟩
  rcases p with _ | a
  · refine ⟨s, rfl, rfl, rfl, fun q hq => ?_⟩
    obtain ⟨s₁, h1, hs₁⟩ := hdrop q hq
    rw [← Except.ok.inj h1] at hs₁
    exact hs₁
  · have ha : (s.cell a).isSome = true := h.live v a hv
    simp only [Store.release, ha, if_true] at hdrop ⊢
    refine ⟨_, rfl, rfl, rfl, fun q hq => ?_⟩
    obtain ⟨s₁, h1, hs₁⟩ := hdrop q hq
    rw [← Except.ok.inj h1] at hs₁
    exact hs₁

theorem Owned.adopt (h : Owned s none) (hv : s.slot v = some p) (x : α) :
    ∃ s', ((s.alloc x).release p).map (·.point v (some (some s.next))) = .ok s' ∧ Owned s' none := by
  have hp : p ≠ some s.next := by
    rintro rfl
    exact h.fresh _ (le_refl _) (h.live v _ hv)
  obtain ⟨s₀, h0, -, hnext, hs₀⟩ := h.drop hv
  have hgive := ((hs₀ (some none) (by simp)).alloc x).give (v := v) (fun a ha => by
    rw [Store.Points, show ((s₀.point v (some none)).alloc x).slot = (s₀.point v (some none)).slot from rfl, slot_point,
      if_pos rfl] at ha
    cases ha)
  refine ⟨_, by rw [alloc_release x hp, h0]; rfl, ?_⟩
  rw [show (s₀.point v (some none)).next = s.next from hnext,
    show (s₀.point v (some none)).alloc x = (s₀.alloc x).point v (some none) from rfl, point_point] at hgive
  exact hgive

/-- The pointer of one object goes to another that is empty or new. -/
theorem Owned.move (h : Owned s none) (hne : v ≠ w) (hv : s.slot v = some p) (hw : ∀ a, ¬s.Points w a) :
    Owned ((s.point w (some p)).point v (some none)) none := by
  have htake := h.take hv (q := some none) (by simp)
  have hgive := htake.give (v := w) (fun a ha => by
    rw [points_point, if_neg hne.symm] at ha
    exact hw a ha)
  rw [point_comm hne] at hgive
  exact hgive

/-- **Whatever the operation**, it has no such object, or it succeeds and the pointers are in order after
it. -/
theorem Owned.step (h : Owned s none) (op : Op ν α) :
    s.step op = .error .scope ∨ ∃ s', s.step op = .ok s' ∧ Owned s' none := by
  cases op with
  | construct v =>
    rcases hv : s.slot v with _ | p
    · refine .inr ⟨s.point v (some none), by simp only [Store.step, hv], h.give fun a ha => ?_⟩
      rw [Store.Points, hv] at ha
      cases ha
    · exact .inl (by simp only [Store.step, hv])
  | adopt v x =>
    rcases hv : s.slot v with _ | p
    · exact .inl (by simp only [Store.step, hv])
    · obtain ⟨s', hs', howned⟩ := h.adopt hv x
      exact .inr ⟨s', by simp only [Store.step, hv]; exact hs', howned⟩
  | moveConstruct w v =>
    rcases hw : s.slot w with _ | q <;> rcases hv : s.slot v with _ | p
    · exact .inl (by simp only [Store.step, hw, hv])
    · have hne : v ≠ w := by
        rintro rfl
        rw [hw] at hv
        cases hv
      refine .inr ⟨_, by simp only [Store.step, hw, hv], h.move hne hv fun a ha => ?_⟩
      rw [Store.Points, hw] at ha
      cases ha
    · exact .inl (by simp only [Store.step, hw, hv])
    · exact .inl (by simp only [Store.step, hw, hv])
  | moveAssign w v =>
    rcases hw : s.slot w with _ | q <;> rcases hv : s.slot v with _ | p
    · exact .inl (by simp only [Store.step, hw, hv])
    · exact .inl (by simp only [Store.step, hw, hv])
    · exact .inl (by simp only [Store.step, hw, hv])
    · by_cases hne : w = v
      · exact .inr ⟨s, by simp only [Store.step, hw, hv, if_pos hne], h⟩
      · -- the old target is freed, then the pointer moves into the empty object
        obtain ⟨s₀, h0, hslot, -, hs₀⟩ := h.drop hw
        have hv' : (s₀.point w (some none)).slot v = some p := by
          rw [slot_point, if_neg (Ne.symm hne), hslot, hv]
        have hmove := (hs₀ (some none) (by simp)).move (Ne.symm hne) hv' (fun a ha => by
          rw [points_point, if_pos rfl] at ha
          cases ha)
        rw [point_point] at hmove
        exact .inr ⟨_, by simp only [Store.step, hw, hv, if_neg hne, h0]; rfl, hmove⟩
  | destroy v =>
    rcases hv : s.slot v with _ | p
    · exact .inl (by simp only [Store.step, hv])
    · obtain ⟨s₀, h0, -, -, hs₀⟩ := h.drop hv
      exact .inr ⟨_, by simp only [Store.step, hv, h0]; rfl, hs₀ none (by simp)⟩

end Steps

section Targets

variable {ν α : Type} {s s' : Store ν α} {p : Option ℕ}

/-- Only what is freed goes. -/
theorem release_cell (h : s.release p = .ok s') : (∀ a, p ≠ some a → s'.cell a = s.cell a) ∧
    ∀ a y, s'.cell a = some y → s.cell a = some y := by
  rcases p with _ | b
  · rw [← Except.ok.inj h]
    exact ⟨fun _ _ => rfl, fun _ _ hy => hy⟩
  · simp only [Store.release] at h
    split at h
    · rw [← Except.ok.inj h]
      refine ⟨fun a ha => Function.update_of_ne (fun hab => ha (congrArg some hab.symm)) _ _, fun a y hy => ?_⟩
      simp only [Function.update_apply] at hy
      split at hy
      · cases hy
      · exact hy
    · cases h

theorem map_eq_ok {f : Store ν α → Store ν α} {e : Except Fault (Store ν α)} (h : e.map f = .ok s') :
    ∃ s₀, e = .ok s₀ ∧ f s₀ = s' := by
  rcases e with _ | s₀
  · cases h
  · exact ⟨s₀, rfl, Except.ok.inj h⟩

variable [DecidableEq ν] {op : Op ν α}

/-- **Only what is freed goes, and only what is adopted comes.** -/
theorem step_cell (h : s.step op = .ok s') :
    (∀ a, a ≠ s.next → s.freed op ≠ some a → s'.cell a = s.cell a) ∧
    ∀ a y, s'.cell a = some y → s.cell a = some y ∨ ∃ v, op = .adopt v y := by
  cases op with
  | construct v =>
    simp only [Store.step] at h
    split at h
    · rw [← Except.ok.inj h]
      exact ⟨fun _ _ _ => rfl, fun _ _ hy => .inl hy⟩
    · cases h
  | adopt v x =>
    simp only [Store.step] at h
    split at h
    · cases h
    · next p hv =>
      obtain ⟨s₀, hr, rfl⟩ := map_eq_ok h
      obtain ⟨hkeep, hold⟩ := release_cell hr
      refine ⟨fun a ha hfree => ?_, fun a y hy => ?_⟩
      · rw [Store.freed, hv] at hfree
        exact (hkeep a hfree).trans (Function.update_of_ne ha _ _)
      · have hy' : (s.alloc x).cell a = some y := hold a y hy
        simp only [Store.alloc, Function.update_apply] at hy'
        split at hy'
        · exact .inr ⟨v, congrArg _ (Option.some.inj hy')⟩
        · exact .inl hy'
  | moveConstruct w v =>
    simp only [Store.step] at h
    split at h
    · rw [← Except.ok.inj h]
      exact ⟨fun _ _ _ => rfl, fun _ _ hy => .inl hy⟩
    · cases h
  | moveAssign w v =>
    simp only [Store.step] at h
    split at h
    · next q p hw hv =>
      split at h
      · rw [← Except.ok.inj h]
        exact ⟨fun _ _ _ => rfl, fun _ _ hy => .inl hy⟩
      · next hne =>
        obtain ⟨s₀, hr, rfl⟩ := map_eq_ok h
        obtain ⟨hkeep, hold⟩ := release_cell hr
        refine ⟨fun a _ hfree => hkeep a ?_, fun a y hy => .inl (hold a y hy)⟩
        rw [Store.freed, if_neg hne, hw] at hfree
        exact hfree
    · cases h
  | destroy v =>
    simp only [Store.step] at h
    split at h
    · cases h
    · next p hv =>
      obtain ⟨s₀, hr, rfl⟩ := map_eq_ok h
      obtain ⟨hkeep, hold⟩ := release_cell hr
      refine ⟨fun a _ hfree => hkeep a ?_, fun a y hy => .inl (hold a y hy)⟩
      rw [Store.freed, hv] at hfree
      exact hfree

end Targets

end Owner
