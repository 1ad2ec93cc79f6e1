/-
# Byte memories

A block of memory is a function from addresses to bytes; what a program does
to it is copy a byte string somewhere (`write`) and read a stretch of it back
(`slice`). The lemmas say what a slice sees of a write: all of it, or none of
it. `Chk` is the monad of code whose loads are checked: an access outside the
object it is made on is a `Fault`, and a program that ends in `.ok` made none. `Exc`
has the rules for sequences of computations that may fail.

Key definitions: `ByteMem.slice`, `ByteMem.write`, `Chk`.
Key theorems: `ByteMem.slice_write_self`, `ByteMem.slice_write_of_le`,
`ByteMem.slice_write_of_ge`, `ByteMem.slice_add`.
-/
import Mathlib.Tactic
import Mathlib.Data.List.GetD

/-- An access outside the object it is made on. -/
inductive Fault where
  | load
  | store
  | index
  deriving DecidableEq, Repr

/-- Code with checked accesses. -/
abbrev Chk := Except Fault

namespace Exc

variable {ε α β : Type}

-- Not by `rfl`: a rewrite by these is a step of its own in a proof, and the
-- programs around it are never compared by unfolding.
@[simp] theorem ok_bind (a : α) (f : α → Except ε β) : (Except.ok a : Except ε α) >>= f = f a := by
  simp only [bind, Except.bind]

@[simp] theorem error_bind (e : ε) (f : α → Except ε β) :
    (Except.error e : Except ε α) >>= f = .error e := by
  simp only [bind, Except.bind]

@[simp] theorem pure_eq (a : α) : (pure a : Except ε α) = .ok a := by
  simp only [pure, Except.pure]

@[simp] theorem throw_eq (e : ε) : (throw e : Except ε α) = .error e := by
  simp only [throw, throwThe, MonadExceptOf.throw]

/-- A sequence that ends well went well at every step. -/
theorem bind_eq_ok {x : Except ε α} {f : α → Except ε β} {b : β} (h : x >>= f = .ok b) :
    ∃ a, x = .ok a ∧ f a = .ok b := by
  cases x with
  | error e => simp at h
  | ok a => exact ⟨a, rfl, by simpa using h⟩

/-- What a computation ends with: a value of `P` or an error of `Q`. -/
def Post (P : α → Prop) (Q : ε → Prop) : Except ε α → Prop
  | .ok a => P a
  | .error e => Q e

section Post

variable {P : α → Prop} {R : β → Prop} {Q : ε → Prop}

@[simp] theorem post_ok {a : α} : Post P Q (.ok a) ↔ P a := Iff.rfl

@[simp] theorem post_error {e : ε} : Post P Q (.error e : Except ε α) ↔ Q e := Iff.rfl

/-- The rule for sequences. -/
theorem Post.bind {x : Except ε α} {f : α → Except ε β} (hx : Post P Q x) (hf : ∀ a, P a → Post R Q (f a)) :
    Post R Q (x >>= f) := by
  cases x with
  | error e => simpa using hx
  | ok a => simpa using hf a hx

end Post

end Exc

namespace Chk

variable {α : Type}

/-- The element of `l` at `i`, if there is one. -/
def get (l : List α) (i : ℕ) : Chk α :=
  match l[i]? with
  | some a => .ok a
  | none => .error .load

theorem get_of_lt {l : List α} {i : ℕ} (h : i < l.length) : get l i = .ok l[i] := by
  simp [get, h]

theorem getD_of_get {l : List α} {i : ℕ} {a : α} (h : get l i = .ok a) (d : α) : l.getD i d = a := by
  rw [get] at h
  rw [List.getD_eq_getElem?_getD]
  split at h
  · next b hb =>
    rw [hb, Option.getD_some]
    exact Except.ok.inj h
  · cases h

/-- `n` elements of `l` from `i` on, if it has so many. -/
def sub (l : List α) (i n : ℕ) : Chk (List α) :=
  if i + n ≤ l.length then .ok ((l.drop i).take n) else .error .load

theorem sub_of_le {l : List α} {i n : ℕ} (h : i + n ≤ l.length) :
    sub l i n = .ok ((l.drop i).take n) := if_pos h

/-- The check that index `i` is one of an array of `n`. -/
def index (i n : ℕ) : Chk Unit := if i < n then .ok () else .error .index

theorem index_of_lt {i n : ℕ} (h : i < n) : index i n = .ok () := if_pos h

end Chk

namespace ByteMem

/-- The `n` bytes of `m` from `off` on. -/
def slice (m : ℕ → UInt8) (off n : ℕ) : List UInt8 := (List.range n).map fun i => m (off + i)

/-- `m` with `bs` copied to `off`. -/
def write (m : ℕ → UInt8) (off : ℕ) (bs : List UInt8) : ℕ → UInt8 := fun i =>
  if off ≤ i ∧ i < off + bs.length then bs.getD (i - off) 0 else m i

variable {m m' : ℕ → UInt8} {off n : ℕ} {bs : List UInt8}

@[simp] theorem length_slice (m : ℕ → UInt8) (off n : ℕ) : (slice m off n).length = n := by simp [slice]

@[simp] theorem slice_zero (m : ℕ → UInt8) (off : ℕ) : slice m off 0 = [] := rfl

theorem slice_succ (m : ℕ → UInt8) (off n : ℕ) : slice m off (n + 1) = m off :: slice m (off + 1) n := by
  simp [slice, List.range_succ_eq_map, Function.comp_def, Nat.add_assoc, Nat.add_comm 1]

theorem getD_slice (m : ℕ → UInt8) (off : ℕ) {i : ℕ} (h : i < n) (d : UInt8) :
    (slice m off n).getD i d = m (off + i) := by
  simp [slice, h]

/-- Slices are equal when the memories agree on them. -/
theorem slice_congr (h : ∀ i, off ≤ i → i < off + n → m i = m' i) : slice m off n = slice m' off n := by
  refine List.map_congr_left fun i hi => h _ (by omega) ?_
  have := List.mem_range.mp hi
  omega

theorem apply_eq_of_slice_eq (h : slice m off n = slice m' off n) {i : ℕ} (h0 : off ≤ i)
    (h1 : i < off + n) : m i = m' i := by
  have hi : i - off < n := by omega
  have := congrArg (fun l : List UInt8 => l.getD (i - off) 0) h
  simp only [getD_slice _ _ hi] at this
  rwa [Nat.add_sub_cancel' h0] at this

/-- A slice in two parts. -/
theorem slice_add (m : ℕ → UInt8) (off a b : ℕ) :
    slice m off (a + b) = slice m off a ++ slice m (off + a) b := by
  simp [slice, List.range_add, Function.comp_def, Nat.add_assoc]

theorem take_slice (m : ℕ → UInt8) (off : ℕ) {k n : ℕ} (h : k ≤ n) :
    (slice m off n).take k = slice m off k := by
  obtain ⟨j, rfl⟩ := Nat.exists_eq_add_of_le h
  rw [slice_add, List.take_append_of_le_length (by simp), List.take_of_length_le (by simp)]

theorem write_of_lt {i : ℕ} (h : i < off) : write m off bs i = m i := by
  rw [write, if_neg (by omega)]

theorem write_of_ge {i : ℕ} (h : off + bs.length ≤ i) : write m off bs i = m i := by
  rw [write, if_neg (by omega)]

theorem write_of_mem {i : ℕ} (h0 : off ≤ i) (h1 : i < off + bs.length) :
    write m off bs i = bs.getD (i - off) 0 := by
  rw [write, if_pos ⟨h0, h1⟩]

@[simp] theorem write_nil (m : ℕ → UInt8) (off : ℕ) : write m off [] = m := by
  funext i
  exact if_neg (by simp)

/-- What was copied is what is read back. -/
@[simp] theorem slice_write_self (m : ℕ → UInt8) (off : ℕ) (bs : List UInt8) :
    slice (write m off bs) off bs.length = bs := by
  refine List.ext_getElem (by simp) fun i h1 h2 => ?_
  have hw : write m off bs (off + i) = bs.getD (off + i - off) 0 := write_of_mem (by omega) (by omega)
  simp only [slice, List.getElem_map, List.getElem_range, hw, Nat.add_sub_cancel_left]
  exact List.getD_eq_getElem bs 0 h2

/-- The slice a copy of `n` bytes made. -/
theorem slice_write_eq (m : ℕ → UInt8) (off : ℕ) {bs : List UInt8} (h : bs.length = n) :
    slice (write m off bs) off n = bs := by
  subst h
  exact slice_write_self m off bs

/-- A copy that starts behind a slice leaves it as it was. -/
theorem slice_write_of_le {o : ℕ} (h : off + n ≤ o) : slice (write m o bs) off n = slice m off n :=
  slice_congr fun _ _ hi => write_of_lt (by omega)

/-- A copy that ends before a slice leaves it as it was. -/
theorem slice_write_of_ge {o : ℕ} (h : o + bs.length ≤ off) :
    slice (write m o bs) off n = slice m off n :=
  slice_congr fun _ hi _ => write_of_ge (by omega)

/-- A copy over the whole of a slice and more: the slice is the copy's prefix. -/
theorem slice_write_prefix (m : ℕ → UInt8) (off : ℕ) {bs : List UInt8} (h : n ≤ bs.length) :
    slice (write m off bs) off n = bs.take n := by
  rw [← take_slice _ _ h, slice_write_self]

end ByteMem
