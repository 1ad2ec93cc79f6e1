/-
# Dictionary coding with back-references

What the two sides of an LZ77 codec share: a stream is a sequence of tokens,
and a token takes the output so far to a longer one (`Lz.Stream`). A decoder
that follows single tokens follows the stream (`Lz.Stream.path`), an encoder
only has to emit tokens that lead from one prefix of its input to the next,
and a back-reference does if the input repeats itself there (`Lz.copyBack_take`).
-/
import Mathlib.Tactic
import Mathlib.Data.List.GetD
import Netc.Lib.Loop

namespace Lz

variable {α β : Type}

/-! ### Copying from the output -/

/-- `n` elements copied one by one from `off` places back, so that a copy may
run into what it has just written. -/
def copyBack (off : ℕ) : ℕ → List α → List α
  | 0, out => out
  | n + 1, out =>
    match out[out.length - off]? with
    | some a => copyBack off n (out ++ [a])
    | none => out

theorem length_copyBack {off : ℕ} (h0 : 0 < off) : ∀ (n : ℕ) (out : List α), off ≤ out.length →
    (copyBack off n out).length = out.length + n
  | 0, out, _ => rfl
  | n + 1, out, h => by
    rw [copyBack, List.getElem?_eq_getElem (by omega)]
    simp only
    rw [length_copyBack h0 n _ (by simp; omega)]
    simp
    omega

/-- **A copy repeats the input** as far as the input repeats itself. -/
theorem copyBack_take {src : List α} {off : ℕ} (h0 : 0 < off) : ∀ (n i : ℕ), off ≤ i → i + n ≤ src.length →
    (∀ k < n, src[i - off + k]? = src[i + k]?) → copyBack off n (src.take i) = src.take (i + n)
  | 0, i, _, _, _ => rfl
  | n + 1, i, hoff, hlen, hrep => by
    have hget : (src.take i)[(src.take i).length - off]? = some src[i] := by
      rw [List.length_take_of_le (by omega), List.getElem?_take_of_lt (by omega)]
      have := hrep 0 (by omega)
      rw [Nat.add_zero, Nat.add_zero] at this
      rw [this, List.getElem?_eq_getElem (by omega)]
    rw [copyBack, hget]
    simp only
    rw [List.take_append_getElem (by omega)]
    rw [copyBack_take h0 n (i + 1) (by omega) (by omega) fun k hk => ?_, Nat.add_assoc, Nat.add_comm 1]
    have := hrep (k + 1) (by omega)
    rwa [show i - off + (k + 1) = i + 1 - off + k by omega, show i + (k + 1) = i + 1 + k by omega] at this

/-- The length of the longest common prefix, at most `m`. -/
def commonLen [DecidableEq α] : List α → List α → ℕ → ℕ
  | a :: as, b :: bs, m + 1 => if a = b then commonLen as bs m + 1 else 0
  | _, _, _ => 0

section Common

variable [DecidableEq α]

theorem commonLen_le : ∀ (as bs : List α) (m : ℕ), commonLen as bs m ≤ m
  | [], _, _ => by simp [commonLen]
  | _ :: _, [], _ => by simp [commonLen]
  | _ :: _, _ :: _, 0 => by simp [commonLen]
  | a :: as, b :: bs, m + 1 => by
    rw [commonLen]
    split
    · have := commonLen_le as bs m
      omega
    · omega

theorem commonLen_spec : ∀ (as bs : List α) (m k : ℕ), k < commonLen as bs m → as[k]? = bs[k]?
  | [], _, _, k, h => by simp [commonLen] at h
  | _ :: _, [], _, k, h => by simp [commonLen] at h
  | _ :: _, _ :: _, 0, k, h => by simp [commonLen] at h
  | a :: as, b :: bs, m + 1, k, h => by
    rw [commonLen] at h
    split at h
    · next hab =>
      cases k with
      | zero => simp [hab]
      | succ k => simpa using commonLen_spec as bs m k (by omega)
    · omega

end Common

/-! ### Streams of tokens -/

/-- The stream is made of tokens that lead from no output to the output. -/
inductive Stream (Tok : List β → List α → List α → Prop) : List β → List α → Prop
  | nil : Stream Tok [] []
  | snoc {s tok : List β} {o o' : List α} (h : Stream Tok s o) (ht : Tok tok o o') : Stream Tok (s ++ tok) o'

/-- Where a token decoder is: how much of the stream is read, and the output. -/
structure Cursor (α : Type) where
  pos : ℕ
  out : List α

/-- **A decoder that follows tokens follows streams**: if a round of its loop
at the start of a token moves past it, the loop gets to the end of any stream
that `full` starts with. Tokens have at least one element and never shorten
the output, which stays within `limit`. -/
theorem Stream.path {ε : Type} {Tok : List β → List α → List α → Prop} {full : List β} {limit : ℕ}
    {body : Cursor α → Except ε (Cursor α)} (hpos : ∀ tok o o', Tok tok o o' → 0 < tok.length ∧ o.length ≤ o'.length)
    (hbody : ∀ s tok rest o o', full = s ++ (tok ++ rest) → Tok tok o o' → o'.length ≤ limit →
      body ⟨s.length, o⟩ = .ok ⟨s.length + tok.length, o'⟩)
    {s : List β} {o : List α} (h : Stream Tok s o) :
    ∀ rest, full = s ++ rest → o.length ≤ limit →
      ∃ k ≤ s.length, Loop.Path (fun c => decide (c.pos < full.length)) body k ⟨0, []⟩ ⟨s.length, o⟩ := by
  induction h with
  | nil => exact fun _ _ _ => ⟨0, Nat.le_refl _, .nil _⟩
  | @snoc s tok o o' _ ht ih =>
    intro rest hfull hlim
    obtain ⟨hp, hle⟩ := hpos tok o o' ht
    have hfull' : full = s ++ (tok ++ rest) := by rw [hfull, List.append_assoc]
    obtain ⟨k, hk, hpath⟩ := ih (tok ++ rest) hfull' (by omega)
    refine ⟨k + 1, by simp; omega, ?_⟩
    have hg : decide ((⟨s.length, o⟩ : Cursor α).pos < full.length) = true := by
      rw [hfull']
      simp
      omega
    rw [List.length_append]
    exact hpath.trans (Loop.Path.one hg (hbody s tok rest o o' hfull' ht hlim))

end Lz
