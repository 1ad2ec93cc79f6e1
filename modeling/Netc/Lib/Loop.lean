/-
# While loops with a bound

`Loop.run guard body n s` is `while (guard s) s = body s` for at most `n`
rounds, where a round may leave the loop with an error (an early return). The
two rules: a run keeps an invariant and, when a measure bounds the rounds,
ends with the guard false (`run_spec`); and a run follows a path of rounds one
can exhibit (`run_of_path`).
-/
import Mathlib.Tactic
import Netc.Lib.Mem

namespace Loop

variable {σ ε : Type}

/-- At most `n` rounds of `while (guard s) s = body s`. -/
def run (guard : σ → Bool) (body : σ → Except ε σ) : ℕ → σ → Except ε σ
  | 0, s => .ok s
  | n + 1, s => if guard s then body s >>= run guard body n else .ok s

variable {guard : σ → Bool} {body : σ → Except ε σ}

theorem run_false (n : ℕ) {s : σ} (h : guard s = false) : run guard body n s = .ok s := by
  cases n <;> simp [run, h]

theorem run_succ (n : ℕ) {s s' : σ} (hg : guard s = true) (hb : body s = .ok s') :
    run guard body (n + 1) s = run guard body n s' := by
  simp [run, hg, hb, bind, Except.bind]

theorem run_error (n : ℕ) {s : σ} {e : ε} (hg : guard s = true) (hb : body s = .error e) :
    run guard body (n + 1) s = .error e := by
  simp [run, hg, hb, bind, Except.bind]

/-- What a loop ends with: the invariant and a false guard, or an early
return the rounds allow. -/
def Ends (guard : σ → Bool) (I : σ → Prop) (Q : ε → Prop) : Except ε σ → Prop
  | .ok s => I s ∧ guard s = false
  | .error e => Q e

/-- What every round keeps holds at the end, or at the error that ended the loop. -/
theorem run_post {I : σ → Prop} {Q : ε → Prop} (h : ∀ s, I s → guard s = true → Exc.Post I Q (body s)) :
    ∀ n s, I s → Exc.Post I Q (run guard body n s)
  | 0, _, hs => hs
  | n + 1, s, hs => by
    rw [run]
    split
    · next hg => exact Exc.Post.bind (h s hs hg) fun s' hs' => run_post h n s' hs'
    · exact hs

/-- **The rule for loops.** If every round from a state of `I` keeps `I` and
lowers `μ`, or returns early with `Q`, and the bound covers `μ`, the loop
ends with `I` and a false guard, or returns early with `Q`. -/
theorem run_spec {I : σ → Prop} {Q : ε → Prop} (μ : σ → ℕ)
    (hpos : ∀ s, I s → guard s = true → 0 < μ s)
    (hok : ∀ s s', I s → guard s = true → body s = .ok s' → I s' ∧ μ s' < μ s)
    (herr : ∀ s e, I s → guard s = true → body s = .error e → Q e) :
    ∀ (n : ℕ) (s : σ), I s → μ s ≤ n → Ends guard I Q (run guard body n s)
  | 0, s, hI, hn => by
    refine ⟨hI, ?_⟩
    by_contra hg
    have := hpos s hI (by simpa using hg)
    omega
  | n + 1, s, hI, hn => by
    cases hg : guard s with
    | false => rw [run_false _ hg]; exact ⟨hI, hg⟩
    | true =>
      cases hb : body s with
      | error e => rw [run_error n hg hb]; exact herr s e hI hg hb
      | ok s' =>
        rw [run_succ n hg hb]
        obtain ⟨hI', hlt⟩ := hok s s' hI hg hb
        exact run_spec μ hpos hok herr n s' hI' (by omega)

theorem Ends.post {I : σ → Prop} {Q : ε → Prop} {r : Except ε σ} (h : Ends guard I Q r) : Exc.Post I Q r := by
  cases r with
  | ok s => exact h.1
  | error e => exact h

/-- `k` rounds lead from `s` to `s'`. -/
inductive Path (guard : σ → Bool) (body : σ → Except ε σ) : ℕ → σ → σ → Prop
  | nil (s : σ) : Path guard body 0 s s
  | cons {k : ℕ} {s s' s'' : σ} (hg : guard s = true) (hb : body s = .ok s')
      (h : Path guard body k s' s'') : Path guard body (k + 1) s s''

theorem Path.trans {j k : ℕ} {s s' s'' : σ} (h : Path guard body j s s')
    (h' : Path guard body k s' s'') : Path guard body (j + k) s s'' := by
  induction h with
  | nil s => simpa using h'
  | cons hg hb _ ih =>
    have := Path.cons hg hb (ih h')
    rwa [Nat.add_right_comm] at this

theorem Path.one {s s' : σ} (hg : guard s = true) (hb : body s = .ok s') : Path guard body 1 s s' :=
  .cons hg hb (.nil s')

/-- A run of enough rounds follows a path to its end. -/
theorem run_of_path {k : ℕ} {s s' : σ} (h : Path guard body k s s') (hg : guard s' = false) :
    ∀ n, k ≤ n → run guard body n s = .ok s' := by
  induction h with
  | nil s => exact fun n _ => run_false n hg
  | cons hg' hb _ ih =>
    intro n hn
    obtain ⟨n, rfl⟩ : ∃ j, n = j + 1 := ⟨n - 1, by omega⟩
    rw [run_succ n hg' hb]
    exact ih hg n (by omega)

end Loop
