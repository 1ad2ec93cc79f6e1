/-
# The bit stream is a stack

Whole runs of the writer and the reader of `netc_bitstream.h`. The writes and
the flush succeed just when the buffer has room for the bits and the closing
bit, and a reader over the flushed bytes hands the values back in reverse
order and nothing after them (`bitstream_stack`).

Key definitions: `Fields`, `bswStream`, `bsrReads`.
Key theorems: `bswStream_ok_iff`, `bsrReads_back`, `bitstream_stack`.
-/
import Netc.Bitstream

namespace Netc

/-! ### Runs of writes -/

/-- Values with their widths, in the order they are written. -/
abbrev Fields := List (ℕ × ℕ)

namespace Fields

/-- The number of bits of all values. -/
def width (ws : Fields) : ℕ := (ws.map Prod.snd).sum

/-- The number the values spell, the first in the lowest bits. -/
def value : Fields → ℕ
  | [] => 0
  | p :: ws => p.1 + value ws * 2 ^ p.2

/-- Every width is between 1 and 32, and every value is of its width. -/
def Fit (ws : Fields) : Prop := ∀ p ∈ ws, 1 ≤ p.2 ∧ p.2 ≤ 32 ∧ p.1 < 2 ^ p.2

@[simp] theorem width_nil : width [] = 0 := rfl

@[simp] theorem width_cons (p : ℕ × ℕ) (ws : Fields) : width (p :: ws) = p.2 + width ws := by simp [width]

theorem width_append (ws ws' : Fields) : width (ws ++ ws') = width ws + width ws' := by simp [width]

theorem value_append : ∀ ws ws' : Fields, value (ws ++ ws') = value ws + value ws' * 2 ^ width ws
  | [], ws' => by simp [value]
  | p :: ws, ws' => by
    rw [List.cons_append, value, value, value_append ws ws', width_cons, pow_add]
    ring

theorem fit_cons {p : ℕ × ℕ} {ws : Fields} :
    Fit (p :: ws) ↔ (1 ≤ p.2 ∧ p.2 ≤ 32 ∧ p.1 < 2 ^ p.2) ∧ ws.Fit := List.forall_mem_cons

theorem Fit.value_lt : ∀ {ws : Fields}, ws.Fit → ws.value < 2 ^ ws.width
  | [], _ => by simp [value]
  | p :: ws, h => by
    obtain ⟨⟨-, -, hp⟩, hws⟩ := fit_cons.mp h
    have ih := Fit.value_lt hws
    calc p.1 + value ws * 2 ^ p.2 < (value ws + 1) * 2 ^ p.2 := by rw [add_mul]; omega
      _ ≤ 2 ^ width ws * 2 ^ p.2 := Nat.mul_le_mul_right _ ih
      _ = 2 ^ width (p :: ws) := by rw [width_cons, ← pow_add, Nat.add_comm]

end Fields

/-- The writes `ws` one after the other. -/
def bswWrites (w : Bsw) (ws : Fields) : Except Bsw Bsw := ws.foldlM (fun w p => bswWrite w p.1 p.2) w

/-- The writes `ws` and the flush, into a buffer of `cap` bytes. -/
def bswStream (cap : ℕ) (ws : Fields) : Except Bsw Bsw := bswWrites (bswInit cap) ws >>= bswFlush

section Writes

variable {w w' : Bsw} {T V : ℕ}

theorem bswWrites_cons (w : Bsw) (p : ℕ × ℕ) (ws : Fields) :
    bswWrites w (p :: ws) = bswWrite w p.1 p.2 >>= fun w => bswWrites w ws := List.foldlM_cons ..

/-- A run of writes that succeeds puts the values on top, one above the other. -/
theorem bswWrites_holds : ∀ {ws : Fields} {w : Bsw} {T V : ℕ}, w.Holds T V → ws.Fit → bswWrites w ws = .ok w' →
    w'.Holds (T + ws.width) (V + ws.value * 2 ^ T) ∧ w'.cap = w.cap
  | [], w, T, V, h, _, hw => by
    obtain rfl : w = w' := Except.ok.inj hw
    simpa [Fields.value] using h
  | p :: ws, w, T, V, h, hws, hw => by
    obtain ⟨⟨-, h32, hp⟩, hws⟩ := Fields.fit_cons.mp hws
    rw [bswWrites_cons] at hw
    obtain ⟨w1, h1, hw⟩ := Exc.bind_eq_ok hw
    obtain ⟨hold1, hcap1⟩ := bswWrite_holds h hp h32 h1
    obtain ⟨hold, hcap⟩ := bswWrites_holds hold1 hws hw
    refine ⟨?_, hcap.trans hcap1⟩
    have hvalue : V + Fields.value (p :: ws) * 2 ^ T = V + p.1 * 2 ^ T + Fields.value ws * 2 ^ (T + p.2) := by
      rw [Fields.value, pow_add]
      ring
    rw [Fields.width_cons, ← Nat.add_assoc, hvalue]
    exact hold

/-- From any point on, writes and flush succeed when the buffer can hold the bits and the closing bit. -/
theorem bswWrites_flush_ok_iff : ∀ {ws : Fields} {w : Bsw} {T V : ℕ}, w.Holds T V → ws.Fit →
    ((∃ w', bswWrites w ws >>= bswFlush = .ok w') ↔ (T + ws.width) / 8 + 1 ≤ w.cap)
  | [], w, T, V, h, _ => by
    rw [Fields.width_nil, Nat.add_zero]
    constructor
    · rintro ⟨w', hw⟩
      obtain ⟨-, hlen, hcap⟩ := bswFlush_holds h hw
      omega
    · exact bswFlush_ok h
  | p :: ws, w, T, V, h, hws => by
    obtain ⟨⟨-, h32, hp⟩, hws⟩ := Fields.fit_cons.mp hws
    rw [bswWrites_cons, Fields.width_cons]
    cases h1 : bswWrite w p.1 p.2 with
    | error _ =>
      constructor
      · rintro ⟨w', hw⟩
        cases hw
      · intro hcap
        obtain ⟨w', hw⟩ := @bswWrite_ok w T V p.1 p.2 h (by omega)
        rw [h1] at hw
        cases hw
    | ok w1 =>
      obtain ⟨hold1, hcap1⟩ := bswWrite_holds h hp h32 h1
      rw [← Nat.add_assoc, ← hcap1]
      exact bswWrites_flush_ok_iff hold1 hws

/-- **Room**: the stream fits when there is a byte more than the whole bytes of its bits. -/
theorem bswStream_ok_iff {ws : Fields} (hws : ws.Fit) (cap : ℕ) :
    (∃ w, bswStream cap ws = .ok w) ↔ ws.width / 8 + 1 ≤ cap := by
  have h := bswWrites_flush_ok_iff (bswInit_holds cap) hws
  rwa [Nat.zero_add] at h

/-- The stream spells the values with the closing bit on top. -/
theorem bswStream_holds {ws : Fields} (hws : ws.Fit) {cap : ℕ} (h : bswStream cap ws = .ok w) :
    Digits.leNat w.out = ws.value + 2 ^ ws.width ∧ w.out.length = ws.width / 8 + 1 := by
  unfold bswStream at h
  obtain ⟨w1, h1, h⟩ := Exc.bind_eq_ok h
  obtain ⟨hold, -⟩ := bswWrites_holds (bswInit_holds cap) hws h1
  obtain ⟨hval, hlen, -⟩ := bswFlush_holds hold h
  rw [hval, hlen]
  simp

end Writes

/-! ### Runs of reads -/

/-- Reads of the widths `nbs`: what each returned, and the reader after them. -/
def bsrReads : Bsr → List ℕ → Chk (List (Option ℕ) × Bsr)
  | r, [] => .ok ([], r)
  | r, nb :: nbs => do
    let (o, r) ← bsrRead r nb
    let (os, r) ← bsrReads r nbs
    return (o :: os, r)

theorem bsrReads_cons {r r1 r2 : Bsr} {nb : ℕ} {nbs : List ℕ} {o : Option ℕ} {os : List (Option ℕ)}
    (h1 : bsrRead r nb = .ok (o, r1)) (h2 : bsrReads r1 nbs = .ok (os, r2)) :
    bsrReads r (nb :: nbs) = .ok (o :: os, r2) := by
  rw [bsrReads, h1, Exc.ok_bind]
  simp only [h2, Exc.ok_bind, Exc.pure_eq]

/-- **Reading back.** The reads go from the last value to the first. -/
theorem bsrReads_back {ws : Fields} (hws : ws.Fit) : ∀ {r : Bsr}, r.Shows ws.width ws.value →
    ∃ r', bsrReads r (ws.reverse.map Prod.snd) = .ok (ws.reverse.map fun p => some p.1, r') ∧ r'.Shows 0 0 := by
  induction ws using List.reverseRecOn with
  | nil => exact fun {r} h => ⟨r, rfl, h⟩
  | append_singleton ws p ih =>
    intro r h
    obtain ⟨hp1, hp32, hp⟩ := hws p (by simp)
    have hfit : Fields.Fit ws := fun q hq => hws q (by simp [hq])
    have hlt := hfit.value_lt
    have hwidth : Fields.width (ws ++ [p]) = Fields.width ws + p.2 := by simp [Fields.width_append]
    have hvalue : Fields.value (ws ++ [p]) = Fields.value ws + p.1 * 2 ^ Fields.width ws := by
      simp [Fields.value_append, Fields.value]
    rw [hwidth, hvalue] at h
    -- the value written last is on top, the others are below it
    obtain ⟨r1, hread, hshows, -⟩ := bsrRead_shows h hp1 hp32 (Nat.le_add_left _ _)
    have htop : (Fields.value ws + p.1 * 2 ^ Fields.width ws) / 2 ^ Fields.width ws = p.1 := by
      rw [Nat.add_mul_div_right _ _ (by positivity), Nat.div_eq_of_lt hlt, Nat.zero_add]
    have hrest : (Fields.value ws + p.1 * 2 ^ Fields.width ws) % 2 ^ Fields.width ws = Fields.value ws := by
      rw [Nat.add_mul_mod_self_right, Nat.mod_eq_of_lt hlt]
    rw [Nat.add_sub_cancel] at hread hshows
    rw [htop] at hread
    rw [hrest] at hshows
    obtain ⟨r', hreads, hdone⟩ := ih hfit hshows
    rw [List.reverse_append]
    exact ⟨r', bsrReads_cons hread hreads, hdone⟩

/-- A reader at its end fails every further read. -/
theorem bsrReads_underflow : ∀ {nbs : List ℕ} {r : Bsr}, r.ptr = 0 → r.bits ≤ 0 → (∀ nb ∈ nbs, 1 ≤ nb) →
    ∃ r', bsrReads r nbs = .ok (nbs.map fun _ => none, r')
  | [], r, _, _, _ => ⟨r, rfl⟩
  | nb :: nbs, r, hptr, hbits, hnbs => by
    obtain ⟨hnb, hnbs⟩ := List.forall_mem_cons.mp hnbs
    have hneg : ¬(0 : ℤ) ≤ r.bits - nb := by omega
    have hread : bsrRead r nb = .ok (none, ⟨r.buf, 0, r.accum <<< nb % 2 ^ 64, r.bits - nb⟩) := by
      rw [bsrRead, bsrConsume, hptr, bsrRefill, Exc.ok_bind, if_neg hneg]
      rfl
    obtain ⟨r', hreads⟩ := @bsrReads_underflow nbs ⟨r.buf, 0, r.accum <<< nb % 2 ^ 64, r.bits - nb⟩ rfl
      (by simp only; omega) hnbs
    exact ⟨r', bsrReads_cons hread hreads⟩

/-- **The bit stream is an exact stack.** Writes and flush succeed just when the buffer has a byte more than
the whole bytes of the bits, which is also what the flush returns; and then the values come back from a reader
in reverse order, and no further bit. -/
theorem bitstream_stack (ws : Fields) (hws : ws.Fit) (cap : ℕ) :
    ((∃ w, bswStream cap ws = .ok w) ↔ ws.width / 8 + 1 ≤ cap) ∧
      ∀ w, bswStream cap ws = .ok w → w.out.length = ws.width / 8 + 1 ∧
        ∃ r r', bsrInit w.out = .ok r ∧
          bsrReads r (ws.reverse.map Prod.snd) = .ok (ws.reverse.map fun p => some p.1, r') ∧
          ∀ nbs : List ℕ, (∀ nb ∈ nbs, 1 ≤ nb) → ∃ r'', bsrReads r' nbs = .ok (nbs.map fun _ => none, r'') := by
  refine ⟨bswStream_ok_iff hws cap, fun w hw => ?_⟩
  obtain ⟨hval, hlen⟩ := bswStream_holds hws hw
  obtain ⟨r, hinit, hshows⟩ := bsrInit_shows hws.value_lt hlen hval
  obtain ⟨r', hreads, hdone⟩ := bsrReads_back hws hshows
  obtain ⟨hptr, hbits⟩ := hdone.done
  exact ⟨hlen, r, r', hinit, hreads, fun nbs hnbs => bsrReads_underflow hptr hbits.le hnbs⟩

/-- Three values of 36 bits fit in five bytes and not in four. -/
theorem bitstream_stack_three : (∃ w, bswStream 5 [(5, 3), (1, 1), (0xFFFFFFFE, 32)] = .ok w) ∧
    ¬∃ w, bswStream 4 [(5, 3), (1, 1), (0xFFFFFFFE, 32)] = .ok w := by
  have hfit : Fields.Fit [(5, 3), (1, 1), (0xFFFFFFFE, 32)] := by unfold Fields.Fit; decide
  constructor
  · rw [(bitstream_stack _ hfit 5).1]
    decide
  · rw [(bitstream_stack _ hfit 4).1]
    decide

end Netc
