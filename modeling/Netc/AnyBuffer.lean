/-
# The bit reader over any buffer

A reader may be opened over bytes that no writer made. The bits there are to
read are those below the highest set bit of the last byte. If that byte is 0
there are none, and `netc_bsr_init` leaves an accumulator without bits; but it
has moved `ptr` past the eight bytes it loaded only, so that over a longer
buffer the next refill starts from the bytes in front of them. The reader
delivers the bits that exist over every other buffer (`readsExactly_iff`).

Key definitions: `available`, `bsrShifts`, `Bsr.Left`, `ReadsExactly`.
Key theorems: `bsrRead_left`, `bsrReads_left`, `readsExactly_iff`.
-/
import Netc.BitStack

namespace Netc

/-! ### The bits that are left -/

/-- The shift amounts of the refill loop, a byte each. -/
def refillShifts : ℕ → ℤ → List ℤ
  | 0, _ => []
  | p + 1, bits => if bits ≤ 56 then (56 - bits) :: refillShifts p (bits + 8) else []

/-- The shift amounts `56 - bits` that `netc_bsr_read` uses. -/
def bsrShifts (r : Bsr) (nb : ℕ) : List ℤ := refillShifts r.ptr (r.bits - nb)

/-- The reader has `A` bits left, in its accumulator and in the bytes before `ptr`; below 0 it has failed. It
was refilled, as far as there are bytes. -/
structure Bsr.Left (r : Bsr) (A : ℤ) : Prop where
  wf : r.ptr ≤ r.buf.length
  left : 8 * r.ptr + r.bits = A
  full : r.ptr = 0 ∨ 56 ≤ r.bits

section Left

variable {r : Bsr} {A : ℤ}

theorem Bsr.Shows.left {T V : ℕ} (h : r.Shows T V) : r.Left T := ⟨h.wf, h.length, h.full⟩

/-- The sign of `bits` tells whether bits are left. -/
theorem Bsr.Left.bits_nonneg (h : r.Left A) : 0 ≤ r.bits ↔ 0 ≤ A := by
  have hleft := h.left
  rcases h.full with hptr | hbits
  · rw [hptr] at hleft
    omega
  · omega

theorem bsrRefill_left (buf : List UInt8) : ∀ (p accum : ℕ) (bits : ℤ), p ≤ buf.length →
    ∃ r, bsrRefill buf p accum bits = .ok r ∧ r.Left (8 * p + bits)
  | 0, accum, bits, h => ⟨_, rfl, ⟨h, by simp, .inl rfl⟩⟩
  | p + 1, accum, bits, h => by
    rw [bsrRefill]
    split
    · rw [Chk.get_of_lt (show p < buf.length by omega), Exc.ok_bind]
      obtain ⟨r, hr, hleft⟩ := bsrRefill_left buf p
        ((accum ||| buf[p].toNat <<< ((56 - bits).toNat % 64)) % 2 ^ 64) (bits + 8) (by omega)
      refine ⟨r, hr, ?_⟩
      rwa [show 8 * ((p + 1 : ℕ) : ℤ) + bits = 8 * p + (bits + 8) by push_cast; ring]
    · next h56 => exact ⟨_, rfl, ⟨h, rfl, .inr (by simp only; omega)⟩⟩

/-- A read takes its bits off, whatever the reader was, and succeeds if there were as many. -/
theorem bsrRead_of_ptr_le (hptr : r.ptr ≤ r.buf.length) (nb : ℕ) :
    ∃ o r', bsrRead r nb = .ok (o, r') ∧ r'.Left (8 * r.ptr + r.bits - nb) ∧
      (o.isSome ↔ 0 ≤ 8 * (r.ptr : ℤ) + r.bits - nb) := by
  obtain ⟨r', hr, hleft⟩ := bsrRefill_left r.buf r.ptr (r.accum <<< nb % 2 ^ 64) (r.bits - nb) hptr
  rw [← add_sub_assoc] at hleft
  refine ⟨if 0 ≤ r'.bits then some (bsrPeek r nb) else none, r', ?_, hleft, ?_⟩
  · rw [bsrRead, bsrConsume, hr, Exc.ok_bind]
    rfl
  · rw [← hleft.bits_nonneg]
    split <;> simp [*]

/-- **One read.** -/
theorem bsrRead_left (h : r.Left A) (nb : ℕ) :
    ∃ o r', bsrRead r nb = .ok (o, r') ∧ r'.Left (A - nb) ∧ (o.isSome ↔ (nb : ℤ) ≤ A) := by
  obtain ⟨o, r', hread, hleft, ho⟩ := bsrRead_of_ptr_le h.wf nb
  rw [h.left] at hleft ho
  exact ⟨o, r', hread, hleft, ho.trans sub_nonneg⟩

/-- A run of reads. -/
theorem bsrReads_left : ∀ (nbs : List ℕ) {r : Bsr} {A : ℤ}, r.Left A →
    ∃ os r', bsrReads r nbs = .ok (os, r') ∧ r'.Left (A - nbs.sum)
  | [], r, A, h => ⟨[], r, rfl, by simpa using h⟩
  | nb :: nbs, r, A, h => by
    obtain ⟨o, r1, hread, h1, -⟩ := bsrRead_left h nb
    obtain ⟨os, r', hreads, h'⟩ := bsrReads_left nbs h1
    refine ⟨o :: os, r', bsrReads_cons hread hreads, ?_⟩
    rwa [List.sum_cons, Nat.cast_add, ← sub_sub]

theorem refillShifts_mem {s : ℤ} : ∀ {p : ℕ} {bits : ℤ}, s ∈ refillShifts p bits → 0 ≤ s ∧ s ≤ 56 - bits
  | 0, _, h => by simp [refillShifts] at h
  | p + 1, bits, h => by
    rw [refillShifts] at h
    split at h
    · rcases List.mem_cons.mp h with rfl | h
      · omega
      · have := refillShifts_mem h
        omega
    · simp at h

/-- A reader that has not failed shifts by at most 32: the accumulator of one with bytes in front was full. -/
theorem Bsr.Left.shifts_le (h : r.Left A) {nb : ℕ} (hnb : nb ≤ 32) {s : ℤ} (hs : s ∈ bsrShifts r nb) :
    0 ≤ s ∧ s ≤ 32 := by
  unfold bsrShifts at hs
  rcases h.full with hptr | hbits
  · rw [hptr] at hs
    simp [refillShifts] at hs
  · have := refillShifts_mem hs
    omega

end Left

/-! ### Opening a buffer -/

/-- The bits a buffer has: those below the highest set bit of its last byte. -/
def available (buf : List UInt8) : ℕ :=
  match buf.getLast? with
  | none => 0
  | some b => if b = 0 then 0 else 8 * (buf.length - 1) + Nat.log2 b.toNat

/-- A buffer whose last byte is not 0 is that of a flushed stream. -/
theorem available_closed {ys : List UInt8} {b : UInt8} (hb : b ≠ 0) :
    ∃ V, V < 2 ^ available (ys ++ [b]) ∧ (ys ++ [b]).length = available (ys ++ [b]) / 8 + 1 ∧
      Digits.leNat (ys ++ [b]) = V + 2 ^ available (ys ++ [b]) := by
  have hpos : b.toNat ≠ 0 := fun h => hb (UInt8.toNat_inj.mp h)
  have hge := Nat.log2_self_le hpos
  have hlt : b.toNat < 2 ^ (Nat.log2 b.toNat + 1) := Nat.lt_log2_self
  have h8 : Nat.log2 b.toNat < 8 := (Nat.log2_lt hpos).mpr (UInt8.toNat_lt b)
  have hav : available (ys ++ [b]) = 8 * ys.length + Nat.log2 b.toNat := by
    simp [available, hb]
  have hlow := Digits.leNat_lt_two_pow ys
  rw [hav, Digits.leNat_append, Digits.pow_256, pow_add]
  set B := 2 ^ (8 * ys.length)
  set L := 2 ^ Nat.log2 b.toNat
  rw [pow_succ] at hlt
  refine ⟨Digits.leNat ys + B * (b.toNat - L), ?_, ?_, ?_⟩
  · calc Digits.leNat ys + B * (b.toNat - L) < B * (b.toNat - L + 1) := by rw [mul_add]; omega
      _ ≤ B * L := Nat.mul_le_mul_left _ (by omega)
  · simp only [List.length_append, List.length_cons, List.length_nil]
    omega
  · rw [add_assoc, ← mul_add, Nat.sub_add_cancel hge]
    simp [Digits.leNat]

/-- Opened over a buffer whose last byte is not 0, the reader has the bits that exist. -/
theorem bsrInit_left {buf : List UInt8} (h : buf.getLast? ≠ some 0) :
    ∃ r, bsrInit buf = .ok r ∧ r.Left (available buf) := by
  cases hlast : buf.getLast? with
  | none =>
    obtain rfl := List.getLast?_eq_none_iff.mp hlast
    exact ⟨_, rfl, ⟨Nat.le_refl _, rfl, .inl rfl⟩⟩
  | some b =>
    obtain ⟨ys, rfl⟩ := List.getLast?_eq_some_iff.mp hlast
    have hb : b ≠ 0 := fun hb => h (hb ▸ hlast)
    obtain ⟨V, hV, hlen, hval⟩ := @available_closed ys b hb
    obtain ⟨r, hr, hshows⟩ := bsrInit_shows hV hlen hval
    exact ⟨r, hr, hshows.left⟩

/-- Over a buffer whose last byte is 0 it has no bits in its accumulator, and the bytes before the last eight
in front of it. -/
theorem bsrInit_zero {buf : List UInt8} (h : buf.getLast? = some 0) :
    ∃ r, bsrInit buf = .ok r ∧ r.buf = buf ∧ r.ptr = buf.length - 8 ∧ r.bits = 0 := by
  obtain ⟨ys, rfl⟩ := List.getLast?_eq_some_iff.mp h
  set buf := ys ++ [0] with hbuf
  have hn0 : buf.length ≠ 0 := by simp [hbuf]
  obtain ⟨fill, hfill⟩ : ∃ f, f = if buf.length < 8 then buf.length else 8 := ⟨_, rfl⟩
  have hfills : 1 ≤ fill ∧ fill ≤ 8 ∧ fill ≤ buf.length ∧ buf.length - fill = buf.length - 8 := by
    rw [hfill]
    split <;> omega
  obtain ⟨hf1, hf8, hfn, hptr⟩ := hfills
  have hdrop : (buf.drop (buf.length - fill)).take fill = ys.drop (buf.length - fill) ++ [0] := by
    rw [List.take_of_length_le (by rw [List.length_drop]; omega), hbuf,
      List.drop_append_of_le_length (by simp; omega)]
  -- the bytes below the last are a number that stays below the top byte of the accumulator
  have hlow := Digits.leNat_lt_two_pow (ys.drop (buf.length - fill))
  have hylen : (ys.drop (buf.length - fill)).length = fill - 1 := by
    rw [List.length_drop]
    have : buf.length = ys.length + 1 := by simp [hbuf]
    omega
  rw [hylen] at hlow
  set raw := Digits.leNat (ys.drop (buf.length - fill)) with hraw
  have hload : bsrLoad buf (buf.length - fill) fill = .ok raw := by
    rw [bsrLoad_eq _ _ _ (by omega), hdrop, Digits.leNat_append]
    simp [Digits.leNat, hraw]
  have hacc : raw * 2 ^ (64 - fill * 8) < 2 ^ 56 := by
    calc raw * 2 ^ (64 - fill * 8) < 2 ^ (8 * (fill - 1)) * 2 ^ (64 - fill * 8) :=
          Nat.mul_lt_mul_of_pos_right hlow (by positivity)
      _ = 2 ^ 56 := by rw [← pow_add]; congr 1; omega
  have htop : UInt8.ofNat (raw * 2 ^ (64 - fill * 8) % 2 ^ 64 / 2 ^ 56) = 0 := by
    rw [Nat.mod_eq_of_lt (hacc.trans (by norm_num)), Nat.div_eq_of_lt hacc]
    rfl
  refine ⟨⟨buf, buf.length - fill, raw * 2 ^ (64 - fill * 8) % 2 ^ 64, 0⟩, ?_, rfl, hptr, rfl⟩
  rw [bsrInit]
  simp only [if_neg hn0, ← hfill, hload, Exc.ok_bind, Nat.shiftLeft_eq, Nat.shiftRight_eq_div_pow, htop,
    if_true, Exc.pure_eq]

/-! ### The bits that exist -/

/-- In the reads `ws`, one after the other, each succeeds just when the bits read so far are not more than the
buffer has, and up to the first that fails no shift leaves the range of a 64-bit word. -/
def ReadsExactly (buf : List UInt8) (ws : List ℕ) : Prop :=
  ∃ r, bsrInit buf = .ok r ∧ ∀ (nbs : List ℕ) (nb : ℕ), nbs ++ [nb] <+: ws →
    ∃ os r' o r'', bsrReads r nbs = .ok (os, r') ∧ bsrRead r' nb = .ok (o, r'') ∧
      (o.isSome ↔ nbs.sum + nb ≤ available buf) ∧
      ((∀ o' ∈ os, o'.isSome) → ∀ s ∈ bsrShifts r' nb, 0 ≤ s ∧ s ≤ 63)

section ReadsExactly

variable {buf : List UInt8} {ws : List ℕ}

/-- A reader that starts with the bits that exist delivers them. -/
theorem Bsr.Left.readsExactly {r : Bsr} (hr : bsrInit buf = .ok r) (h : r.Left (available buf))
    (hws : ∀ n ∈ ws, 1 ≤ n ∧ n ≤ 32) : ReadsExactly buf ws := by
  refine ⟨r, hr, fun nbs nb hpre => ?_⟩
  obtain ⟨os, r', hreads, h'⟩ := bsrReads_left nbs h
  obtain ⟨o, r'', hread, -, ho⟩ := bsrRead_left h' nb
  refine ⟨os, r', o, r'', hreads, hread, ?_, fun _ s hs => ?_⟩
  · rw [ho]
    omega
  · have := h'.shifts_le (hws nb (hpre.subset (by simp))).2 hs
    omega

/-- Over a long buffer that ends with a 0 the first read goes wrong: of less than a byte it succeeds, though no
bit exists; of more it shifts too far. -/
theorem not_readsExactly (hlast : buf.getLast? = some 0) (hlen : 8 < buf.length) (hne : ws ≠ [])
    (hws : ∀ n ∈ ws, 1 ≤ n ∧ n ≤ 32) : ¬ReadsExactly buf ws := by
  rintro ⟨r, hr, h⟩
  obtain ⟨nb, rest, rfl⟩ := List.exists_cons_of_ne_nil hne
  have hnb1 : 1 ≤ nb := (hws nb (by simp)).1
  obtain ⟨os, r', o, r'', hreads, hread, ho, hshifts⟩ := h [] nb ⟨rest, rfl⟩
  obtain ⟨r0, hr0, hbuf, hptr, hbits⟩ := bsrInit_zero hlast
  obtain rfl : r0 = r := Except.ok.inj (hr0.symm.trans hr)
  obtain ⟨rfl, rfl⟩ := Prod.mk.inj (Except.ok.inj hreads)
  by_cases hnb : nb < 8
  · obtain ⟨o', r1, hread', -, ho'⟩ := bsrRead_of_ptr_le (r := r0) (by rw [hptr, hbuf]; omega) nb
    obtain ⟨rfl, -⟩ := Prod.mk.inj (Except.ok.inj (hread'.symm.trans hread))
    have hnone : available buf = 0 := by simp [available, hlast]
    have := ho.mp (ho'.mpr (by omega))
    rw [hnone, List.sum_nil] at this
    omega
  · obtain ⟨p, hp⟩ : ∃ p, r0.ptr = p + 1 := ⟨r0.ptr - 1, by omega⟩
    have hfirst : (56 : ℤ) + nb ∈ bsrShifts r0 nb := by
      unfold bsrShifts
      rw [hp, hbits, refillShifts, if_pos (by omega)]
      simp
    have := hshifts (by simp) _ hfirst
    omega

/-- **The reader delivers exactly the bits that exist** over the buffers of at most eight bytes and those whose
last byte is not 0; over any other buffer no read at all goes as it should. -/
theorem readsExactly_iff (buf : List UInt8) (ws : List ℕ) (hws : ∀ n ∈ ws, 1 ≤ n ∧ n ≤ 32) :
    ReadsExactly buf ws ↔ ws = [] ∨ buf.length ≤ 8 ∨ buf.getLast? ≠ some 0 := by
  by_cases hlast : buf.getLast? = some 0
  · constructor
    · intro h
      by_contra hc
      obtain ⟨hne, hc⟩ := not_or.mp hc
      exact not_readsExactly hlast (not_le.mp (not_or.mp hc).1) hne hws h
    · obtain ⟨r, hr, hbuf, hptr, hbits⟩ := bsrInit_zero hlast
      rintro (rfl | hc)
      · exact ⟨r, hr, fun nbs nb hpre => absurd (List.prefix_nil.mp hpre) (by simp)⟩
      · have h8 : buf.length ≤ 8 := hc.resolve_right fun h => h hlast
        have hnone : available buf = 0 := by simp [available, hlast]
        have hzero : r.ptr = 0 := by omega
        refine Bsr.Left.readsExactly hr ⟨by omega, ?_, .inl hzero⟩ hws
        rw [hzero, hbits, hnone]
        rfl
  · obtain ⟨r, hr, h⟩ := bsrInit_left hlast
    exact ⟨fun _ => .inr (.inr hlast), fun _ => h.readsExactly hr hws⟩

/-- A buffer that ends with its closing bit. -/
theorem readsExactly_iff_closed : ReadsExactly [0xFF, 1] [3, 5, 1] :=
  (readsExactly_iff _ _ (by decide)).mpr (.inr (.inl (by decide)))

/-- Nine bytes without a closing bit. -/
theorem not_readsExactly_nine : ¬ReadsExactly [1, 2, 3, 4, 5, 6, 7, 8, 0] [1] :=
  not_readsExactly rfl (by decide) (by simp) (by decide)

end ReadsExactly

end Netc
