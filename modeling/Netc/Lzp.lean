/-
# LZP prediction

`netc_lzp.h`: each byte is predicted from the byte before it and its offset,
by a table that maps the hash of the two to a byte. The filter xors every byte
with its prediction, the inverse filter does so from left to right with the
bytes it has restored; on adaptive connections the table follows the data.

Key definitions: `LzpEntry`, `lzpXorFilter`, `lzpXorUnfilter`, `lzpUnfilterSelf`, `lzpAdaptiveUpdate`.
Key theorems: `lzpXorUnfilter_lzpXorFilter`, `lzpUnfilterLoop_spec`, `lzp_filter_bijective`.
-/
import Netc.Basic

namespace Netc

/-- `netc_lzp_entry_t`: `valid` is 0 for an empty slot, else a confidence. -/
structure LzpEntry where
  value : UInt8
  valid : UInt8
  deriving DecidableEq, Repr

/-- An LZP table, `NETC_LZP_HT_SIZE` entries. -/
abbrev LzpTable := ℕ → LzpEntry

/-- `NETC_LZP_HT_SIZE` -/
def lzpHtSize : ℕ := 131072

/-- `netc_lzp_hash` -/
def lzpHash (prev : UInt8) (pos : ℕ) : ℕ :=
  let pos := UInt32.ofNat pos
  let h : UInt32 := 2166136261
  let h := (h ^^^ prev.toUInt32) * 16777619
  let h := (h ^^^ (pos &&& 0xFFFF)) * 16777619
  let h := (h ^^^ (pos >>> 16)) * 16777619
  (h &&& 0x1FFFF).toNat

theorem lzpHash_lt (prev : UInt8) (pos : ℕ) : lzpHash prev pos < lzpHtSize := by
  simp only [lzpHash, UInt32.toNat_and]
  exact Nat.and_lt_two_pow (n := 17) _ (by decide)

/-- The prediction for the byte at `pos` after byte `prev`. -/
def lzpPrediction (table : LzpTable) (prev : UInt8) (pos : ℕ) : UInt8 :=
  let e := table (lzpHash prev pos)
  if e.valid ≠ 0 then e.value else 0

/-- The loop of `netc_lzp_xor_filter` from `pos` on, after byte `prev`. -/
def lzpFilterFrom (table : LzpTable) : ℕ → UInt8 → List UInt8 → List UInt8
  | _, _, [] => []
  | pos, prev, b :: src => (b ^^^ lzpPrediction table prev pos) :: lzpFilterFrom table (pos + 1) b src

/-- `netc_lzp_xor_filter` -/
def lzpXorFilter (table : LzpTable) (src : List UInt8) : List UInt8 := lzpFilterFrom table 0 0 src

/-- The loop of `netc_lzp_xor_unfilter`: the byte before is the restored one. -/
def lzpUnfilterFrom (table : LzpTable) : ℕ → UInt8 → List UInt8 → Chk (List UInt8)
  | _, _, [] => .ok []
  | pos, prev, b :: src => do
    Chk.index (lzpHash prev pos) lzpHtSize
    let d := b ^^^ lzpPrediction table prev pos
    let rest ← lzpUnfilterFrom table (pos + 1) d src
    return d :: rest

/-- `netc_lzp_xor_unfilter` -/
def lzpXorUnfilter (table : LzpTable) (src : List UInt8) : Chk (List UInt8) := lzpUnfilterFrom table 0 0 src

/-- One round of `netc_lzp_adaptive_update`: the entry for a context in which
byte `b` was seen. -/
def lzpLearn (e : LzpEntry) (b : UInt8) : LzpEntry :=
  if e.valid = 0 then ⟨b, 1⟩
  else if e.value ≠ b then
    if 1 < e.valid then ⟨e.value, e.valid - 1⟩ else ⟨b, 1⟩
  else if e.valid < 255 then ⟨e.value, e.valid + 1⟩ else e

/-- The loop of `netc_lzp_adaptive_update`. -/
def lzpUpdateFrom : ℕ → UInt8 → List UInt8 → LzpTable → LzpTable
  | _, _, [], table => table
  | pos, prev, b :: data, table =>
    let h := lzpHash prev pos
    lzpUpdateFrom (pos + 1) b data (Function.update table h (lzpLearn (table h) b))

/-- `netc_lzp_adaptive_update` -/
def lzpAdaptiveUpdate (table : Option LzpTable) (data : List UInt8) : Option LzpTable :=
  table.map (lzpUpdateFrom 0 0 data)

section Filter

variable (table : LzpTable)

theorem length_lzpFilterFrom : ∀ (src : List UInt8) (pos : ℕ) (prev : UInt8),
    (lzpFilterFrom table pos prev src).length = src.length
  | [], _, _ => rfl
  | b :: src, pos, prev => by simp [lzpFilterFrom, length_lzpFilterFrom src]

@[simp] theorem length_lzpXorFilter (src : List UInt8) : (lzpXorFilter table src).length = src.length :=
  length_lzpFilterFrom table src 0 0

/-- The inverse filter stays in the table and keeps the length. -/
theorem lzpUnfilterFrom_ok : ∀ (src : List UInt8) (pos : ℕ) (prev : UInt8),
    ∃ out, lzpUnfilterFrom table pos prev src = .ok out ∧ out.length = src.length
  | [], _, _ => ⟨[], rfl, rfl⟩
  | b :: src, pos, prev => by
    obtain ⟨out, h1, h2⟩ := lzpUnfilterFrom_ok src (pos + 1) (b ^^^ lzpPrediction table prev pos)
    refine ⟨(b ^^^ lzpPrediction table prev pos) :: out, ?_, by simp [h2]⟩
    rw [lzpUnfilterFrom, Chk.index_of_lt (lzpHash_lt prev pos), Exc.ok_bind]
    simp only [h1, Exc.ok_bind, Exc.pure_eq]

theorem lzpXorUnfilter_ok (src : List UInt8) :
    ∃ out, lzpXorUnfilter table src = .ok out ∧ out.length = src.length := lzpUnfilterFrom_ok table src 0 0

theorem lzpUnfilterFrom_lzpFilterFrom : ∀ (src : List UInt8) (pos : ℕ) (prev : UInt8),
    lzpUnfilterFrom table pos prev (lzpFilterFrom table pos prev src) = .ok src
  | [], _, _ => rfl
  | b :: src, pos, prev => by
    have hb : b ^^^ lzpPrediction table prev pos ^^^ lzpPrediction table prev pos = b := by
      rw [UInt8.xor_assoc, UInt8.xor_self, UInt8.xor_zero]
    rw [lzpFilterFrom, lzpUnfilterFrom, Chk.index_of_lt (lzpHash_lt prev pos), Exc.ok_bind]
    simp only [hb, lzpUnfilterFrom_lzpFilterFrom src, Exc.ok_bind, Exc.pure_eq]

/-- The inverse filter undoes the filter. -/
theorem lzpXorUnfilter_lzpXorFilter (src : List UInt8) :
    lzpXorUnfilter table (lzpXorFilter table src) = .ok src := lzpUnfilterFrom_lzpFilterFrom table src 0 0

/-- Filtering the restored bytes again gives the filtered ones. -/
theorem lzpFilterFrom_lzpUnfilterFrom : ∀ (src : List UInt8) (pos : ℕ) (prev : UInt8)
    (out : List UInt8), lzpUnfilterFrom table pos prev src = .ok out → lzpFilterFrom table pos prev out = src
  | [], _, _, out, h => by
    simp only [lzpUnfilterFrom, Except.ok.injEq] at h
    rw [← h, lzpFilterFrom]
  | b :: src, pos, prev, out, h => by
    rw [lzpUnfilterFrom, Chk.index_of_lt (lzpHash_lt prev pos), Exc.ok_bind] at h
    obtain ⟨rest, h1, h2⟩ := Exc.bind_eq_ok h
    simp only [Exc.pure_eq, Except.ok.injEq] at h2
    have hb : b ^^^ lzpPrediction table prev pos ^^^ lzpPrediction table prev pos = b := by
      rw [UInt8.xor_assoc, UInt8.xor_self, UInt8.xor_zero]
    rw [← h2, lzpFilterFrom, hb, lzpFilterFrom_lzpUnfilterFrom src _ _ rest h1]

end Filter

/-! ### On memory -/

/-- The loop of `netc_lzp_xor_unfilter` on memory, `n` rounds from `i` on: the byte before is read from `dst`, the
residual is what `load` gives. -/
def lzpUnfilterLoop (table : LzpTable) (load : (ℕ → UInt8) → ℕ → UInt8) : ℕ → ℕ → (ℕ → UInt8) → ℕ → UInt8
  | 0, _, dst => dst
  | n + 1, i, dst =>
    let prev := if 0 < i then dst (i - 1) else 0
    lzpUnfilterLoop table load n (i + 1) (Function.update dst i (load dst i ^^^ lzpPrediction table prev i))

/-- `netc_lzp_xor_unfilter` of the `n` bytes at `src` to another buffer. -/
def lzpUnfilterTo (table : LzpTable) (src : ℕ → UInt8) (n : ℕ) (dst : ℕ → UInt8) : ℕ → UInt8 :=
  lzpUnfilterLoop table (fun _ i => src i) n 0 dst

/-- `netc_lzp_xor_unfilter` of the first `n` bytes of a buffer in place, `dst == src`. -/
def lzpUnfilterSelf (table : LzpTable) (n : ℕ) (m : ℕ → UInt8) : ℕ → UInt8 :=
  lzpUnfilterLoop table (fun m i => m i) n 0 m

section Memory

variable {table : LzpTable} {load : (ℕ → UInt8) → ℕ → UInt8} {src old : ℕ → UInt8}

/-- The loop on memory is the loop on lists, as long as the residuals are those of `src`. What is behind the
present place is still the buffer before: that is where the residual is read when `dst == src`. -/
theorem lzpUnfilterLoop_spec (hload : ∀ (dst : ℕ → UInt8) i, (∀ j, i ≤ j → dst j = old j) → load dst i = src i)
    (n : ℕ) : ∀ (i : ℕ) (dst : ℕ → UInt8), (∀ j, i ≤ j → dst j = old j) →
    lzpUnfilterFrom table i (if 0 < i then dst (i - 1) else 0) (ByteMem.slice src i n)
        = .ok (ByteMem.slice (lzpUnfilterLoop table load n i dst) i n) ∧
      (∀ j < i, lzpUnfilterLoop table load n i dst j = dst j) ∧
      ∀ j, i + n ≤ j → lzpUnfilterLoop table load n i dst j = old j := by
  induction n with
  | zero => exact fun i dst h => ⟨rfl, fun _ _ => rfl, fun j hj => h j (by omega)⟩
  | succ n ih =>
    intro i dst h
    set prev := if 0 < i then dst (i - 1) else 0 with hprev
    set d := src i ^^^ lzpPrediction table prev i with hd
    have hstep : lzpUnfilterLoop table load (n + 1) i dst = lzpUnfilterLoop table load n (i + 1)
        (Function.update dst i d) := by
      rw [lzpUnfilterLoop, hload dst i h]
    have hrest : ∀ j, i + 1 ≤ j → Function.update dst i d j = old j := fun j hj => by
      rw [Function.update_of_ne (by omega), h j (by omega)]
    obtain ⟨hout, hbelow, habove⟩ := ih (i + 1) (Function.update dst i d) hrest
    rw [if_pos (Nat.succ_pos i), Nat.add_sub_cancel, Function.update_self] at hout
    -- the byte just restored is the one the next round reads
    have hi : lzpUnfilterLoop table load (n + 1) i dst i = d := by
      rw [hstep, hbelow i (Nat.lt_succ_self i), Function.update_self]
    refine ⟨?_, fun j hj => ?_, fun j hj => ?_⟩
    · rw [ByteMem.slice_succ, ByteMem.slice_succ, hi, lzpUnfilterFrom, Chk.index_of_lt (lzpHash_lt prev i), Exc.ok_bind,
        hstep]
      simp only [← hd, hout, Exc.ok_bind, Exc.pure_eq]
    · rw [hstep, hbelow j (by omega), Function.update_of_ne (by omega)]
    · rw [hstep, habove j (by omega)]

theorem lzpUnfilterTo_spec (table : LzpTable) (src dst : ℕ → UInt8) (n : ℕ) :
    lzpXorUnfilter table (ByteMem.slice src 0 n) = .ok (ByteMem.slice (lzpUnfilterTo table src n dst) 0 n) ∧
      ∀ j, n ≤ j → lzpUnfilterTo table src n dst j = dst j := by
  obtain ⟨h, -, habove⟩ := @lzpUnfilterLoop_spec table (fun _ i => src i) src dst (fun _ _ _ => rfl) n 0 dst
    fun _ _ => rfl
  exact ⟨h, fun j hj => habove j (by omega)⟩

theorem lzpUnfilterSelf_spec (table : LzpTable) (m : ℕ → UInt8) (n : ℕ) :
    lzpXorUnfilter table (ByteMem.slice m 0 n) = .ok (ByteMem.slice (lzpUnfilterSelf table n m) 0 n) ∧
      ∀ j, n ≤ j → lzpUnfilterSelf table n m j = m j := by
  obtain ⟨h, -, habove⟩ := @lzpUnfilterLoop_spec table (fun m i => m i) m m (fun dst i h => h i (Nat.le_refl i)) n 0 m
    fun _ _ => rfl
  exact ⟨h, fun j hj => habove j (by omega)⟩

end Memory

/-- **The filter is a bijection on packets** of every length, whatever the table: the inverse filter undoes it and it
undoes the inverse filter, which gives the same bytes in place as from another buffer. -/
theorem lzp_filter_bijective (table : LzpTable) (src : List UInt8) :
    lzpXorUnfilter table (lzpXorFilter table src) = .ok src ∧
    ∃ out, lzpXorUnfilter table src = .ok out ∧ out.length = src.length ∧ lzpXorFilter table out = src ∧
      ∀ m dst : ℕ → UInt8, ByteMem.slice m 0 src.length = src →
        ByteMem.slice (lzpUnfilterTo table m src.length dst) 0 src.length = out ∧
        ByteMem.slice (lzpUnfilterSelf table src.length m) 0 src.length = out := by
  obtain ⟨out, hout, hlen⟩ := lzpXorUnfilter_ok table src
  refine ⟨lzpXorUnfilter_lzpXorFilter table src, out, hout, hlen, ?_, fun m dst hm => ?_⟩
  · exact lzpFilterFrom_lzpUnfilterFrom table src 0 0 out hout
  · obtain ⟨hto, -⟩ := lzpUnfilterTo_spec table m dst src.length
    obtain ⟨hself, -⟩ := lzpUnfilterSelf_spec table m src.length
    rw [hm, hout, Except.ok.injEq] at hto hself
    exact ⟨hto.symm, hself.symm⟩

end Netc
