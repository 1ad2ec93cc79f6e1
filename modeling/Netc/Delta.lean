/-
# Delta prediction

`netc_delta.h` and the bulk versions of its two order-1 functions in
`netc_simd_*.c`. A byte at an offset of the header or body class is xor-ed
with its prediction, the others are subtracted. The bulk versions go over the
four regions in chunks of 32, 16 and 1 bytes, each chunk loaded, combined lane
by lane and stored; `out` may be the very buffer the residuals are read from.
They all compute `deltaEncode` and `deltaDecode` (`bulkEncode_eq`,
`bulkDecode_eq`), so the two ends of a connection may run at different levels.

Key definitions: `deltaEncode`, `deltaDecode`, `deltaEncodeOrder2`,
`deltaDecodeOrder2`, `SimdLevel`, `bulkEncode`, `bulkDecode`.
Key theorems: `deltaDecode_deltaEncode`, `deltaDecodeOrder2_deltaEncodeOrder2`,
`bulkEncode_eq`, `bulkDecode_eq`.
-/
import Netc.Basic

namespace Netc

/-- `NETC_DELTA_MIN_SIZE` -/
def deltaMinSize : ℕ := 8

/-- The offsets of the header and body classes, which are xor-ed. -/
def deltaXor (i : ℕ) : Bool := i < 16 || (64 ≤ i && i < 256)

/-- The residual of byte `c` at offset `i` under prediction `p`. -/
def residualByte (i : ℕ) (c p : UInt8) : UInt8 := if deltaXor i then c ^^^ p else c - p

/-- The byte at offset `i` with residual `r` under prediction `p`. -/
def restoreByte (i : ℕ) (r p : UInt8) : UInt8 := if deltaXor i then r ^^^ p else r + p

theorem restoreByte_residualByte (i : ℕ) (c p : UInt8) : restoreByte i (residualByte i c p) p = c := by
  simp only [restoreByte, residualByte]
  split
  · rw [UInt8.xor_assoc, UInt8.xor_self, UInt8.xor_zero]
  · exact UInt8.sub_add_cancel c p

/-! ### The functions of `netc_delta.h` -/

/-- `netc_delta_encode` -/
def deltaEncode (prev : ℕ → UInt8) (curr : List UInt8) : List UInt8 :=
  curr.mapIdx fun i c => residualByte i c (prev i)

/-- `netc_delta_decode` -/
def deltaDecode (prev : ℕ → UInt8) (residual : List UInt8) : List UInt8 :=
  residual.mapIdx fun i r => restoreByte i r (prev i)

/-- The order-2 prediction at offset `i`. -/
def predicted (prev2 prev : ℕ → UInt8) (i : ℕ) : UInt8 := 2 * prev i - prev2 i

/-- `netc_delta_encode_order2` -/
def deltaEncodeOrder2 (prev2 prev : ℕ → UInt8) (curr : List UInt8) : List UInt8 :=
  deltaEncode (predicted prev2 prev) curr

/-- `netc_delta_decode_order2` -/
def deltaDecodeOrder2 (prev2 prev : ℕ → UInt8) (residual : List UInt8) : List UInt8 :=
  deltaDecode (predicted prev2 prev) residual

section Inverse

variable (prev prev2 : ℕ → UInt8) (l : List UInt8)

@[simp] theorem length_deltaEncode : (deltaEncode prev l).length = l.length := by simp [deltaEncode]

@[simp] theorem length_deltaDecode : (deltaDecode prev l).length = l.length := by simp [deltaDecode]

@[simp] theorem length_deltaEncodeOrder2 : (deltaEncodeOrder2 prev2 prev l).length = l.length := by
  simp [deltaEncodeOrder2]

@[simp] theorem length_deltaDecodeOrder2 : (deltaDecodeOrder2 prev2 prev l).length = l.length := by
  simp [deltaDecodeOrder2]

/-- **Decoding against the packet encoded against gives the packet.** -/
theorem deltaDecode_deltaEncode : deltaDecode prev (deltaEncode prev l) = l := by
  refine List.ext_getElem (by simp) fun i h1 h2 => ?_
  simp [deltaDecode, deltaEncode, restoreByte_residualByte]

theorem deltaDecodeOrder2_deltaEncodeOrder2 :
    deltaDecodeOrder2 prev2 prev (deltaEncodeOrder2 prev2 prev l) = l := deltaDecode_deltaEncode _ l

theorem deltaEncode_congr {p q : ℕ → UInt8} (h : ∀ i < l.length, p i = q i) :
    deltaEncode p l = deltaEncode q l := by
  refine List.ext_getElem (by simp) fun i h1 h2 => ?_
  simp only [deltaEncode, List.getElem_mapIdx]
  rw [h i (by simpa using h1)]

end Inverse

/-! ### Bulk versions -/

/-- The levels of `netc_simd.h`, after detection. -/
inductive SimdLevel where
  | generic
  | sse42
  | avx2
  | neon
  deriving DecidableEq, Repr

/-- What the build and the processor offer: which files were compiled, and
what `netc__has_avx2`, `netc__has_sse42` and `netc__has_neon` return. -/
structure Platform where
  builtAvx2 : Bool
  builtSse42 : Bool
  builtNeon : Bool
  hasAvx2 : Bool
  hasSse42 : Bool
  hasNeon : Bool
  deriving DecidableEq, Repr

/-- `netc_simd_detect` -/
def simdDetect (pf : Platform) : ℕ :=
  if pf.hasAvx2 then 3 else if pf.hasSse42 then 2 else if pf.hasNeon then 4 else 1

/-- `netc_simd_ops_init` -/
def simdOpsInit (pf : Platform) (level : ℕ) : SimdLevel :=
  let level := if level = 0 then simdDetect pf else level
  if pf.builtAvx2 ∧ 3 ≤ level ∧ pf.hasAvx2 then .avx2
  else if pf.builtSse42 ∧ 2 ≤ level ∧ pf.hasSse42 then .sse42
  else if pf.builtNeon ∧ 4 ≤ level ∧ pf.hasNeon then .neon
  else .generic

/-- `while (i + width <= end)`, at most `n` rounds: load `width` bytes of both
operands, combine them, store them to `out`. The second operand is read where
`operand` says: at its own address, or from `out` itself. -/
def chunkLoop (f : ℕ → UInt8 → UInt8 → UInt8) (prev : ℕ → UInt8) (operand : (ℕ → UInt8) → ℕ → UInt8)
    (width stop : ℕ) : ℕ → ℕ × (ℕ → UInt8) → ℕ × (ℕ → UInt8)
  | 0, s => s
  | n + 1, (i, out) =>
    if i + width ≤ stop then
      chunkLoop f prev operand width stop n (i + width, ByteMem.write out i
        ((List.range width).map fun k => f (i + k) (operand out (i + k)) (prev (i + k))))
    else (i, out)

/-- A region of a bulk version: its operation, its end, the chunk widths. -/
structure Region where
  op : UInt8 → UInt8 → UInt8
  stop : ℕ
  widths : List ℕ

/-- One region after another, each with its widths in turn. -/
def regionsRun (prev : ℕ → UInt8) (operand : (ℕ → UInt8) → ℕ → UInt8) (len : ℕ) (regions : List Region)
    (out : ℕ → UInt8) : ℕ × (ℕ → UInt8) :=
  regions.foldl (fun s R => R.widths.foldl
    (fun s width => chunkLoop (fun _ => R.op) prev operand width (min len R.stop) len s) s) (0, out)

/-- The regions of `netc_delta_*_sse42` and `netc_delta_*_neon`, with the
operation of the xor-ed and of the other regions. -/
def regions16 (len : ℕ) (x s : UInt8 → UInt8 → UInt8) : List Region :=
  [⟨x, 16, [1]⟩, ⟨s, 64, [16, 1]⟩, ⟨x, 256, [16, 1]⟩, ⟨s, len, [16, 1]⟩]

/-- The regions of `netc_delta_*_avx2`. -/
def regions32 (len : ℕ) (x s : UInt8 → UInt8 → UInt8) : List Region :=
  [⟨x, 16, [1]⟩, ⟨s, 64, [16, 1]⟩, ⟨x, 256, [32, 16, 1]⟩, ⟨s, len, [32, 16, 1]⟩]

/-- `ops->delta_encode`: the residuals of `curr` written to `out`. -/
def bulkEncode (level : SimdLevel) (prev curr out : ℕ → UInt8) (len : ℕ) : ℕ → UInt8 :=
  match level with
  | .generic => (chunkLoop residualByte prev (fun _ => curr) 1 len len (0, out)).2
  | .sse42 => (regionsRun prev (fun _ => curr) len (regions16 len (· ^^^ ·) (· - ·)) out).2
  | .avx2 => (regionsRun prev (fun _ => curr) len (regions32 len (· ^^^ ·) (· - ·)) out).2
  | .neon => (regionsRun prev (fun _ => curr) len (regions16 len (· ^^^ ·) (· - ·)) out).2

/-- `ops->delta_decode` in place: the residuals are read from `out`. -/
def bulkDecode (level : SimdLevel) (prev out : ℕ → UInt8) (len : ℕ) : ℕ → UInt8 :=
  match level with
  | .generic => (chunkLoop restoreByte prev id 1 len len (0, out)).2
  | .sse42 => (regionsRun prev id len (regions16 len (· ^^^ ·) (· + ·)) out).2
  | .avx2 => (regionsRun prev id len (regions32 len (· ^^^ ·) (· + ·)) out).2
  | .neon => (regionsRun prev id len (regions16 len (· ^^^ ·) (· + ·)) out).2

/-! ### The bulk versions agree -/

section Bulk

variable {g : ℕ → UInt8 → UInt8 → UInt8} {prev base : ℕ → UInt8} {operand : (ℕ → UInt8) → ℕ → UInt8}
  {len : ℕ}

/-- The first `i` bytes of `base` are done: they hold `g` of both operands. -/
def Done (g : ℕ → UInt8 → UInt8 → UInt8) (prev base : ℕ → UInt8) (operand : (ℕ → UInt8) → ℕ → UInt8) (i : ℕ)
    (out : ℕ → UInt8) : Prop :=
  ∀ j, out j = if j < i then g j (operand base j) (prev j) else base j

/-- The operand's bytes from `i` on are still there when the first `i` bytes are done. -/
def Stable (operand : (ℕ → UInt8) → ℕ → UInt8) : Prop :=
  ∀ (a b : ℕ → UInt8) (i : ℕ), (∀ j, i ≤ j → a j = b j) → ∀ j, i ≤ j → operand a j = operand b j

theorem stable_id : Stable id := fun _ _ _ h => h

theorem stable_const (m : ℕ → UInt8) : Stable fun _ => m := fun _ _ _ _ _ _ => rfl

/-- A loop in chunks keeps the front of the buffer done, as long as its
operation is `g` where it goes. -/
theorem chunkLoop_done (hop : Stable operand) {f : ℕ → UInt8 → UInt8 → UInt8} {width stop : ℕ} :
    ∀ (n i : ℕ) (out : ℕ → UInt8), (∀ j, i ≤ j → j < stop → f j = g j) → i ≤ stop →
    Done g prev base operand i out →
    ∃ i' out', chunkLoop f prev operand width stop n (i, out) = (i', out') ∧ i ≤ i' ∧ i' ≤ stop ∧
      (0 < width → stop - i ≤ n → stop < i' + width) ∧ Done g prev base operand i' out'
  | 0, i, out, _, hi, hd => ⟨i, out, rfl, Nat.le_refl _, hi, fun h1 h2 => by omega, hd⟩
  | n + 1, i, out, hf, hi, hd => by
    rw [chunkLoop]
    split
    · next hw =>
      have hd' : Done g prev base operand (i + width) (ByteMem.write out i
          ((List.range width).map fun k => f (i + k) (operand out (i + k)) (prev (i + k)))) := by
        intro j
        by_cases h1 : j < i
        · rw [ByteMem.write_of_lt h1, hd j, if_pos h1, if_pos (by omega)]
        · by_cases h2 : j < i + width
          · have hbase : ∀ j, i ≤ j → out j = base j := fun j hj => by rw [hd j, if_neg (by omega)]
            rw [ByteMem.write_of_mem (by omega) (by simpa using h2), if_pos h2]
            rw [List.getD_eq_getElem _ _ (by simp; omega)]
            simp only [List.getElem_map, List.getElem_range, Nat.add_sub_cancel' (not_lt.mp h1)]
            rw [hf j (by omega) (by omega), hop out base i hbase j (by omega)]
          · rw [ByteMem.write_of_ge (by simp; omega), hd j, if_neg h1, if_neg h2]
      obtain ⟨i', out', h1, h2, h3, h4, h5⟩ :=
        chunkLoop_done hop n (i + width) _ (fun j hj hj' => hf j (by omega) hj') hw hd'
      exact ⟨i', out', h1, by omega, h3, fun ha hb => h4 ha (by omega), h5⟩
    · next hw => exact ⟨i, out, rfl, Nat.le_refl _, hi, fun _ _ => by omega, hd⟩

/-- A region whose widths end with single bytes is done to its end. -/
theorem region_done (hop : Stable operand) {R : Region} {ws : List ℕ} (hR : R.widths = ws ++ [1])
    {i : ℕ} {out : ℕ → UInt8} (hf : ∀ j, i ≤ j → j < min len R.stop → R.op = g j) (hi : i ≤ min len R.stop)
    (hd : Done g prev base operand i out) :
    ∃ out', R.widths.foldl (fun s width => chunkLoop (fun _ => R.op) prev operand width (min len R.stop) len s)
      (i, out) = (min len R.stop, out') ∧ Done g prev base operand (min len R.stop) out' := by
  have hws : ∀ (ws : List ℕ) (i : ℕ) (out : ℕ → UInt8), (∀ j, i ≤ j → j < min len R.stop → R.op = g j) →
      i ≤ min len R.stop → Done g prev base operand i out →
      ∃ i' out', ws.foldl (fun s width => chunkLoop (fun _ => R.op) prev operand width (min len R.stop) len s)
        (i, out) = (i', out') ∧ i ≤ i' ∧ i' ≤ min len R.stop ∧ Done g prev base operand i' out' := by
    intro ws
    induction ws with
    | nil => exact fun i out _ hi hd => ⟨i, out, rfl, Nat.le_refl _, hi, hd⟩
    | cons w ws ih =>
      intro i out hf hi hd
      obtain ⟨i1, out1, h1, h2, h3, -, h5⟩ := @chunkLoop_done g prev base operand hop _ w _ len i out hf hi hd
      obtain ⟨i2, out2, h6, h7, h8, h9⟩ := ih i1 out1 (fun j hj => hf j (by omega)) h3 h5
      exact ⟨i2, out2, by rw [List.foldl_cons, h1, h6], by omega, h8, h9⟩
  obtain ⟨i1, out1, h1, h2, h3, h4⟩ := hws ws i out hf hi hd
  obtain ⟨i2, out2, h5, h6, h7, h8, h9⟩ :=
    @chunkLoop_done g prev base operand hop _ 1 _ len i1 out1 (fun j hj => hf j (by omega)) h3 h4
  have : i2 = min len R.stop := by
    have := h8 (by omega) (by omega)
    omega
  subst this
  exact ⟨out2, by rw [hR, List.foldl_append, h1]; exact h5, h9⟩

/-- Four regions that split the packet at 16, 64 and 256 do it all. -/
theorem regionsRun_done (hop : Stable operand) {x s : UInt8 → UInt8 → UInt8} {w2 w3 w4 : List ℕ}
    (hx : ∀ j, deltaXor j = true → x = g j) (hs : ∀ j, deltaXor j = false → s = g j) :
    Done g prev base operand len (regionsRun prev operand len
      [⟨x, 16, [1]⟩, ⟨s, 64, w2 ++ [1]⟩, ⟨x, 256, w3 ++ [1]⟩, ⟨s, len, w4 ++ [1]⟩] base).2 := by
  have h0 : Done g prev base operand 0 base := fun j => by simp
  obtain ⟨o1, h1, d1⟩ := @region_done g prev base operand len hop ⟨x, 16, [1]⟩ [] rfl _ _
    (fun j _ hj => hx j (by simp only [deltaXor] at *; simp; omega)) (Nat.zero_le _) h0
  obtain ⟨o2, h2, d2⟩ := @region_done g prev base operand len hop ⟨s, 64, w2 ++ [1]⟩ w2 rfl _ _
    (fun j hi hj => hs j (by simp only [deltaXor] at *; simp; omega)) (by simp only; omega) d1
  obtain ⟨o3, h3, d3⟩ := @region_done g prev base operand len hop ⟨x, 256, w3 ++ [1]⟩ w3 rfl _ _
    (fun j hi hj => hx j (by simp only [deltaXor] at *; simp; omega)) (by simp only; omega) d2
  obtain ⟨o4, h4, d4⟩ := @region_done g prev base operand len hop ⟨s, len, w4 ++ [1]⟩ w4 rfl _ _
    (fun j hi hj => hs j (by simp only [deltaXor] at *; simp; omega)) (by simp only; omega) d3
  simp only [regionsRun, List.foldl_cons, List.foldl_nil] at h1 h2 h3 h4 ⊢
  rw [h1, h2, h3, h4]
  simpa using d4

theorem residualByte_xor {j : ℕ} (h : deltaXor j = true) : (· ^^^ ·) = residualByte j := by
  funext c p
  simp [residualByte, h]

theorem residualByte_sub {j : ℕ} (h : deltaXor j = false) : (· - ·) = residualByte j := by
  funext c p
  simp [residualByte, h]

theorem restoreByte_xor {j : ℕ} (h : deltaXor j = true) : (· ^^^ ·) = restoreByte j := by
  funext c p
  simp [restoreByte, h]

theorem restoreByte_add {j : ℕ} (h : deltaXor j = false) : (· + ·) = restoreByte j := by
  funext c p
  simp [restoreByte, h]

/-- The loops of a level: one over single bytes with `f`, or the four regions with `x` and `s`. -/
def levelRun (level : SimdLevel) (f : ℕ → UInt8 → UInt8 → UInt8) (x s : UInt8 → UInt8 → UInt8) (prev : ℕ → UInt8)
    (operand : (ℕ → UInt8) → ℕ → UInt8) (out : ℕ → UInt8) (len : ℕ) : ℕ → UInt8 :=
  match level with
  | .generic => (chunkLoop f prev operand 1 len len (0, out)).2
  | .sse42 => (regionsRun prev operand len (regions16 len x s) out).2
  | .avx2 => (regionsRun prev operand len (regions32 len x s) out).2
  | .neon => (regionsRun prev operand len (regions16 len x s) out).2

/-- Every level does the whole packet, if its operations are `g`. -/
theorem levelRun_done (hop : Stable operand) {x s : UInt8 → UInt8 → UInt8} (hx : ∀ j, deltaXor j = true → x = g j)
    (hs : ∀ j, deltaXor j = false → s = g j) (level : SimdLevel) (prev out : ℕ → UInt8) (len : ℕ) :
    Done g prev out operand len (levelRun level g x s prev operand out len) := by
  have hregions := fun w2 w3 w4 => @regionsRun_done g prev out operand len hop x s w2 w3 w4 hx hs
  cases level with
  | generic =>
    obtain ⟨i, out', h1, -, h3, h4, h5⟩ := @chunkLoop_done g prev out operand hop g 1 len len 0 out
      (fun _ _ _ => rfl) (Nat.zero_le _) (fun j => by simp)
    have hi : i = len := by have := h4 (by omega) (by omega); omega
    subst hi
    simp only [levelRun, h1]
    exact h5
  | sse42 => exact hregions [16] [16] [16]
  | avx2 => exact hregions [16] [32, 16] [32, 16]
  | neon => exact hregions [16] [16] [16]

theorem bulkEncode_done (level : SimdLevel) (prev curr out : ℕ → UInt8) (len : ℕ) :
    Done residualByte prev out (fun _ => curr) len (bulkEncode level prev curr out len) := by
  have h := levelRun_done (stable_const curr) (fun _ => residualByte_xor) (fun _ => residualByte_sub) level prev out len
  cases level <;> exact h

theorem bulkDecode_done (level : SimdLevel) (prev out : ℕ → UInt8) (len : ℕ) :
    Done restoreByte prev out id len (bulkDecode level prev out len) := by
  have h := levelRun_done stable_id (fun _ => restoreByte_xor) (fun _ => restoreByte_add) level prev out len
  cases level <;> exact h

/-- A packet done to its end, as the bytes written. -/
theorem Done.eq_write {out : ℕ → UInt8} (h : Done g prev base operand len out) :
    out = ByteMem.write base 0 ((ByteMem.slice (operand base) 0 len).mapIdx fun i b => g i b (prev i)) := by
  funext j
  rw [h j]
  by_cases hj : j < len
  · rw [if_pos hj, ByteMem.write_of_mem (Nat.zero_le j) (by simpa using hj), Nat.sub_zero,
      List.getD_eq_getElem _ _ (by simpa using hj)]
    simp [ByteMem.slice]
  · rw [if_neg hj, ByteMem.write_of_ge (by simpa using hj)]

end Bulk

/-- **Every level encodes the same.** -/
theorem bulkEncode_eq (level : SimdLevel) (prev out : ℕ → UInt8) (curr : List UInt8) :
    bulkEncode level prev (fun i => curr.getD i 0) out curr.length
      = ByteMem.write out 0 (deltaEncode prev curr) := by
  have hcurr : ByteMem.slice (fun i => curr.getD i 0) 0 curr.length = curr :=
    List.ext_getElem (by simp) fun i _ hi => by simp [ByteMem.slice, hi]
  rw [(bulkEncode_done level prev _ out curr.length).eq_write, hcurr, deltaEncode]

/-- **Every level decodes the same**, in place. -/
theorem bulkDecode_eq (level : SimdLevel) (prev out : ℕ → UInt8) (len : ℕ) :
    bulkDecode level prev out len = ByteMem.write out 0 (deltaDecode prev (ByteMem.slice out 0 len)) :=
  (bulkDecode_done level prev out len).eq_write

end Netc
