/-
# The vector versions

The bulk operations of `netc_simd_sse42.c`, `netc_simd_avx2.c` and
`netc_simd_neon.c` beside those of `netc_simd_generic.c`, each vector
intrinsic read as the byte operation on its lanes. All levels write the same
residuals, restore the same packets, in place or not, and leave the same
counts (`simd_agree`), so that the two ends of a connection may run at
different levels.

Key definitions: `bulkDecodeFrom`, `bulkFreqCount`.
Key theorems: `simd_agree`.
-/
import Netc.Delta

namespace Netc

/-! ### Delta -/

/-- `ops->delta_decode` with the residuals in a buffer of their own. -/
def bulkDecodeFrom (level : SimdLevel) (prev residual out : ℕ → UInt8) (len : ℕ) : ℕ → UInt8 :=
  match level with
  | .generic => (chunkLoop restoreByte prev (fun _ => residual) 1 len len (0, out)).2
  | .sse42 => (regionsRun prev (fun _ => residual) len (regions16 len (· ^^^ ·) (· + ·)) out).2
  | .avx2 => (regionsRun prev (fun _ => residual) len (regions32 len (· ^^^ ·) (· + ·)) out).2
  | .neon => (regionsRun prev (fun _ => residual) len (regions16 len (· ^^^ ·) (· + ·)) out).2

theorem bulkDecodeFrom_done (level : SimdLevel) (prev residual out : ℕ → UInt8) (len : ℕ) :
    Done restoreByte prev out (fun _ => residual) len (bulkDecodeFrom level prev residual out len) := by
  have h := levelRun_done (stable_const residual) (fun _ => restoreByte_xor) (fun _ => restoreByte_add) level prev out
    len
  cases level <;> exact h

/-! ### Counting -/

/-- A histogram of 32-bit counters. -/
abbrev Hist := ℕ → UInt32

/-- `freq[b]++` -/
def Hist.bump (h : Hist) (b : UInt8) : Hist := Function.update h b.toNat (h b.toNat + 1)

/-- `netc_freq_count_generic` -/
def freqCountGeneric (data : List UInt8) (freq : Hist) : Hist := data.foldl Hist.bump freq

/-- `for (; i + width <= len; i += width)`, at most `n` rounds, on the data from `i` on: what is left of it, and
the counters. -/
def countChunks {σ : Type} (width : ℕ) (step : σ → List UInt8 → σ) : ℕ → List UInt8 → σ → List UInt8 × σ
  | 0, data, s => (data, s)
  | n + 1, data, s =>
    if width ≤ data.length then countChunks width step n (data.drop width) (step s (data.take width)) else (data, s)

/-- `netc_freq_count_sse42` and `netc_freq_count_neon`: sixteen bytes a round, then the rest one by one. -/
def freqCount16 (data : List UInt8) (freq : Hist) : Hist :=
  let r := countChunks 16 (fun h b => b.foldl Hist.bump h) data.length data freq
  r.1.foldl Hist.bump r.2

/-- The four partial histograms of `netc_freq_count_avx2`. -/
structure Quarters where
  h0 : Hist
  h1 : Hist
  h2 : Hist
  h3 : Hist

/-- The body of its loop: every fourth byte of a chunk goes to the same histogram. -/
def Quarters.scatter : Quarters → List UInt8 → Quarters
  | q, a :: b :: c :: d :: l => scatter ⟨q.h0.bump a, q.h1.bump b, q.h2.bump c, q.h3.bump d⟩ l
  | q, _ => q

/-- `netc_freq_count_avx2` -/
def freqCount32 (data : List UInt8) (freq : Hist) : Hist :=
  let r := countChunks 32 Quarters.scatter data.length data ⟨fun _ => 0, fun _ => 0, fun _ => 0, fun _ => 0⟩
  let h0 := r.1.foldl Hist.bump r.2.h0
  fun k => freq k + (h0 k + r.2.h1 k + r.2.h2 k + r.2.h3 k)

/-- `ops->freq_count` -/
def bulkFreqCount (level : SimdLevel) (data : List UInt8) (freq : Hist) : Hist :=
  match level with
  | .generic => freqCountGeneric data freq
  | .sse42 => freqCount16 data freq
  | .avx2 => freqCount32 data freq
  | .neon => freqCount16 data freq

section Counting

variable (k : ℕ)

/-- How often `k` occurs, as a counter. -/
def occurs : List UInt8 → UInt32
  | [] => 0
  | b :: l => (if b.toNat = k then 1 else 0) + occurs l

theorem occurs_append : ∀ l l' : List UInt8, occurs k (l ++ l') = occurs k l + occurs k l'
  | [], l' => (UInt32.zero_add _).symm
  | b :: l, l' => by rw [List.cons_append, occurs, occurs, occurs_append l l', UInt32.add_assoc]

theorem bump_apply (h : Hist) (b : UInt8) : h.bump b k = h k + if b.toNat = k then 1 else 0 := by
  unfold Hist.bump
  by_cases hk : b.toNat = k
  · subst hk
    rw [Function.update_self, if_pos rfl]
  · rw [Function.update_of_ne (Ne.symm hk), if_neg hk, UInt32.add_zero]

/-- Counting adds the occurrences. -/
theorem foldl_bump : ∀ (l : List UInt8) (h : Hist), l.foldl Hist.bump h k = h k + occurs k l
  | [], h => (UInt32.add_zero _).symm
  | b :: l, h => by rw [List.foldl_cons, foldl_bump l, bump_apply, occurs, UInt32.add_assoc]

/-- A loop in chunks whose body adds the occurrences in a chunk has added those of what it went over. -/
theorem countChunks_occurs {σ : Type} {width : ℕ} {step : σ → List UInt8 → σ} {value : σ → UInt32}
    (hstep : ∀ s c, c.length = width → value (step s c) = value s + occurs k c) : ∀ (n : ℕ) (data : List UInt8) (s : σ),
    value (countChunks width step n data s).2 + occurs k (countChunks width step n data s).1 = value s + occurs k data
  | 0, _, _ => rfl
  | n + 1, data, s => by
    rw [countChunks]
    split
    · next h =>
      have hdata : occurs k data = occurs k (data.take width) + occurs k (data.drop width) := by
        rw [← occurs_append, List.take_append_drop]
      rw [countChunks_occurs hstep n, hstep _ _ (by simpa using h), hdata, UInt32.add_assoc]
    · rfl

/-- The sum of the partial histograms. -/
def Quarters.total (q : Quarters) : UInt32 := q.h0 k + q.h1 k + q.h2 k + q.h3 k

theorem scatter_total : ∀ (q : Quarters) (l : List UInt8), l.length % 4 = 0 →
    (q.scatter l).total k = q.total k + occurs k l
  | q, [], _ => (UInt32.add_zero _).symm
  | _, [_], h => by simp at h
  | _, [_, _], h => by simp at h
  | _, [_, _, _], h => by simp at h
  | q, a :: b :: c :: d :: l, h => by
    have hl : l.length % 4 = 0 := by
      simp only [List.length_cons] at h
      omega
    rw [Quarters.scatter, scatter_total _ l hl]
    simp only [Quarters.total, bump_apply, occurs]
    ac_rfl

theorem freqCount16_eq (data : List UInt8) (freq : Hist) : freqCount16 data freq = freqCountGeneric data freq := by
  funext k
  have h := @countChunks_occurs k Hist 16 (fun h b => b.foldl Hist.bump h) (fun h => h k)
    (fun s c _ => foldl_bump k c s) data.length data freq
  rw [freqCount16, freqCountGeneric, foldl_bump, foldl_bump]
  exact h

theorem freqCount32_eq (data : List UInt8) (freq : Hist) : freqCount32 data freq = freqCountGeneric data freq := by
  funext k
  have h := @countChunks_occurs k Quarters 32 Quarters.scatter (fun q => q.total k)
    (fun q c hc => scatter_total k q c (by omega)) data.length data ⟨fun _ => 0, fun _ => 0, fun _ => 0, fun _ => 0⟩
  rw [freqCountGeneric, foldl_bump]
  simp only [freqCount32, foldl_bump]
  simp only [Quarters.total, UInt32.add_zero, UInt32.zero_add] at h
  rw [← h]
  ac_rfl

end Counting

/-- **All levels compute the same.** Encoding, decoding from a buffer of residuals or in place, and counting at
any level give what the plain loops give, for every length and all inputs. -/
theorem simd_agree (level : SimdLevel) (prev operand out : ℕ → UInt8) (len : ℕ) (data : List UInt8) (freq : Hist) :
    (bulkEncode level prev operand out len = bulkEncode .generic prev operand out len ∧
      bulkEncode level prev operand out len
        = ByteMem.write out 0 (deltaEncode prev (ByteMem.slice operand 0 len))) ∧
    (bulkDecodeFrom level prev operand out len = bulkDecodeFrom .generic prev operand out len ∧
      bulkDecodeFrom level prev operand out len
        = ByteMem.write out 0 (deltaDecode prev (ByteMem.slice operand 0 len))) ∧
    (bulkDecode level prev out len = bulkDecode .generic prev out len ∧
      bulkDecode level prev out len = ByteMem.write out 0 (deltaDecode prev (ByteMem.slice out 0 len))) ∧
    bulkFreqCount level data freq = bulkFreqCount .generic data freq := by
  have henc : ∀ level, bulkEncode level prev operand out len
      = ByteMem.write out 0 (deltaEncode prev (ByteMem.slice operand 0 len)) :=
    fun level => (bulkEncode_done level prev operand out len).eq_write
  have hfrom : ∀ level, bulkDecodeFrom level prev operand out len
      = ByteMem.write out 0 (deltaDecode prev (ByteMem.slice operand 0 len)) :=
    fun level => (bulkDecodeFrom_done level prev operand out len).eq_write
  have hin : ∀ level, bulkDecode level prev out len
      = ByteMem.write out 0 (deltaDecode prev (ByteMem.slice out 0 len)) :=
    fun level => (bulkDecode_done level prev out len).eq_write
  refine ⟨⟨by rw [henc, henc], henc level⟩, ⟨by rw [hfrom, hfrom], hfrom level⟩, ⟨by rw [hin, hin], hin level⟩, ?_⟩
  cases level with
  | generic => rfl
  | sse42 => exact freqCount16_eq data freq
  | avx2 => exact freqCount32_eq data freq
  | neon => exact freqCount16_eq data freq

end Netc
