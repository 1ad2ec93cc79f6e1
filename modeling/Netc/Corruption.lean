/-
# Corrupted dictionaries

`netc_dict_load` finds every local corruption of a blob. The header tells how much of the blob the checksum
covers, so bytes changed behind the header, or in the model id, leave the checked range as it was; and the
CRC tells apart what differs in a window of four bytes (`crc32_window`).

Key definitions: `DifferWithin`, `Localised`.
Key theorem: `dictLoad_corrupted`.
-/
import Netc.DictBlob

namespace Netc

/-- The strings are the same outside the places from `lo` to `hi - 1`. -/
def DifferWithin (lo hi : ℕ) (b b' : List UInt8) : Prop := ∀ i, ¬(lo ≤ i ∧ i < hi) → b'[i]? = b[i]?

/-- The strings differ in at most four places in a row behind the header and before the checksum at `n - 4`, or in the
model id, or in the checksum. -/
def Localised (n : ℕ) (b b' : List UInt8) : Prop :=
  (∃ lo hi, 8 ≤ lo ∧ hi ≤ lo + 4 ∧ hi ≤ n - 4 ∧ DifferWithin lo hi b b') ∨ DifferWithin 5 6 b b' ∨
    DifferWithin (n - 4) n b b'

section Corrupted

variable {b b' : List UInt8} {lo hi n : ℕ}

theorem DifferWithin.byteAt (h : DifferWithin lo hi b b') {i : ℕ} (hi : ¬(lo ≤ i ∧ i < hi)) :
    byteAt b' i = byteAt b i := by
  unfold Netc.byteAt
  rw [List.getD_eq_getElem?_getD, List.getD_eq_getElem?_getD, h i hi]

/-- A part outside the window is the same. -/
theorem DifferWithin.part (h : DifferWithin lo hi b b') {off len : ℕ} (hout : off + len ≤ lo ∨ hi ≤ off) :
    (b'.drop off).take len = (b.drop off).take len := by
  apply List.ext_getElem?
  intro i
  simp only [List.getElem?_take]
  split
  · rw [List.getElem?_drop, List.getElem?_drop]
    exact h _ (by omega)
  · rfl

theorem DifferWithin.u32At (h : DifferWithin lo hi b b') {off : ℕ} (hout : off + 4 ≤ lo ∨ hi ≤ off) :
    u32At b' off = u32At b off := by
  unfold Netc.u32At
  rw [h.part hout]

/-- Different checksum bytes are different checksums. -/
theorem part_of_u32At {off : ℕ} (hlen : b'.length = b.length) (hoff : off + 4 ≤ b.length)
    (h : UInt32.ofNat (u32At b' off) = UInt32.ofNat (u32At b off)) :
    (b'.drop off).take 4 = (b.drop off).take 4 := by
  have hnat := congrArg UInt32.toNat h
  rw [UInt32.toNat_ofNat_of_lt' (u32At_lt _ _), UInt32.toNat_ofNat_of_lt' (u32At_lt _ _)] at hnat
  have hfour : ∀ l : List UInt8, l.length = b.length → ((l.drop off).take 4).length = 4 := by
    intro l hl
    rw [List.length_take, List.length_drop]
    omega
  rw [← Digits.leBytes_leNat (hfour b' hlen), ← Digits.leBytes_leNat (hfour b rfl)]
  exact congrArg (Digits.leBytes 4) hnat

/-- With the header of an accepted blob and another checksum a blob is not valid. -/
theorem dictLoad_checksum (hacc : Acceptable b) (hlen : b'.length = b.length) (hmagic : u32At b' 0 = u32At b 0)
    (h4 : byteAt b' 4 = byteAt b 4) (h6 : byteAt b' 6 = byteAt b 6) (h7 : byteAt b' 7 = byteAt b 7)
    (hn : dictBlobSizeV (byteAt b 4) (byteAt b 7) = n)
    (hsum : UInt32.ofNat (u32At b' (n - 4)) ≠ dictBlobChecksum b' n) : dictLoad b' = .error .errDictInvalid := by
  have hmin := dictV3BlobSize_le (byteAt b 4) (byteAt b 7)
  have hsize := hacc.size
  unfold dictLoad
  simp only [h4, h6, h7, hmagic, hn, hlen]
  rw [hn] at hmin hsize
  rw [if_neg (by omega), if_neg (not_not.mpr hacc.magic), if_neg, if_neg (not_not.mpr hacc.ctxCount), if_neg (by omega),
    if_pos hsum]
  rw [not_or, UInt8.not_lt, UInt8.not_lt]
  exact hacc.version

/-- Changes in a window of the checked range change the checksum. -/
theorem DifferWithin.checksum_ne (h : DifferWithin lo hi b b') (hfour : hi ≤ lo + 4) (hend : hi ≤ n - 4)
    (hlen : b'.length = b.length) (hne : b' ≠ b) : dictBlobChecksum b' n ≠ dictBlobChecksum b n := by
  intro hsum
  have htake : b'.take (n - 4) = b.take (n - 4) := by
    refine @crc32_window _ _ lo (hi - lo) (by simp only [List.length_take, hlen]) (by omega) (fun i hi' => ?_) hsum
    simp only [List.getElem?_take]
    split
    · exact h i (by omega)
    · rfl
  apply hne
  apply List.ext_getElem?
  intro i
  by_cases hi' : lo ≤ i ∧ i < hi
  · have hget := congrArg (fun l => l[i]?) htake
    simpa only [List.getElem?_take, if_pos (show i < n - 4 by omega)] using hget
  · exact h i hi'

/-- Changes in a window before the checksum are found. -/
theorem DifferWithin.rejected (h : DifferWithin lo hi b b') (hacc : Acceptable b) (hlen : b'.length = b.length)
    (hne : b' ≠ b) (hlo : 8 ≤ lo ∨ (lo = 5 ∧ hi = 6)) (hfour : hi ≤ lo + 4)
    (hend : hi ≤ dictBlobSizeV (Netc.byteAt b 4) (Netc.byteAt b 7) - 4) : dictLoad b' = .error .errDictInvalid := by
  refine dictLoad_checksum hacc hlen (h.u32At (by omega)) (h.byteAt (by omega)) (h.byteAt (by omega))
    (h.byteAt (by omega)) rfl ?_
  rw [h.u32At (Or.inr hend), hacc.checksum]
  exact (h.checksum_ne hfour hend hlen hne).symm

/-- Changes in the checksum are found. -/
theorem DifferWithin.rejected_checksum
    (h : DifferWithin (dictBlobSizeV (Netc.byteAt b 4) (Netc.byteAt b 7) - 4)
      (dictBlobSizeV (Netc.byteAt b 4) (Netc.byteAt b 7)) b b')
    (hacc : Acceptable b) (hlen : b'.length = b.length) (hne : b' ≠ b) : dictLoad b' = .error .errDictInvalid := by
  have hmin := dictV3BlobSize_le (Netc.byteAt b 4) (Netc.byteAt b 7)
  have hv3 : 12 ≤ dictV3BlobSize := by decide
  have hsize := hacc.size
  set n := dictBlobSizeV (Netc.byteAt b 4) (Netc.byteAt b 7) with hn
  refine dictLoad_checksum hacc hlen (h.u32At (by omega)) (h.byteAt (by omega)) (h.byteAt (by omega))
    (h.byteAt (by omega)) hn.symm fun hsum => hne ?_
  have hcover : dictBlobChecksum b' n = dictBlobChecksum b n := by
    have hpart : (b'.drop 0).take (n - 4) = (b.drop 0).take (n - 4) := h.part (Or.inl (Nat.zero_add _).le)
    rw [List.drop_zero, List.drop_zero] at hpart
    unfold dictBlobChecksum
    rw [hpart]
  have hbytes : (b'.drop (n - 4)).take 4 = (b.drop (n - 4)).take 4 :=
    part_of_u32At hlen (by omega) (by rw [hsum, hcover, hacc.checksum])
  apply List.ext_getElem?
  intro i
  by_cases hi : n - 4 ≤ i ∧ i < n
  · have hget := congrArg (fun l => l[i - (n - 4)]?) hbytes
    simpa only [List.getElem?_take, List.getElem?_drop, if_pos (show i - (n - 4) < 4 by omega),
      show n - 4 + (i - (n - 4)) = i by omega] using hget
  · exact h i hi

end Corrupted

/-- **Local corruption is always found.** -/
theorem dictLoad_corrupted (b b' : List UInt8) (d : Dict) (hload : dictLoad b = .ok d) (hlen : b'.length = b.length)
    (hne : b' ≠ b) (hlocal : Localised (dictBlobSizeV (byteAt b 4) (byteAt b 7)) b b') :
    dictLoad b' = .error .errDictInvalid := by
  have hacc := (dictLoad_eq_ok.mp hload).1
  have hmin := dictV3BlobSize_le (byteAt b 4) (byteAt b 7)
  have hv3 : 12 ≤ dictV3BlobSize := by decide
  rcases hlocal with ⟨lo, hi, hlo, hfour, hend, h⟩ | h | h
  · exact h.rejected hacc hlen hne (Or.inl hlo) hfour hend
  · exact h.rejected hacc hlen hne (Or.inr ⟨rfl, rfl⟩) (by omega) (by omega)
  · exact h.rejected_checksum hacc hlen hne

theorem differWithin_set (b : List UInt8) (i : ℕ) (x : UInt8) : DifferWithin i (i + 1) b (b.set i x) := by
  intro j hj
  exact List.getElem?_set_ne (by omega)

/-- The first byte behind the header is inverted. -/
theorem dictLoad_corrupted_first : ∃ b d, dictLoad b = .ok d ∧ b.set 8 (byteAt b 8 ^^^ 0xFF) ≠ b ∧
    dictLoad (b.set 8 (byteAt b 8 ^^^ 0xFF)) = .error .errDictInvalid := by
  have hacc := @flatBlob_acceptable 3 0 (fun p => p >>> 6) [] (by decide) (fun _ _ => rfl) rfl
    (fun h => absurd h (by decide))
  generalize flatBlob 3 0 (fun p => p >>> 6) [] = b at hacc
  have hmin := dictV3BlobSize_le (byteAt b 4) (byteAt b 7)
  have hv3 : 16 ≤ dictV3BlobSize := by decide
  have hsize := hacc.size
  have hload := dictLoad_eq_ok.mpr ⟨hacc, rfl⟩
  have hne : b.set 8 (byteAt b 8 ^^^ 0xFF) ≠ b := by
    intro h
    have hbyte : byteAt (b.set 8 (byteAt b 8 ^^^ 0xFF)) 8 = byteAt b 8 ^^^ 0xFF :=
      byteAt_of_getElem? (List.getElem?_set_self (by omega))
    rw [h] at hbyte
    have hzero := congrArg (byteAt b 8 ^^^ ·) hbyte
    simp only [UInt8.xor_self, ← UInt8.xor_assoc, UInt8.zero_xor] at hzero
    exact absurd hzero (by decide)
  exact ⟨b, _, hload, hne, dictLoad_corrupted b _ _ hload List.length_set hne
    (Or.inl ⟨8, 9, le_rfl, by omega, by omega, differWithin_set b 8 _⟩)⟩

end Netc
