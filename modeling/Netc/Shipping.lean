/-
# From a corpus to a connection

A dictionary is trained once, saved, and loaded by every peer. What `netc_dict_load` accepts need not be fit
for use: its checks let pass a frequency of zero, a class beyond the tables and a blob without LZP table.
`Wholesome` says in terms of the bytes what a blob must hold besides, and for the blobs that are accepted it
says exactly that the codec can rely on the dictionary (`Acceptable.sound_iff`).

With a wholesome blob on both sides `netc_decompress` stays in bounds on any input and a connection delivers
(`loaded_serves`), and every blob that was trained and saved is wholesome, whatever the corpus was and
whatever stands behind the blob (`shipped_serves`).

Key definitions: `Wholesome`, `Serves`.
Key theorems: `Acceptable.sound_iff`, `loaded_serves`, `shipped_serves`.
-/
import Netc.DictBlob
import Netc.Session

namespace Netc

open Layout

/-! ### Blobs to rely on -/

/-- The blob is of version 5, with an LZP table, eight classes and no frequency of zero. -/
structure Wholesome (b : List UInt8) : Prop where
  version : 5 ≤ byteAt b 4
  lzp : hasLzp (byteAt b 7) = true
  classMap : ∀ p : UInt8, (byteAt b (dictHeaderSize + p.toNat)).toNat < bigramCtxCount
  table : ∀ k < ctxCount, ∀ s < 256, u16At b (tableOff (byteAt b 4) k + 2 * s) ≠ 0
  bigram : ∀ k < ctxCount, ∀ c < bigramCtxCount, ∀ s < 256, u16At b (bigramOff (byteAt b 4) k c + 2 * s) ≠ 0

section Blobs

variable {b : List UInt8}

/-- A table from a blob codes every byte if its frequencies are positive. -/
theorem fullTable_freqAt {off : ℕ} (h : (tansBuild (freqAt b off)).isSome) :
    FullTable ((tansBuild (freqAt b off)).getD .zero) ↔ ∀ s < 256, u16At b (off + 2 * s) ≠ 0 := by
  obtain ⟨t, ht⟩ := Option.isSome_iff_exists.mp h
  rw [ht, Option.getD_some]
  constructor
  · rintro ⟨freq, hfreq, hpos⟩ s hs
    have hsame : freq s = freqAt b off s := by
      rw [← tansBuildWith_freq hfreq, tansBuildWith_freq ht]
    have := hpos s hs
    rw [hsame, freqAt, if_pos hs] at this
    exact this.ne'
  · intro hpos
    refine ⟨_, ht, fun s hs => ?_⟩
    rw [freqAt, if_pos hs]
    exact Nat.pos_of_ne_zero (hpos s hs)

theorem not_fullTable_zero : ¬FullTable .zero := fun h => absurd h.valid (by decide)

theorem nClasses_five {version : UInt8} (h : 5 ≤ version) : nClasses version = bigramCtxCount := if_pos h

/-- **What makes a blob wholesome is what the codec relies on**, for the blobs that are accepted. -/
theorem Acceptable.sound_iff (h : Acceptable b) : (loadedDict b).Sound ↔ Wholesome b := by
  constructor
  · rintro ⟨ht, hb, hc, hl⟩
    have hv : 5 ≤ byteAt b 4 := by
      by_contra hlt
      -- older versions have four classes, and the tables of the others are not built
      have hzero : (loadedDict b).bigramTables 0 4 = .zero := by
        simp only [loadedDict, tableArray, nClasses, if_neg hlt]
        rfl
      exact not_fullTable_zero (hzero ▸ hb 0 (by decide) 4 (by decide))
    refine ⟨hv, ?_, fun p => ?_, fun k hk => ?_, fun k hk c hc' => ?_⟩
    · by_contra hno
      simp only [loadedDict, hno, Bool.false_eq_true, if_false, Option.isSome_none] at hl
    · have := hc p
      simpa only [Dict.bigramClass, loadedDict, classMapAt, if_pos hv] using this
    · have := ht k hk
      simp only [loadedDict, tableArray, if_pos hk] at this
      exact (fullTable_freqAt (h.table k hk)).mp this
    · have hcl : c < nClasses (byteAt b 4) := by rwa [nClasses_five hv]
      have := hb k hk c hc'
      simp only [loadedDict, tableArray, if_pos hcl] at this
      exact (fullTable_freqAt (h.bigram k hk c hcl)).mp this
  · rintro ⟨hv, hl, hc, ht, hb⟩
    refine ⟨fun k hk => ?_, fun k hk c hc' => ?_, fun p => ?_, ?_⟩
    · simp only [loadedDict, tableArray, if_pos hk]
      exact (fullTable_freqAt (h.table k hk)).mpr (ht k hk)
    · have hcl : c < nClasses (byteAt b 4) := by rwa [nClasses_five hv]
      simp only [loadedDict, tableArray, if_pos hcl]
      exact (fullTable_freqAt (h.bigram k hk c hcl)).mpr (hb k hk c hc')
    · simpa only [Dict.bigramClass, loadedDict, classMapAt, if_pos hv] using hc p
    · simp only [loadedDict, hl, if_true, Option.isSome_some]

end Blobs

/-! ### Connections with a loaded dictionary -/

/-- The dictionary can be put to use. On every context that is made with it, after any calls, `netc_decompress`
returns on whatever bytes it is given and writes only the bytes of the packet, within the capacity. Between two
contexts made alike with it, with the eight-byte header, every packet that is given room comes back as it was,
as long as packets of two states have an even size. -/
structure Serves (d : Dict) : Prop where
  safe : ∀ pf cfg junk ctx, ctxCreate pf (some d) cfg junk = some ctx → ∀ calls,
    ∃ replies ctx', run ctx calls = .ok (replies, ctx') ∧ ∀ src dst dstCap dstSize,
      ∃ r, decompress ctx' src dst dstCap dstSize = .ok r ∧ InBounds src dstCap ctx'.compactMode dst r.dst
  delivers : ∀ pf pf' cfg cfg' junk junk' enc dec, ctxCreate pf (some d) cfg junk = some enc →
    ctxCreate pf' (some d) cfg' junk' = some dec →
    CfgFlag.has cfg'.flags CfgFlag.stateful = CfgFlag.has cfg.flags CfgFlag.stateful →
    CfgFlag.has cfg.flags CfgFlag.compactHdr = false → CfgFlag.has cfg'.flags CfgFlag.compactHdr = false →
    CfgFlag.has cfg'.flags CfgFlag.adaptive = CfgFlag.has cfg.flags CfgFlag.adaptive →
    cfg'.ringBufferSize = cfg.ringBufferSize → ∀ ts : List Transfer, (∀ t ∈ ts, t.Fits) →
    (∀ pkt ∈ emitted enc ts, ∀ hdr, hdrRead pkt = .ok hdr → PktFlag.has hdr.flags PktFlag.x2 = true →
      hdr.originalSize % 2 = 0) → Delivers enc dec ts

theorem Dict.Sound.serves {d : Dict} (h : d.Sound) : Serves d := by
  have hsome : ∀ d', some d = some d' → d'.Sound := fun d' hd' => Option.some.inj hd' ▸ h
  refine ⟨fun pf cfg junk ctx hctx calls => ?_,
    fun pf pf' cfg cfg' junk junk' enc dec henc hdec hs hc hc' ha hr ts hfits heven => ?_⟩
  · obtain ⟨replies, ctx', hrun, hwf⟩ := run_wf calls (ctxCreate_wf hsome hctx)
    exact ⟨replies, ctx', hrun, decompress_inBounds_of_wf hwf⟩
  · have hwf := ctxCreate_wf hsome henc
    have hm : enc.compactMode = false := by rw [Ctx.compactMode, ctxCreate_flags henc, hc]
    exact delivers_of_sendable ts hwf (ctxCreate_wf hsome hdec)
      (ctxCreate_inStep henc hdec hs (hc'.trans hc.symm) ha hr) hfits (throughout_of_even ts hwf hm hfits heven)

section Trained

variable {packets : List (List UInt8)} {modelId : UInt8} {d : Dict}

/-- The blob of a trained dictionary, at the front of any string. -/
theorem dictTrain_stands (h : dictTrain packets modelId = .ok d) (trailing : List UInt8) :
    BlobStands (blobOf d (lzpSection d) ++ trailing) d (lzpSection d) ∧
      Acceptable (blobOf d (lzpSection d) ++ trailing) := by
  have hst := dictTrain_stored h
  have hblob := dictTrain_blob h
  have hstands := at_blobOf.mp (at_self (blobOf d (lzpSection d)) trailing)
  have hlen : (dictBody d).length = dictBlobSizeV d.version d.dictFlags - 4 := by
    have := hst.length_blobOf
    rw [hblob, List.length_append, length_writeU32Le] at this
    omega
  have hsum : d.checksum =
      dictBlobChecksum (blobOf d (lzpSection d) ++ trailing) (dictBlobSizeV d.version d.dictFlags) := by
    rw [dictBlobChecksum, hblob, ← hlen, List.append_assoc, List.take_left]
    exact (dictTrain_fields h).2.2.2.2.2.2
  obtain ⟨d', hload, -⟩ := hstands.load hst hsum
  exact ⟨hstands, (dictLoad_eq_ok.mp hload).1⟩

/-- Loading keeps what training provides. -/
theorem dictTrain_wholesome (h : dictTrain packets modelId = .ok d) (trailing : List UInt8) :
    Wholesome (blobOf d (lzpSection d) ++ trailing) := by
  obtain ⟨hstands, -⟩ := dictTrain_stands h trailing
  have hsound := dictTrain_sound h
  have hst := dictTrain_stored h
  obtain ⟨hv, -, -, hf⟩ := hstands.bytes
  obtain ⟨-, hversion, -, hflags, -⟩ := dictTrain_fields h
  have h5 : (5 : UInt8) ≤ d.version := by
    rw [hversion]
    decide
  -- a frequency in the blob is the one of the table, and none of these is zero
  have hfreq : ∀ {off : ℕ} {t : Table}, FullTable t → FreqStands (blobOf d (lzpSection d) ++ trailing) off t.freq →
      ∀ s < 256, u16At (blobOf d (lzpSection d) ++ trailing) (off + 2 * s) ≠ 0 := by
    intro off t ht hs s hlt
    obtain ⟨freq, hbuild, hpos⟩ := ht
    have hfreq : t.freq = freq := tansBuildWith_freq hbuild
    have hwidth := freq_lt_of_build hbuild hlt
    rw [hfreq] at hs hwidth
    rw [u16At_of_at (hs s hlt) hwidth]
    exact (hpos s hlt).ne'
  refine ⟨by rw [hv]; exact h5, by rw [hf, hflags]; decide, fun p => ?_, fun k hk => ?_, fun k hk c hc => ?_⟩
  · have hp := hstands.classMap h5 p.toNat p.toNat_lt
    rw [UInt8.ofNat_toNat] at hp
    rw [dictHeaderSize, byteAt_of_getElem? hp]
    exact hsound.class_lt p
  · rw [hv]
    exact hfreq (hsound.table k hk) (hstands.table k hk)
  · rw [hv]
    exact hfreq (hsound.bigram k hk c hc) (hstands.bigram k hk c (by rwa [nClasses_five h5]))

end Trained

/-- **A loaded dictionary serves.** For every blob that `netc_dict_load` accepts, of whatever origin: if it
is of version 5, has an LZP table, a class below eight for every byte and no frequency of zero, then with the
dictionary loaded from it any input is decoded in bounds after any calls, and connections deliver. -/
theorem loaded_serves {b : List UInt8} {d : Dict} (h : dictLoad b = .ok d) (hw : Wholesome b) : Serves d := by
  obtain ⟨hacc, rfl⟩ := dictLoad_eq_ok.mp h
  exact (hacc.sound_iff.mpr hw).serves

/-- The blob of the dictionary trained on one byte. -/
theorem loaded_serves_small : ∃ b d, dictLoad b = .ok d ∧ Wholesome b ∧ Serves d := by
  obtain ⟨d, hd⟩ := @dictTrain_ok [[0]] 1 (by decide)
  have hload := dictLoad_eq_ok.mpr ⟨(dictTrain_stands hd []).2, rfl⟩
  exact ⟨_, _, hload, dictTrain_wholesome hd [], loaded_serves hload (dictTrain_wholesome hd [])⟩

/-- **What was trained and saved serves its receivers.** For every corpus and every model id from 1 to 254,
the dictionary can be trained and saved, and whoever loads the blob, whatever stands behind it, gets a
dictionary of that id with which any input is decoded in bounds after any calls and connections deliver. -/
theorem shipped_serves (packets : List (List UInt8)) (modelId : UInt8) (hid : 1 ≤ modelId ∧ modelId ≤ 254) :
    ∃ d blob, dictTrain packets modelId = .ok d ∧ dictSave d = .ok blob ∧
      ∀ trailing, ∃ d', dictLoad (blob ++ trailing) = .ok d' ∧ d'.modelId = modelId ∧ Serves d' := by
  have hid' : ¬(modelId = 0 ∨ modelId = 255) := by
    rintro (rfl | rfl)
    · exact absurd hid.1 (by decide)
    · exact absurd hid.2 (by decide)
  obtain ⟨d, hd⟩ := dictTrain_ok packets hid'
  refine ⟨d, _, hd, (dictTrain_stored hd).save, fun trailing => ?_⟩
  obtain ⟨hstands, hacc⟩ := dictTrain_stands hd trailing
  refine ⟨_, dictLoad_eq_ok.mpr ⟨hacc, rfl⟩, ?_, (hacc.sound_iff.mpr (dictTrain_wholesome hd trailing)).serves⟩
  exact (hstands.same (dictTrain_stored hd)).modelId.trans (dictTrain_modelId hd)

/-- A corpus of two packets. -/
theorem shipped_serves_small : ∃ d blob, dictTrain [[1, 2, 3, 1], [1, 2, 9]] 7 = .ok d ∧ dictSave d = .ok blob ∧
    ∀ trailing, ∃ d', dictLoad (blob ++ trailing) = .ok d' ∧ d'.modelId = 7 ∧ Serves d' :=
  shipped_serves [[1, 2, 3, 1], [1, 2, 9]] 7 (by decide)

end Netc
