/-
# Dictionary blobs

`netc_dict_save` and `netc_dict_load` of `netc_dict.c`. A blob is the header,
the class map (version 5), the frequencies of the unigram and of the bigram
tables, the LZP table if the flag says so, and a CRC32 of all that. Versions 3
and 4 have four classes and no class map; loading fills in the classes of the
top two bits.

Loading a trained dictionary's blob gives it back (`dictLoad_dictSave`).
Saving a loaded dictionary gives its blob back exactly when the LZP section
has its full size (`dictSave_dictLoad_iff`): loading takes less.

Key definitions: `dictSave`, `dictLoad`, `Dict.Same`.
Key theorems: `dictLoad_eq_ok`, `dictLoad_dictSave`, `dictSave_dictLoad_iff`.
-/
import Netc.Lib.Layout
import Netc.Dict

namespace Netc

open Layout

/-! ### Sizes -/

/-- `NETC_BIGRAM_CTX_COUNT_V4` -/
def bigramCtxCountV4 : ℕ := 4

/-- `DICT_HEADER_SIZE` -/
def dictHeaderSize : ℕ := 8

/-- `DICT_FREQ_BYTES` -/
def dictFreqBytes : ℕ := ctxCount * 256 * 2

/-- `DICT_LZP_SECTION_SIZE` -/
def dictLzpSectionSize : ℕ := 4 + lzpHtSize * 2

/-- `DICT_V5_CLASSMAP_SIZE` -/
def dictV5ClassmapSize : ℕ := 256

/-- `DICT_V4_BASE_SIZE` -/
def dictV4BaseSize : ℕ := dictHeaderSize + dictFreqBytes + ctxCount * bigramCtxCountV4 * 256 * 2

/-- `DICT_V3_BLOB_SIZE` -/
def dictV3BlobSize : ℕ := dictV4BaseSize + 4

/-- `DICT_V5_BASE_SIZE` -/
def dictV5BaseSize : ℕ :=
  dictHeaderSize + dictV5ClassmapSize + dictFreqBytes + ctxCount * bigramCtxCount * 256 * 2

/-- `dict_flags & NETC_DICT_FLAG_LZP` -/
def hasLzp (dictFlags : UInt8) : Bool := dictFlags &&& dictFlagLzp != 0

/-- `dict_blob_size_v` -/
def dictBlobSizeV (version dictFlags : UInt8) : ℕ :=
  (if 5 ≤ version then dictV5BaseSize else dictV4BaseSize)
    + (if hasLzp dictFlags then dictLzpSectionSize else 0) + 4

/-- `dict_blob_checksum` -/
def dictBlobChecksum (blob : List UInt8) (blobSize : ℕ) : UInt32 := crc32 (blob.take (blobSize - 4))

/-- `n_classes` -/
def nClasses (version : UInt8) : ℕ := if 5 ≤ version then bigramCtxCount else bigramCtxCountV4

/-! ### Saving -/

/-- A frequency table, two bytes each. -/
def freqBytes (freq : Freq) : List UInt8 := (List.range 256).flatMap fun s => writeU16Le (freq s)

/-- The entries of an LZP table. -/
def lzpBytes (lzp : LzpTable) : List UInt8 :=
  (List.range lzpHtSize).flatMap fun h => [(lzp h).value, (lzp h).valid]

/-- The blob of `netc_dict_save`, with the LZP section `lzp`. -/
def blobOf (d : Dict) (lzp : List UInt8) : List UInt8 :=
  writeU32Le d.magic ++ [d.version, d.modelId, d.ctxCount, d.dictFlags]
    ++ (if 5 ≤ d.version then (List.range 256).map (fun p => d.bigramClassMap (UInt8.ofNat p)) else [])
    ++ (List.range ctxCount).flatMap (fun b => freqBytes (d.tables b).freq)
    ++ (List.range ctxCount).flatMap (fun b => (List.range (nClasses d.version)).flatMap fun c =>
      freqBytes (d.bigramTables b c).freq)
    ++ lzp ++ writeU32Le d.checksum.toNat

/-- `netc_dict_save`: the flag without a table is a load through `NULL`. -/
def dictSave (d : Dict) : Chk (List UInt8) :=
  if hasLzp d.dictFlags then
    match d.lzpTable with
    | none => .error .load
    | some lzp => .ok (blobOf d (writeU32Le lzpHtSize ++ lzpBytes lzp))
  else .ok (blobOf d [])

/-! ### Loading

Every read is below `expected_sz`, which is compared with the size of the blob first. -/

/-- `b[off]` -/
def byteAt (b : List UInt8) (off : ℕ) : UInt8 := b.getD off 0

/-- `netc_read_u16_le(b + off)` -/
def u16At (b : List UInt8) (off : ℕ) : ℕ := Digits.leNat ((b.drop off).take 2)

/-- `netc_read_u32_le(b + off)` -/
def u32At (b : List UInt8) (off : ℕ) : ℕ := Digits.leNat ((b.drop off).take 4)

/-- The frequency table that starts at `off`. -/
def freqAt (b : List UInt8) (off : ℕ) : Freq := fun s => if s < 256 then u16At b (off + 2 * s) else 0

/-- The offset behind the header and the class map. -/
def tablesOff (version : UInt8) : ℕ :=
  if 5 ≤ version then dictHeaderSize + dictV5ClassmapSize else dictHeaderSize

/-- The offset of the unigram table of a bucket. -/
def tableOff (version : UInt8) (bucket : ℕ) : ℕ := tablesOff version + 512 * bucket

/-- The offset of the bigram table of a bucket and a class. -/
def bigramOff (version : UInt8) (bucket c : ℕ) : ℕ :=
  tablesOff version + dictFreqBytes + 512 * nClasses version * bucket + 512 * c

/-- The offset of the LZP section. -/
def lzpOff (version : UInt8) : ℕ := tablesOff version + dictFreqBytes + 512 * nClasses version * ctxCount

/-- The class map of a blob. -/
def classMapAt (b : List UInt8) (version : UInt8) : UInt8 → UInt8 := fun p =>
  if 5 ≤ version then byteAt b (dictHeaderSize + p.toNat) else p >>> 6

/-- The LZP table of a blob, `lzp_ht_size` entries and zeros behind them. -/
def lzpAt (b : List UInt8) (version : UInt8) : LzpTable := fun h =>
  if h < u32At b (lzpOff version) then
    ⟨byteAt b (lzpOff version + 4 + 2 * h), byteAt b (lzpOff version + 4 + 2 * h + 1)⟩
  else ⟨0, 0⟩

/-- Whether all tables of a blob are accepted by `netc_tans_build`. -/
def tablesBuild (b : List UInt8) (version : UInt8) : Bool :=
  (List.range ctxCount).all (fun k => (tansBuild (freqAt b (tableOff version k))).isSome) &&
    (List.range ctxCount).all fun k => (List.range (nClasses version)).all fun c =>
      (tansBuild (freqAt b (bigramOff version k c))).isSome

/-- The dictionary of a blob that is accepted. -/
def loadedDict (b : List UInt8) : Dict :=
  let version := byteAt b 4
  let dflags := byteAt b 7
  { magic := u32At b 0
    version
    modelId := byteAt b 5
    ctxCount := byteAt b 6
    dictFlags := dflags
    tables := tableArray ctxCount fun k => (tansBuild (freqAt b (tableOff version k))).getD .zero
    bigramTables := fun k => tableArray (nClasses version) fun c =>
      (tansBuild (freqAt b (bigramOff version k c))).getD .zero
    bigramClassMap := classMapAt b version
    bigramClassCount := UInt8.ofNat (nClasses version)
    lzpTable := if hasLzp dflags then some (lzpAt b version) else none
    checksum := UInt32.ofNat (u32At b (dictBlobSizeV version dflags - 4)) }

/-- `netc_dict_load` -/
def dictLoad (b : List UInt8) : Except Result Dict :=
  let version := byteAt b 4
  let dflags := byteAt b 7
  let expectedSz := dictBlobSizeV version dflags
  if b.length < dictV3BlobSize then .error .errDictInvalid
  else if u32At b 0 ≠ dictMagic then .error .errDictInvalid
  else if version < 3 ∨ dictVersion < version then .error .errVersion
  else if byteAt b 6 ≠ 16 then .error .errVersion
  else if b.length < expectedSz then .error .errDictInvalid
  else if UInt32.ofNat (u32At b (expectedSz - 4)) ≠ dictBlobChecksum b expectedSz then .error .errDictInvalid
  else if !tablesBuild b version then .error .errDictInvalid
  else if hasLzp dflags && decide (lzpHtSize < u32At b (lzpOff version)) then .error .errDictInvalid
  else .ok (loadedDict b)


/-! ### Tables depend on the frequencies of the 256 symbols -/

/-- Two tables with the same contents. -/
structure Table.Same (t t' : Table) : Prop where
  decode : t.decode = t'.decode
  encodeState : t.encodeState = t'.encodeState
  encode : t.encode = t'.encode
  freq : ∀ s < 256, t.freq s = t'.freq s
  valid : t.valid = t'.valid

theorem spreadOrder_congr {f g : Freq} (h : ∀ s < 256, f s = g s) : spreadOrder f = spreadOrder g := by
  unfold spreadOrder
  refine List.flatMap_congr fun s hs => ?_
  rw [h s (List.mem_range.mp hs)]

theorem mem_spreadOrder_lt {f : Freq} {o : ℕ × ℕ} (h : o ∈ spreadOrder f) : o.1 < 256 := by
  obtain ⟨s, hs, ho⟩ := List.mem_flatMap.mp h
  obtain ⟨k, -, rfl⟩ := List.mem_map.mp ho
  exact List.mem_range.mp hs

/-- **A table is a function of the frequencies of the symbols**, and whether it can be built too. -/
theorem tansBuild_same {f g : Freq} {t : Table} (h : ∀ s < 256, g s = f s) (ht : tansBuild f = some t) :
    ∃ t', tansBuild g = some t' ∧ t'.Same t := by
  obtain ⟨hsum, rfl⟩ := tansBuildWith_eq_some ht
  have hcumul : ∀ n ≤ 256, cumul g n = cumul f n := fun n hn => cumul_congr fun s hs => h s (by omega)
  have hbuild : tansBuild g =
      some ⟨buildDecode tans12 g, buildEncodeState tans12 g, buildEncode tans12 g, g, true⟩ := by
    rw [tansBuild, tansBuildWith, hcumul 256 le_rfl, if_neg (not_not.mpr hsum)]
  refine ⟨_, hbuild, ?_, ?_, ?_, h, rfl⟩
  · dsimp only
    rw [buildDecode, buildDecode, spreadOrder_congr h]
    refine congrArg Prod.snd (Scatter.run_congr (fun _ _ _ => rfl) fun o ho _ => ?_)
    rw [decodeEntryOf, decodeEntryOf, h o.1 (mem_spreadOrder_lt ho)]
  · dsimp only
    rw [buildEncodeState, buildEncodeState, spreadOrder_congr h]
    refine congrArg Prod.snd (Scatter.run_congr (fun o ho _ => ?_) fun _ _ _ => rfl)
    rw [hcumul o.1 (mem_spreadOrder_lt ho).le]
  · funext s
    dsimp only
    unfold buildEncode
    by_cases hs : 256 ≤ s
    · rw [if_pos (.inl hs), if_pos (.inl hs)]
    · rw [h s (by omega), hcumul s (by omega)]

/-- The frequencies of a built table have sixteen bits. -/
theorem freq_lt_of_build {f : Freq} {t : Table} (ht : tansBuild f = some t) {s : ℕ} (hs : s < 256) :
    t.freq s < 2 ^ 16 := by
  obtain ⟨hsum, rfl⟩ := tansBuildWith_eq_some ht
  have hle : cumul f (s + 1) ≤ cumul f 256 := cumul_mono f (by omega)
  rw [cumul_succ, hsum, size_tans12] at hle
  dsimp only
  omega

/-! ### Where the parts of a blob stand -/

@[simp] theorem length_freqBytes (freq : Freq) : (freqBytes freq).length = 512 :=
  length_flatMap_range (fun _ => length_writeU16Le _) 256

@[simp] theorem length_lzpBytes (lzp : LzpTable) : (lzpBytes lzp).length = 2 * lzpHtSize := by
  rw [lzpBytes, length_flatMap_range (w := 2) fun _ => rfl]

/-- The frequencies of a table stand at `off`. -/
def FreqStands (b : List UInt8) (off : ℕ) (freq : Freq) : Prop :=
  ∀ s < 256, At b (off + 2 * s) (writeU16Le (freq s))

theorem at_freqBytes {b : List UInt8} {off : ℕ} {freq : Freq} :
    At b off (freqBytes freq) ↔ FreqStands b off freq :=
  at_flatMap_range (fun _ => length_writeU16Le _) 256

/-- The parts of the blob of `d` stand at the offsets `netc_dict_load` reads them from. -/
structure BlobStands (b : List UInt8) (d : Dict) (lzpSection : List UInt8) : Prop where
  magic : At b 0 (writeU32Le d.magic)
  header : At b 4 [d.version, d.modelId, d.ctxCount, d.dictFlags]
  classMap : 5 ≤ d.version → ∀ p < 256, b[8 + p]? = some (d.bigramClassMap (UInt8.ofNat p))
  table : ∀ k < ctxCount, FreqStands b (tableOff d.version k) (d.tables k).freq
  bigram : ∀ k < ctxCount, ∀ c < nClasses d.version,
    FreqStands b (bigramOff d.version k c) (d.bigramTables k c).freq
  lzp : At b (lzpOff d.version) lzpSection
  checksum : At b (lzpOff d.version + lzpSection.length) (writeU32Le d.checksum.toNat)

/-- The class map part of a blob, as long as the offsets say. -/
theorem length_classMapBytes (d : Dict) :
    8 + (if 5 ≤ d.version then (List.range 256).map (fun p => d.bigramClassMap (UInt8.ofNat p)) else []).length
      = tablesOff d.version := by
  rw [tablesOff]
  split
  · simp [dictHeaderSize, dictV5ClassmapSize]
  · simp [dictHeaderSize]

theorem at_classMapBytes {b : List UInt8} {d : Dict} :
    At b 8 (if 5 ≤ d.version then (List.range 256).map (fun p => d.bigramClassMap (UInt8.ofNat p)) else []) ↔
      (5 ≤ d.version → ∀ p < 256, b[8 + p]? = some (d.bigramClassMap (UInt8.ofNat p))) := by
  split
  · next h =>
    rw [List.map_eq_flatMap, at_flatMap_range (fun _ => List.length_singleton) 256]
    simp only [at_cons, at_nil, and_true, one_mul, h, forall_const]
  · next h => simp [h]

theorem length_freqTables (f : ℕ → Freq) (n : ℕ) :
    ((List.range n).flatMap fun c => freqBytes (f c)).length = 512 * n :=
  length_flatMap_range (fun _ => length_freqBytes _) n

theorem length_bigramTables (f : ℕ → ℕ → Freq) (n : ℕ) : ((List.range ctxCount).flatMap fun k =>
    (List.range n).flatMap fun c => freqBytes (f k c)).length = 512 * n * ctxCount :=
  length_flatMap_range (fun _ => length_freqTables _ _) ctxCount

theorem dictFreqBytes_eq : dictFreqBytes = 512 * ctxCount := by decide

/-- A blob stands at the front of a string exactly when its parts stand at their offsets. -/
theorem at_blobOf {b : List UInt8} {d : Dict} {lzp : List UInt8} :
    At b 0 (blobOf d lzp) ↔ BlobStands b d lzp := by
  unfold blobOf
  simp only [at_append, List.length_append, length_writeU32Le, List.length_cons, List.length_nil,
    length_freqTables _ ctxCount, ← dictFreqBytes_eq, length_bigramTables,
    at_flatMap_range (fun k => length_freqBytes _),
    at_flatMap_range (fun k => length_freqTables _ (nClasses d.version)),
    at_freqBytes, Nat.zero_add, Nat.reduceAdd, length_classMapBytes, at_classMapBytes]
  constructor
  · rintro ⟨⟨⟨⟨⟨⟨hm, hh⟩, hc⟩, ht⟩, hb⟩, hl⟩, hs⟩
    exact ⟨hm, hh, hc, ht, hb, hl, hs⟩
  · rintro ⟨hm, hh, hc, ht, hb, hl, hs⟩
    exact ⟨⟨⟨⟨⟨⟨hm, hh⟩, hc⟩, ht⟩, hb⟩, hl⟩, hs⟩

theorem length_blobOf (d : Dict) (lzp : List UInt8) :
    (blobOf d lzp).length = lzpOff d.version + lzp.length + 4 := by
  unfold blobOf
  simp only [List.length_append, length_writeU32Le, List.length_cons, List.length_nil, length_bigramTables,
    length_freqTables _ ctxCount, ← dictFreqBytes_eq, Nat.zero_add, Nat.reduceAdd, length_classMapBytes]
  rw [lzpOff]

/-! ### What loading accepts -/

section Load

variable {b : List UInt8} {d : Dict}

/-- What `netc_dict_load` asks of a blob. -/
structure Acceptable (b : List UInt8) : Prop where
  magic : u32At b 0 = dictMagic
  version : 3 ≤ byteAt b 4 ∧ byteAt b 4 ≤ dictVersion
  ctxCount : byteAt b 6 = 16
  size : dictBlobSizeV (byteAt b 4) (byteAt b 7) ≤ b.length
  checksum : UInt32.ofNat (u32At b (dictBlobSizeV (byteAt b 4) (byteAt b 7) - 4))
    = dictBlobChecksum b (dictBlobSizeV (byteAt b 4) (byteAt b 7))
  table : ∀ k < Netc.ctxCount, (tansBuild (freqAt b (tableOff (byteAt b 4) k))).isSome
  bigram : ∀ k < Netc.ctxCount, ∀ c < nClasses (byteAt b 4),
    (tansBuild (freqAt b (bigramOff (byteAt b 4) k c))).isSome
  lzpSize : hasLzp (byteAt b 7) = true → u32At b (lzpOff (byteAt b 4)) ≤ lzpHtSize

theorem dictV3BlobSize_le (version dictFlags : UInt8) : dictV3BlobSize ≤ dictBlobSizeV version dictFlags := by
  have hbase : dictV4BaseSize ≤ dictV5BaseSize := by decide
  rw [dictV3BlobSize, dictBlobSizeV]
  split <;> omega

theorem tablesBuild_iff {version : UInt8} : tablesBuild b version = true ↔
    (∀ k < ctxCount, (tansBuild (freqAt b (tableOff version k))).isSome) ∧
      ∀ k < ctxCount, ∀ c < nClasses version, (tansBuild (freqAt b (bigramOff version k c))).isSome := by
  simp only [tablesBuild, Bool.and_eq_true, List.all_eq_true, List.mem_range]

/-- **What loading returns**: the dictionary of the blob, for the acceptable ones. -/
theorem dictLoad_eq_ok : dictLoad b = .ok d ↔ Acceptable b ∧ loadedDict b = d := by
  have hmin := dictV3BlobSize_le (byteAt b 4) (byteAt b 7)
  unfold dictLoad
  constructor
  · intro h
    simp only at h
    split_ifs at h with h1 h2 h3 h4 h5 h6 h7 h8
    obtain ⟨ht, hb⟩ := tablesBuild_iff.mp (by simpa using h7)
    rw [not_or, UInt8.not_lt, UInt8.not_lt] at h3
    refine ⟨⟨not_not.mp h2, h3, not_not.mp h4, Nat.le_of_not_lt h5, not_not.mp h6, ht, hb, fun hl => ?_⟩,
      Except.ok.inj h⟩
    simpa [hl] using h8
  · rintro ⟨h, rfl⟩
    have hl : (hasLzp (byteAt b 7) && decide (lzpHtSize < u32At b (lzpOff (byteAt b 4)))) = false := by
      rcases hlz : hasLzp (byteAt b 7)
      · rfl
      · simpa using h.lzpSize hlz
    have hv : ¬(byteAt b 4 < 3 ∨ dictVersion < byteAt b 4) := by
      rw [not_or, UInt8.not_lt, UInt8.not_lt]
      exact h.version
    simp only [if_neg (show ¬b.length < dictV3BlobSize from Nat.not_lt.mpr (hmin.trans h.size)), h.magic,
      ne_eq, not_true_eq_false, if_false, if_neg hv, h.ctxCount, if_neg (Nat.not_lt.mpr h.size), h.checksum,
      tablesBuild_iff.mpr ⟨h.table, h.bigram⟩, Bool.not_true, Bool.false_eq_true, hl]

/-! ### Offsets -/

/-- The blob ends behind its LZP section and the checksum. -/
theorem dictBlobSizeV_eq (version dictFlags : UInt8) : dictBlobSizeV version dictFlags
    = lzpOff version + (if hasLzp dictFlags then dictLzpSectionSize else 0) + 4 := by
  have hbase : (if 5 ≤ version then dictV5BaseSize else dictV4BaseSize) = lzpOff version := by
    unfold lzpOff tablesOff nClasses
    split
    · decide
    · decide
  rw [dictBlobSizeV, hbase]

theorem tableOff_lt {version : UInt8} {k : ℕ} (hk : k < ctxCount) : tableOff version k + 512 ≤ lzpOff version := by
  have hmul : 512 * (k + 1) ≤ 512 * ctxCount := Nat.mul_le_mul_left _ hk
  rw [tableOff, lzpOff, dictFreqBytes_eq]
  omega

theorem bigramOff_lt {version : UInt8} {k c : ℕ} (hk : k < ctxCount) (hc : c < nClasses version) :
    bigramOff version k c + 512 ≤ lzpOff version := by
  have hmul : nClasses version * (k + 1) ≤ nClasses version * ctxCount := Nat.mul_le_mul_left _ hk
  have hle : c + 1 + nClasses version * k ≤ nClasses version * ctxCount := by
    rw [Nat.mul_succ] at hmul
    omega
  simp only [bigramOff, lzpOff, Nat.mul_assoc]
  omega

theorem Acceptable.lzpOff_le (h : Acceptable b) : lzpOff (byteAt b 4) + 4 ≤ b.length := by
  have := h.size
  rw [dictBlobSizeV_eq] at this
  omega

theorem getElem?_byteAt {i : ℕ} (h : i < b.length) : b[i]? = some (byteAt b i) := by
  simp [byteAt, h]

theorem byteAt_of_getElem? {i : ℕ} {x : UInt8} (h : b[i]? = some x) : byteAt b i = x := by
  simp [byteAt, h]

theorem at_u16At {off : ℕ} (h : off + 2 ≤ b.length) : At b off (writeU16Le (u16At b off)) := by
  unfold writeU16Le u16At
  exact at_leNat h

theorem at_u32At {off : ℕ} (h : off + 4 ≤ b.length) : At b off (writeU32Le (u32At b off)) := by
  unfold writeU32Le u32At
  exact at_leNat h

theorem u16At_of_at {off v : ℕ} (h : At b off (writeU16Le v)) (hv : v < 2 ^ 16) : u16At b off = v := by
  rw [u16At, at_leBytes h]
  exact Nat.mod_eq_of_lt hv

theorem u32At_of_at {off v : ℕ} (h : At b off (writeU32Le v)) (hv : v < 2 ^ 32) : u32At b off = v := by
  rw [u32At, at_leBytes h]
  exact Nat.mod_eq_of_lt hv

theorem u32At_lt (b : List UInt8) (off : ℕ) : u32At b off < 2 ^ 32 := by
  have hlen : ((b.drop off).take 4).length ≤ 4 := List.length_take_le ..
  calc u32At b off < 256 ^ ((b.drop off).take 4).length := Digits.leNat_lt _
    _ ≤ 256 ^ 4 := Nat.pow_le_pow_right (by norm_num) hlen
    _ = 2 ^ 32 := by norm_num

end Load

/-! ### Loading what stands in a blob -/

/-- A table `netc_tans_build` made. -/
def Built (t : Table) : Prop := ∃ freq : Freq, tansBuild freq = some t

/-- The dictionaries that training and loading return. -/
structure Dict.Stored (d : Dict) : Prop where
  magic : d.magic = dictMagic
  version : 3 ≤ d.version ∧ d.version ≤ dictVersion
  ctxCount : d.ctxCount = 16
  table : ∀ k < Netc.ctxCount, Built (d.tables k)
  bigram : ∀ k < Netc.ctxCount, ∀ c < nClasses d.version, Built (d.bigramTables k c)
  unused : ∀ k < Netc.ctxCount, ∀ c, nClasses d.version ≤ c → d.bigramTables k c = .zero
  classMap : ¬5 ≤ d.version → ∀ p, d.bigramClassMap p = p >>> 6
  classCount : d.bigramClassCount = UInt8.ofNat (nClasses d.version)
  lzp : d.lzpTable.isSome = hasLzp d.dictFlags

/-- Two dictionaries that hold the same in every field and every array element. -/
structure Dict.Same (d d' : Dict) : Prop where
  magic : d.magic = d'.magic
  version : d.version = d'.version
  modelId : d.modelId = d'.modelId
  ctxCount : d.ctxCount = d'.ctxCount
  dictFlags : d.dictFlags = d'.dictFlags
  tables : ∀ k < Netc.ctxCount, (d.tables k).Same (d'.tables k)
  bigramTables : ∀ k < Netc.ctxCount, ∀ c < bigramCtxCount, (d.bigramTables k c).Same (d'.bigramTables k c)
  bigramClassMap : d.bigramClassMap = d'.bigramClassMap
  bigramClassCount : d.bigramClassCount = d'.bigramClassCount
  lzpNone : d.lzpTable = none ↔ d'.lzpTable = none
  lzpTable : ∀ lzp lzp', d.lzpTable = some lzp → d'.lzpTable = some lzp' → ∀ h < lzpHtSize, lzp h = lzp' h
  checksum : d.checksum = d'.checksum

/-- The LZP section `netc_dict_save` writes. -/
def lzpSection (d : Dict) : List UInt8 :=
  match d.lzpTable with
  | none => []
  | some lzp => writeU32Le lzpHtSize ++ lzpBytes lzp

section Stands

variable {b : List UInt8} {d : Dict}

theorem Dict.Stored.save (h : d.Stored) : dictSave d = .ok (blobOf d (lzpSection d)) := by
  unfold dictSave lzpSection
  rw [← h.lzp]
  rcases d.lzpTable with _ | lzp
  · rfl
  · rfl

theorem Dict.Stored.length_lzpSection (h : d.Stored) :
    (lzpSection d).length = if hasLzp d.dictFlags then dictLzpSectionSize else 0 := by
  rw [← h.lzp, lzpSection]
  rcases d.lzpTable with _ | lzp
  · rfl
  · simp [dictLzpSectionSize, Nat.mul_comm]

/-- A saved blob has the size of its version and flags. -/
theorem Dict.Stored.length_blobOf (h : d.Stored) :
    (blobOf d (lzpSection d)).length = dictBlobSizeV d.version d.dictFlags := by
  rw [Netc.length_blobOf, h.length_lzpSection, dictBlobSizeV_eq]

/-- The frequencies that stand in the blob make the same table again. -/
theorem FreqStands.build {off : ℕ} {t : Table} (hs : FreqStands b off t.freq) (ht : Built t) :
    ∃ t', tansBuild (freqAt b off) = some t' ∧ t'.Same t := by
  obtain ⟨f, hf⟩ := ht
  have hfreq := tansBuildWith_freq hf
  refine tansBuild_same (fun s hlt => ?_) hf
  rw [freqAt, if_pos hlt, u16At_of_at (hs s hlt) (freq_lt_of_build hf hlt), hfreq]

theorem table_same_refl (t : Table) : t.Same t := ⟨rfl, rfl, rfl, fun _ _ => rfl, rfl⟩

/-- The header bytes of a blob. -/
theorem BlobStands.bytes {lzp : List UInt8} (h : BlobStands b d lzp) : byteAt b 4 = d.version ∧
    byteAt b 5 = d.modelId ∧ byteAt b 6 = d.ctxCount ∧ byteAt b 7 = d.dictFlags := by
  have hh := h.header
  simp only [at_cons] at hh
  exact ⟨byteAt_of_getElem? hh.1, byteAt_of_getElem? hh.2.1, byteAt_of_getElem? hh.2.2.1,
    byteAt_of_getElem? hh.2.2.2.1⟩

/-- The LZP section read back. -/
theorem BlobStands.lzpAt_eq {lzp : LzpTable} (h : BlobStands b d (lzpSection d)) (hl : d.lzpTable = some lzp) :
    u32At b (lzpOff d.version) = lzpHtSize ∧ ∀ i < lzpHtSize, lzpAt b d.version i = lzp i := by
  have hat := h.lzp
  rw [lzpSection, hl] at hat
  obtain ⟨hat, hes⟩ := at_append.mp hat
  have hn := u32At_of_at hat (by decide)
  refine ⟨hn, fun i hi => ?_⟩
  rw [lzpBytes, at_flatMap_range (w := 2) fun _ => rfl] at hes
  have he := hes i hi
  simp only [at_cons, length_writeU32Le] at he
  rw [lzpAt, hn, if_pos hi, byteAt_of_getElem? he.1, byteAt_of_getElem? he.2.1]

/-- The checksum is the last part. -/
theorem BlobStands.checksum_eq {lzp : List UInt8} (h : BlobStands b d lzp)
    (hlen : lzp.length = if hasLzp d.dictFlags then dictLzpSectionSize else 0) :
    u32At b (dictBlobSizeV d.version d.dictFlags - 4) = d.checksum.toNat ∧
      dictBlobSizeV d.version d.dictFlags ≤ b.length := by
  have hsize := dictBlobSizeV_eq d.version d.dictFlags
  rw [← hlen] at hsize
  constructor
  · rw [hsize, Nat.add_sub_cancel]
    exact u32At_of_at h.checksum (UInt32.toNat_lt _)
  · have hend := h.checksum.length_le
    rw [length_writeU32Le, List.length_drop] at hend
    omega

theorem BlobStands.magic_eq {lzp : List UInt8} (h : BlobStands b d lzp) (hd : d.Stored) : u32At b 0 = d.magic :=
  u32At_of_at h.magic (by rw [hd.magic]; decide)

/-- A blob whose checksum is right is accepted, if its LZP section counts no more entries than there are. -/
theorem BlobStands.acceptable {lzp : List UInt8} (h : BlobStands b d lzp) (hd : d.Stored)
    (hlen : lzp.length = if hasLzp d.dictFlags then dictLzpSectionSize else 0)
    (hsum : d.checksum = dictBlobChecksum b (dictBlobSizeV d.version d.dictFlags))
    (hcount : hasLzp d.dictFlags = true → u32At b (lzpOff d.version) ≤ lzpHtSize) : Acceptable b := by
  obtain ⟨hv, -, hc, hf⟩ := h.bytes
  obtain ⟨hlast, hsize⟩ := h.checksum_eq hlen
  refine ⟨(h.magic_eq hd).trans hd.magic, ?_, hc.trans hd.ctxCount, ?_, ?_, ?_, ?_, ?_⟩
  · rw [hv]
    exact hd.version
  · rw [hv, hf]
    exact hsize
  · rw [hv, hf, hlast, UInt32.ofNat_toNat]
    exact hsum
  · intro k hk
    obtain ⟨t', ht', -⟩ := (h.table k hk).build (hd.table k hk)
    rw [hv, ht']
    rfl
  · intro k hk c hcl
    rw [hv] at hcl
    obtain ⟨t', ht', -⟩ := (h.bigram k hk c hcl).build (hd.bigram k hk c hcl)
    rw [hv, ht']
    rfl
  · intro hl
    rw [hf] at hl
    rw [hv]
    exact hcount hl

theorem BlobStands.same (h : BlobStands b d (lzpSection d)) (hd : d.Stored) : (loadedDict b).Same d := by
  obtain ⟨hv, hid, hc, hf⟩ := h.bytes
  refine ⟨h.magic_eq hd, hv, hid, hc, hf, ?_, ?_, ?_, ?_, ?_, ?_, ?_⟩
  · intro k hk
    obtain ⟨t', ht', hsame⟩ := (h.table k hk).build (hd.table k hk)
    simp only [loadedDict, hv, tableArray, if_pos hk, ht', Option.getD_some]
    exact hsame
  · intro k hk c _
    simp only [loadedDict, hv, tableArray]
    by_cases hcl : c < nClasses d.version
    · obtain ⟨t', ht', hsame⟩ := (h.bigram k hk c hcl).build (hd.bigram k hk c hcl)
      simp only [if_pos hcl, ht', Option.getD_some]
      exact hsame
    · rw [if_neg hcl, hd.unused k hk c (by omega)]
      exact table_same_refl _
  · funext p
    simp only [loadedDict, hv, classMapAt]
    split
    · next h5 =>
      have hp := h.classMap h5 p.toNat p.toNat_lt
      rw [UInt8.ofNat_toNat] at hp
      exact byteAt_of_getElem? hp
    · next h5 => rw [hd.classMap h5]
  · simp only [loadedDict, hv, hd.classCount]
  · simp only [loadedDict, hf, ← hd.lzp]
    rcases d.lzpTable with _ | lzp
    · simp
    · simp
  · intro lzp lzp' hl hl' i hi
    simp only [loadedDict, hv] at hl
    split at hl
    · obtain rfl := Option.some.inj hl
      exact (h.lzpAt_eq hl').2 i hi
    · cases hl
  · simp only [loadedDict, hv, hf, (h.checksum_eq hd.length_lzpSection).1, UInt32.ofNat_toNat]

/-- **A blob at the front of a string is accepted** and gives the dictionary back, if its checksum is right. -/
theorem BlobStands.load (h : BlobStands b d (lzpSection d)) (hd : d.Stored)
    (hsum : d.checksum = dictBlobChecksum b (dictBlobSizeV d.version d.dictFlags)) :
    ∃ d', dictLoad b = .ok d' ∧ d'.Same d := by
  refine ⟨loadedDict b, dictLoad_eq_ok.mpr ⟨h.acceptable hd hd.length_lzpSection hsum fun hl => ?_, rfl⟩, h.same hd⟩
  rw [← hd.lzp] at hl
  obtain ⟨lzp, hl⟩ := Option.isSome_iff_exists.mp hl
  exact (h.lzpAt_eq hl).1.le

end Stands

/-! ### Loading undoes saving -/

section Train

variable {packets : List (List UInt8)} {modelId : UInt8} {d : Dict}

theorem FullTable.built {t : Table} (h : FullTable t) : Built t := by
  obtain ⟨f, hf, -⟩ := h
  exact ⟨f, hf⟩

theorem dictBody_checksum (d : Dict) (c : UInt32) : dictBody { d with checksum := c } = dictBody d := by
  simp only [dictBody]

/-- The fixed fields of a trained dictionary, and its checksum. -/
theorem dictTrain_fields (h : dictTrain packets modelId = .ok d) : d.magic = dictMagic ∧ d.version = dictVersion ∧
    d.ctxCount = 16 ∧ d.dictFlags = dictFlagLzp ∧ d.bigramClassCount = 8 ∧
    (∀ k c, bigramCtxCount ≤ c → d.bigramTables k c = .zero) ∧ d.checksum = crc32 (dictBody d) := by
  obtain ⟨cut, -, -, -, rfl⟩ := dictTrain_eq_ok h
  refine ⟨rfl, rfl, rfl, rfl, rfl, fun k c hc => ?_, ?_⟩
  · simp only [trainedDict, tableArray, if_neg (Nat.not_lt.mpr hc)]
  · exact congrArg crc32 (dictBody_checksum _ _).symm

theorem dictTrain_stored (h : dictTrain packets modelId = .ok d) : d.Stored := by
  have hs := dictTrain_sound h
  have h5 : nClasses dictVersion = bigramCtxCount := by decide
  obtain ⟨hmagic, hv, hcount, hflags, hclasses, hzero, -⟩ := dictTrain_fields h
  refine ⟨hmagic, ?_, hcount, fun k hk => (hs.table k hk).built, ?_, ?_, ?_, ?_, ?_⟩
  · rw [hv]
    decide
  · intro k hk c hc
    rw [hv, h5] at hc
    exact (hs.bigram k hk c hc).built
  · intro k _ c hc
    rw [hv, h5] at hc
    exact hzero k c hc
  · intro hlt
    rw [hv] at hlt
    exact absurd (by decide) hlt
  · rw [hclasses, hv, h5]
    rfl
  · rw [hs.lzp, hflags]
    decide

/-- The blob of a trained dictionary is the one its checksum was taken of. -/
theorem dictTrain_blob (h : dictTrain packets modelId = .ok d) :
    blobOf d (lzpSection d) = dictBody d ++ writeU32Le d.checksum.toNat := by
  obtain ⟨-, hv, -, -, -, -, -⟩ := dictTrain_fields h
  have h5 : nClasses dictVersion = bigramCtxCount := by decide
  have hle : (5 : UInt8) ≤ dictVersion := by decide
  unfold blobOf dictBody lzpSection freqBytes lzpBytes
  rcases hl : d.lzpTable with _ | lzp
  · simp only [hv, h5, if_pos hle]
  · simp only [hv, h5, if_pos hle]

/-- **Loading undoes saving** on every trained dictionary, whatever follows the blob. -/
theorem dictLoad_dictSave (packets : List (List UInt8)) (modelId : UInt8) (hid : 1 ≤ modelId ∧ modelId ≤ 254) :
    ∃ d blob, dictTrain packets modelId = .ok d ∧ dictSave d = .ok blob ∧
      ∀ trailing, ∃ d', dictLoad (blob ++ trailing) = .ok d' ∧ d'.Same d := by
  have hid' : ¬(modelId = 0 ∨ modelId = 255) := by
    rintro (rfl | rfl)
    · exact absurd hid.1 (by decide)
    · exact absurd hid.2 (by decide)
  obtain ⟨d, hd⟩ := dictTrain_ok packets hid'
  have hst := dictTrain_stored hd
  have hblob := dictTrain_blob hd
  refine ⟨d, _, hd, hst.save, fun trailing => ?_⟩
  refine (at_blobOf.mp (at_self (blobOf d (lzpSection d)) trailing)).load hst ?_
  -- the checksum is of all but the last four bytes of the blob
  have hlen : (dictBody d).length = dictBlobSizeV d.version d.dictFlags - 4 := by
    have := hst.length_blobOf
    rw [hblob, List.length_append, length_writeU32Le] at this
    omega
  rw [dictBlobChecksum, hblob, ← hlen, List.append_assoc, List.take_left]
  exact (dictTrain_fields hd).2.2.2.2.2.2

/-- A corpus of three packets. -/
theorem dictLoad_dictSave_small : ∃ d blob, dictTrain [[1, 2, 3, 1, 2], [1, 2, 9], [200, 2]] 7 = .ok d ∧
    dictSave d = .ok blob ∧ ∀ trailing, ∃ d', dictLoad (blob ++ trailing) = .ok d' ∧ d'.Same d :=
  dictLoad_dictSave [[1, 2, 3, 1, 2], [1, 2, 9], [200, 2]] 7 (by decide)

end Train

/-! ### Saving undoes loading -/

section Resave

variable {b : List UInt8} {d : Dict}

theorem tansBuild_freqAt {off : ℕ} (h : (tansBuild (freqAt b off)).isSome) :
    Built ((tansBuild (freqAt b off)).getD .zero) ∧ ((tansBuild (freqAt b off)).getD .zero).freq = freqAt b off := by
  obtain ⟨t, ht⟩ := Option.isSome_iff_exists.mp h
  rw [ht, Option.getD_some]
  exact ⟨⟨_, ht⟩, tansBuildWith_freq ht⟩

theorem freqStands_freqAt {off : ℕ} (h : off + 512 ≤ b.length) : FreqStands b off (freqAt b off) := by
  intro s hs
  rw [freqAt, if_pos hs]
  exact at_u16At (by omega)

theorem Acceptable.stored (h : Acceptable b) : (loadedDict b).Stored := by
  refine ⟨h.magic, h.version, h.ctxCount, ?_, ?_, ?_, ?_, rfl, ?_⟩
  · intro k hk
    simp only [loadedDict, tableArray, if_pos hk]
    exact (tansBuild_freqAt (h.table k hk)).1
  · intro k hk c hc
    simp only [loadedDict, tableArray] at hc ⊢
    rw [if_pos hc]
    exact (tansBuild_freqAt (h.bigram k hk c hc)).1
  · intro k _ c hc
    exact if_neg (Nat.not_lt.mpr hc)
  · intro h5 p
    exact if_neg h5
  · simp only [loadedDict]
    split
    · next hl => simp [hl]
    · next hl => simpa using hl

/-- The size field of the LZP section, if the blob has one, says that it is full. -/
def LzpFull (b : List UInt8) : Prop := hasLzp (byteAt b 7) = true → u32At b (lzpOff (byteAt b 4)) = lzpHtSize

theorem Acceptable.at_lzpBytes (h : Acceptable b) (hl : hasLzp (byteAt b 7) = true)
    (hfull : u32At b (lzpOff (byteAt b 4)) = lzpHtSize) :
    At b (lzpOff (byteAt b 4)) (writeU32Le lzpHtSize ++ lzpBytes (lzpAt b (byteAt b 4))) := by
  have hlen := h.size
  rw [dictBlobSizeV_eq, if_pos hl, dictLzpSectionSize] at hlen
  refine at_append.mpr ⟨?_, ?_⟩
  · rw [← hfull]
    exact at_u32At h.lzpOff_le
  · rw [lzpBytes, at_flatMap_range (w := 2) fun _ => rfl]
    intro i hi
    simp only [lzpAt, hfull, if_pos hi, at_cons, at_nil, and_true, length_writeU32Le]
    exact ⟨getElem?_byteAt (by omega), getElem?_byteAt (by omega)⟩

theorem Acceptable.stands (h : Acceptable b) (hfull : LzpFull b) :
    BlobStands b (loadedDict b) (lzpSection (loadedDict b)) := by
  have hoff := h.lzpOff_le
  have hsize := h.size
  have hlen := h.stored.length_lzpSection
  refine ⟨at_u32At (by omega), ?_, ?_, ?_, ?_, ?_, ?_⟩
  · simp only [loadedDict, at_cons, at_nil, and_true]
    have hmin := dictV3BlobSize_le (byteAt b 4) (byteAt b 7)
    have h8 : 8 ≤ dictV3BlobSize := by decide
    exact ⟨getElem?_byteAt (by omega), getElem?_byteAt (by omega), getElem?_byteAt (by omega),
      getElem?_byteAt (by omega)⟩
  · intro (h5 : 5 ≤ byteAt b 4) p hp
    have h264 : 264 ≤ lzpOff (byteAt b 4) := by
      rw [lzpOff, tablesOff, if_pos h5, dictHeaderSize, dictV5ClassmapSize]
      omega
    have hmod : p % 2 ^ 8 = p := Nat.mod_eq_of_lt hp
    simp only [loadedDict, classMapAt]
    rw [if_pos h5, UInt8.toNat_ofNat', hmod]
    exact getElem?_byteAt (by omega)
  · intro k hk
    have hend := @tableOff_lt (byteAt b 4) k hk
    simp only [loadedDict, tableArray, if_pos hk, (tansBuild_freqAt (h.table k hk)).2]
    exact freqStands_freqAt (by omega)
  · intro k hk c hc
    have hend := bigramOff_lt hk hc
    simp only [loadedDict, tableArray] at hc hend ⊢
    rw [if_pos hc, (tansBuild_freqAt (h.bigram k hk c hc)).2]
    exact freqStands_freqAt (by omega)
  · simp only [lzpSection, loadedDict]
    rcases hl : hasLzp (byteAt b 7)
    · exact at_nil
    · exact h.at_lzpBytes hl (hfull hl)
  · have hsum : (loadedDict b).checksum.toNat = u32At b (dictBlobSizeV (byteAt b 4) (byteAt b 7) - 4) := by
      simp only [loadedDict]
      rw [UInt32.toNat_ofNat_of_lt' (u32At_lt _ _)]
    have hat : lzpOff (loadedDict b).version + (lzpSection (loadedDict b)).length
        = dictBlobSizeV (byteAt b 4) (byteAt b 7) - 4 := by
      rw [dictBlobSizeV_eq, hlen, Nat.add_sub_cancel]
      rfl
    rw [hsum, hat]
    exact at_u32At (by omega)

/-- Saving writes the blob that was loaded, and that loads to the same dictionary. -/
def SaveUndoesLoad (b : List UInt8) (d : Dict) : Prop :=
  ∃ blob, dictSave d = .ok blob ∧ blob = b.take (dictBlobSizeV d.version d.dictFlags) ∧
    ∃ d', dictLoad blob = .ok d' ∧ d'.Same d

/-- The entry count that is written is that of a full table. -/
theorem SaveUndoesLoad.lzpFull (hacc : Acceptable b) (h : SaveUndoesLoad b (loadedDict b)) : LzpFull b := by
  obtain ⟨blob, hsave, hblob, -⟩ := h
  intro hl
  have hat : At b 0 blob := by
    rw [hblob]
    exact List.take_prefix _ _
  rw [hacc.stored.save] at hsave
  obtain rfl := Except.ok.inj hsave
  have hs := (at_blobOf.mp hat).lzp
  have hlzp : (loadedDict b).lzpTable = some (lzpAt b (byteAt b 4)) := if_pos hl
  rw [lzpSection, hlzp] at hs
  exact u32At_of_at (at_append.mp hs).1 (by decide)

/-- **Saving undoes loading** exactly when the LZP section is full: an entry
count below the table size is accepted, but not written back. -/
theorem dictSave_dictLoad_iff (b : List UInt8) (d : Dict) (h : dictLoad b = .ok d) :
    SaveUndoesLoad b d ↔ LzpFull b := by
  obtain ⟨hacc, rfl⟩ := dictLoad_eq_ok.mp h
  have hst := hacc.stored
  constructor
  · exact SaveUndoesLoad.lzpFull hacc
  · intro hfull
    have hstands := hacc.stands hfull
    have htake := (at_blobOf.mpr hstands).take_eq
    rw [hst.length_blobOf] at htake
    refine ⟨_, hst.save, htake.symm, ?_⟩
    refine (at_blobOf.mp (at_refl _)).load hst ?_
    rw [dictBlobChecksum, ← htake, List.take_take, Nat.min_eq_left (Nat.sub_le _ _)]
    exact hacc.checksum

/-! ### Blobs with flat tables -/

/-- A dictionary in which every symbol has the same frequency everywhere. -/
def flatDict (version dictFlags : UInt8) (classMap : UInt8 → UInt8) (checksum : UInt32) : Dict where
  magic := dictMagic
  version := version
  modelId := 1
  ctxCount := 16
  dictFlags := dictFlags
  tables := fun _ => (tansBuild fun _ => 16).getD .zero
  bigramTables := fun _ => tableArray (nClasses version) fun _ => (tansBuild fun _ => 16).getD .zero
  bigramClassMap := classMap
  bigramClassCount := UInt8.ofNat (nClasses version)
  lzpTable := if hasLzp dictFlags then some fun _ => ⟨0, 0⟩ else none
  checksum := checksum

section Flat

variable {version dictFlags : UInt8} {classMap : UInt8 → UInt8} {c : UInt32} {lzp : List UInt8}

@[simp] theorem flatDict_version : (flatDict version dictFlags classMap c).version = version := rfl

@[simp] theorem flatDict_dictFlags : (flatDict version dictFlags classMap c).dictFlags = dictFlags := rfl

theorem flatTable_built : Built ((tansBuild fun _ => 16).getD .zero) := by
  obtain ⟨t, ht⟩ := Option.isSome_iff_exists.mp (@tansBuild_isSome (fun _ => 16) (by rw [cumul_const]))
  rw [ht, Option.getD_some]
  exact ⟨_, ht⟩

theorem flatDict_stored (hv : 3 ≤ version ∧ version ≤ dictVersion)
    (hmap : ¬5 ≤ version → ∀ p, classMap p = p >>> 6) : (flatDict version dictFlags classMap c).Stored := by
  refine ⟨rfl, hv, rfl, fun k _ => ?_, fun k _ c hc => ?_, fun k _ c hc => ?_, hmap, rfl, ?_⟩
  · simp only [flatDict]
    exact flatTable_built
  · simp only [flatDict, tableArray] at hc ⊢
    rw [if_pos hc]
    exact flatTable_built
  · exact if_neg (Nat.not_lt.mpr hc)
  · simp only [flatDict]
    split
    · next hl => simp [hl]
    · next hl => simpa using hl

/-- The checksum of a flat blob: that of all before it. -/
def flatSum (version dictFlags : UInt8) (classMap : UInt8 → UInt8) (lzp : List UInt8) : UInt32 :=
  crc32 ((blobOf (flatDict version dictFlags classMap 0) lzp).take (lzpOff version + lzp.length))

/-- The blob of a flat dictionary with the LZP section `lzp`. -/
def flatBlob (version dictFlags : UInt8) (classMap : UInt8 → UInt8) (lzp : List UInt8) : List UInt8 :=
  blobOf (flatDict version dictFlags classMap (flatSum version dictFlags classMap lzp)) lzp

theorem flatBlob_stands : BlobStands (flatBlob version dictFlags classMap lzp)
    (flatDict version dictFlags classMap (flatSum version dictFlags classMap lzp)) lzp :=
  at_blobOf.mp (at_refl _)

/-- What the checksum is taken of does not depend on it. -/
theorem flatBlob_take (c : UInt32) :
    (blobOf (flatDict version dictFlags classMap c) lzp).take (lzpOff version + lzp.length)
      = (blobOf (flatDict version dictFlags classMap 0) lzp).take (lzpOff version + lzp.length) := by
  have hlen := length_blobOf (flatDict version dictFlags classMap 0) lzp
  obtain ⟨body, hc, h0⟩ : ∃ body, blobOf (flatDict version dictFlags classMap c) lzp = body ++ writeU32Le c.toNat ∧
      blobOf (flatDict version dictFlags classMap 0) lzp = body ++ writeU32Le 0 := ⟨_, rfl, rfl⟩
  rw [h0, List.length_append, length_writeU32Le, Nat.add_right_cancel_iff, flatDict_version] at hlen
  rw [hc, h0, ← hlen, List.take_left, List.take_left]

/-- **Flat blobs are accepted**, whatever the class map and the entries of the LZP section. -/
theorem flatBlob_acceptable (hv : 3 ≤ version ∧ version ≤ dictVersion)
    (hmap : ¬5 ≤ version → ∀ p, classMap p = p >>> 6)
    (hlen : lzp.length = if hasLzp dictFlags then dictLzpSectionSize else 0)
    (hcount : hasLzp dictFlags = true →
      u32At (flatBlob version dictFlags classMap lzp) (lzpOff version) ≤ lzpHtSize) :
    Acceptable (flatBlob version dictFlags classMap lzp) := by
  refine flatBlob_stands.acceptable (flatDict_stored hv hmap) hlen ?_ hcount
  have hoff : dictBlobSizeV version dictFlags - 4 = lzpOff version + lzp.length := by
    rw [dictBlobSizeV_eq, ← hlen, Nat.add_sub_cancel]
  rw [flatDict_version, flatDict_dictFlags, dictBlobChecksum, hoff, flatBlob, flatBlob_take]
  rfl

end Flat

/-- A blob of version 3 without an LZP section is written back. -/
theorem dictSave_dictLoad_plain : ∃ b d, dictLoad b = .ok d ∧ LzpFull b ∧ SaveUndoesLoad b d := by
  have hacc := @flatBlob_acceptable 3 0 (fun p => p >>> 6) [] (by decide) (fun _ _ => rfl) rfl
    (fun h => absurd h (by decide))
  have hload := dictLoad_eq_ok.mpr ⟨hacc, rfl⟩
  have hfull : LzpFull (flatBlob 3 0 (fun p => p >>> 6) []) := by
    intro h
    rw [flatBlob_stands.bytes.2.2.2, flatDict_dictFlags] at h
    exact absurd h (by decide)
  exact ⟨_, _, hload, hfull, (dictSave_dictLoad_iff _ _ hload).mpr hfull⟩

/-- The LZP section without entries. -/
def shortLzp : List UInt8 := writeU32Le 0 ++ lzpBytes fun _ => ⟨0, 0⟩

/-- A blob of version 4 whose LZP section counts no entries. -/
def shortLzpBlob : List UInt8 := flatBlob 4 dictFlagLzp (fun p => p >>> 6) shortLzp

theorem shortLzpBlob_count : u32At shortLzpBlob (lzpOff 4) = 0 := by
  have hs := (@flatBlob_stands 4 dictFlagLzp (fun p => p >>> 6) shortLzp).lzp
  rw [shortLzp] at hs
  exact u32At_of_at (at_append.mp hs).1 (by decide)

/-- It is accepted, and not written back. -/
theorem dictSave_short : ∃ d, dictLoad shortLzpBlob = .ok d ∧ ¬SaveUndoesLoad shortLzpBlob d := by
  have hlen : shortLzp.length = if hasLzp dictFlagLzp then dictLzpSectionSize else 0 := by
    rw [if_pos (by decide), shortLzp, List.length_append, length_writeU32Le, length_lzpBytes, dictLzpSectionSize,
      Nat.mul_comm]
  have hacc := @flatBlob_acceptable 4 dictFlagLzp (fun p => p >>> 6) shortLzp (by decide) (fun _ _ => rfl) hlen
    (fun _ => shortLzpBlob_count.trans_le (Nat.zero_le _))
  refine ⟨_, dictLoad_eq_ok.mpr ⟨hacc, rfl⟩, fun h => ?_⟩
  have hfull := h.lzpFull hacc
  obtain ⟨hv, -, -, hf⟩ := @flatBlob_stands 4 dictFlagLzp (fun p => p >>> 6) shortLzp |>.bytes
  rw [LzpFull, hv, hf, flatDict_version, flatDict_dictFlags] at hfull
  have hn := shortLzpBlob_count.symm.trans (hfull (by decide))
  exact absurd hn (by decide)

end Resave

end Netc
