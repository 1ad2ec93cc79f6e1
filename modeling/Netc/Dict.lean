/-
# Dictionaries and their training

`netc_dict_t` and `netc_dict_train` of `netc_dict.c`. Training counts the
bytes of the corpus by context bucket, groups the byte values into eight
classes by their most frequent successor, counts again by bucket and class of
the byte before, builds the tables, votes on the predictions of the LZP table,
and builds all tables anew from the filtered corpus.

Whatever the corpus, the tables of a trained dictionary can code every byte
(`dictTrain_sound`), and training does not fail (`dictTrain_ok`).

Key definitions: `Dict`, `dictTrain`, `FullTable`, `Dict.Sound`.
Key theorems: `dictTrain_sound`, `dictTrain_ok`.
-/
import Mathlib.Data.List.DropRight
import Netc.Tans.Freq
import Netc.Lzp
import Netc.Crc32

namespace Netc

/-- `netc_dict_t` -/
structure Dict where
  magic : ℕ
  version : UInt8
  modelId : UInt8
  ctxCount : UInt8
  dictFlags : UInt8
  tables : ℕ → Table
  bigramTables : ℕ → ℕ → Table
  bigramClassMap : UInt8 → UInt8
  bigramClassCount : UInt8
  lzpTable : Option LzpTable
  checksum : UInt32

/-- `NETC_DICT_MAGIC` -/
def dictMagic : ℕ := 0x4E455443

/-- `NETC_DICT_VERSION` -/
def dictVersion : UInt8 := 5

/-- `NETC_DICT_FLAG_LZP` -/
def dictFlagLzp : UInt8 := 0x01

/-- `netc_bigram_class(prev, dict->bigram_class_map)` -/
def Dict.bigramClass (d : Dict) (prev : UInt8) : ℕ := (d.bigramClassMap prev).toNat

/-! ### Counting -/

/-- `f[i]++` -/
def bump (f : ℕ → ℕ) (i : ℕ) : ℕ → ℕ := Function.update f i (f i + 1)

/-- Counts of the symbols seen in each context, and their totals. -/
structure Counts (κ : Type) where
  raw : κ → Freq
  totals : κ → ℕ

/-- The counts before the first byte. -/
def Counts.zero (κ : Type) : Counts κ := ⟨fun _ _ => 0, fun _ => 0⟩

/-- One more `sym` in context `k`. -/
def Counts.add {κ : Type} [DecidableEq κ] (c : Counts κ) (k : κ) (sym : UInt8) : Counts κ :=
  ⟨Function.update c.raw k (bump (c.raw k) sym.toNat), Function.update c.totals k (c.totals k + 1)⟩

/-- The bytes of a packet from offset `i` on, each with its offset and the byte before it. -/
def positionsFrom : ℕ → UInt8 → List UInt8 → List (ℕ × UInt8 × UInt8)
  | _, _, [] => []
  | i, prev, b :: pkt => (i, prev, b) :: positionsFrom (i + 1) b pkt

/-- The bytes of a corpus, each with its offset and the byte before it. -/
def positions (packets : List (List UInt8)) : List (ℕ × UInt8 × UInt8) :=
  packets.flatMap (positionsFrom 0 0)

/-- `netc_freq_count_generic` from zero. -/
def freqCount (data : List UInt8) : Freq := data.foldl (fun f b => bump f b.toNat) fun _ => 0

/-- `bucket_end` -/
def bucketEnd : List ℕ := [8, 16, 24, 32, 48, 64, 96, 128, 192, 256, 384, 512, 1024, 4096, 16384, 65536]

/-- One bucket of a packet in phase 2a: the bytes from `seg_start` on. -/
def countSegment (pkt : List UInt8) (st : ℕ × Counts ℕ) (b : ℕ) : ℕ × Counts ℕ :=
  if pkt.length ≤ st.1 then st
  else
    let segEnd := min (bucketEnd.getD b 0) pkt.length
    let segLen := segEnd - st.1
    let tmpFreq := freqCount ((pkt.drop st.1).take segLen)
    (segEnd, ⟨Function.update st.2.raw b fun s => st.2.raw b s + tmpFreq s,
      Function.update st.2.totals b (st.2.totals b + segLen)⟩)

/-- Phase 2a: unigram counts per bucket. -/
def unigramCounts (packets : List (List UInt8)) : Counts ℕ :=
  packets.foldl (fun c pkt => ((List.range Netc.ctxCount).foldl (countSegment pkt) (0, c)).2) (.zero ℕ)

/-! ### Classes of previous bytes -/

/-- `cond_counts`: the successors of each byte. -/
def condCounts (packets : List (List UInt8)) : Counts ℕ :=
  (positions packets).foldl (fun c p => c.add p.2.1.toNat p.2.2) (.zero ℕ)

/-- The first of the most frequent symbols. -/
def peakSym (c : Freq) : ℕ :=
  ((List.range 256).foldl (fun (st : ℕ × ℕ) s => if st.1 < c s then (c s, s) else st) (0, 0)).2

/-- One round of the insertion sort: `key` behind the last that does not have a larger peak. -/
def insertPrev (peak : ℕ → ℕ) (sorted : List ℕ) (key : ℕ) : List ℕ :=
  sorted.rdropWhile (fun j => peak key < peak j) ++ key :: sorted.rtakeWhile (fun j => peak key < peak j)

/-- `sorted_prev` -/
def sortedPrev (peak : ℕ → ℕ) : List ℕ := (List.range 256).foldl (insertPrev peak) []

/-- Phase 2b: the class map, eight groups of 32 along `sorted_prev`. -/
def trainClassMap (packets : List (List UInt8)) : UInt8 → UInt8 :=
  let sorted := sortedPrev fun prev => peakSym ((condCounts packets).raw prev)
  (List.range bigramCtxCount).foldl (fun m g => (List.range 32).foldl
    (fun m k => Function.update m (UInt8.ofNat (sorted.getD (g * 32 + k) 0)) (UInt8.ofNat g)) m) fun _ => 0

/-- Unigram counts position by position, as phase 5 takes them. -/
def bucketCounts (packets : List (List UInt8)) : Counts ℕ :=
  (positions packets).foldl (fun c p => c.add (ctxBucket p.1) p.2.2) (.zero ℕ)

/-- Phases 2c and 5: bigram counts per bucket and class of the previous byte. -/
def bigramCounts (classMap : UInt8 → UInt8) (packets : List (List UInt8)) : Counts (ℕ × ℕ) :=
  (positions packets).foldl (fun c p => c.add (ctxBucket p.1, (classMap p.2.1).toNat) p.2.2) (.zero _)

/-! ### The LZP table -/

/-- `lzp_vote_t` -/
structure LzpVote where
  candidate : UInt8
  count : ℕ

/-- One vote for byte `b`. -/
def LzpVote.cast (v : LzpVote) (b : UInt8) : LzpVote :=
  if v.count = 0 then ⟨b, 1⟩
  else if v.candidate = b then if v.count < 32767 then ⟨v.candidate, v.count + 1⟩ else v
  else ⟨v.candidate, v.count - 1⟩

/-- Pass 1: the majority vote in each slot. -/
def lzpVotes (packets : List (List UInt8)) : ℕ → LzpVote :=
  (positions packets).foldl (fun v p =>
    let h := lzpHash p.2.1 p.1
    Function.update v h ((v h).cast p.2.2)) fun _ => ⟨0, 0⟩

/-- A 16-bit counter that stops at its largest value. -/
def bumpSat (f : ℕ → ℕ) (i : ℕ) : ℕ → ℕ := if f i < 0xFFFF then bump f i else f

/-- Pass 2: how often each slot was met, and how often with its candidate. -/
def lzpHits (votes : ℕ → LzpVote) (packets : List (List UInt8)) : (ℕ → ℕ) × (ℕ → ℕ) :=
  (positions packets).foldl (fun st p =>
    let h := lzpHash p.2.1 p.1
    (bumpSat st.1 h, if p.2.2 = (votes h).candidate then bumpSat st.2 h else st.2)) (fun _ => 0, fun _ => 0)

/-- Phase 4: the LZP table. -/
def trainLzp (packets : List (List UInt8)) : LzpTable :=
  let votes := lzpVotes packets
  let hits := lzpHits votes packets
  fun h => if 2 ≤ hits.1 h ∧ hits.1 h * 4 ≤ hits.2 h * 10 then ⟨(votes h).candidate, 1⟩ else ⟨0, 0⟩

/-! ### Training -/

/-- A table from the counts of a context. -/
def buildFrom {κ : Type} (c : Counts κ) (k : κ) : Option Table :=
  tansBuild (freqNormalize (c.raw k) (c.totals k))

/-- An array of `n` tables. -/
def tableArray (n : ℕ) (f : ℕ → Table) : ℕ → Table := fun i => if i < n then f i else .zero

/-- The blob without its checksum. -/
def dictBody (d : Dict) : List UInt8 :=
  writeU32Le d.magic ++ [d.version, d.modelId, d.ctxCount, d.dictFlags]
    ++ (List.range 256).map (fun p => d.bigramClassMap (UInt8.ofNat p))
    ++ (List.range Netc.ctxCount).flatMap (fun b => (List.range 256).flatMap fun s =>
      writeU16Le ((d.tables b).freq s))
    ++ (List.range Netc.ctxCount).flatMap (fun b => (List.range bigramCtxCount).flatMap fun c =>
      (List.range 256).flatMap fun s => writeU16Le ((d.bigramTables b c).freq s))
    ++ (match d.lzpTable with
      | none => []
      | some lzp => writeU32Le lzpHtSize ++ (List.range lzpHtSize).flatMap fun h => [(lzp h).value, (lzp h).valid])

/-- The dictionary of phases 2 to 5, its checksum still zero. -/
def trainedDict (packets : List (List UInt8)) (modelId : UInt8) : Dict :=
  let classMap := trainClassMap packets
  let uni := unigramCounts packets
  let bi := bigramCounts classMap packets
  let lzp := trainLzp packets
  let filtered := packets.map (lzpXorFilter lzp)
  let uni2 := bucketCounts filtered
  let bi2 := bigramCounts classMap filtered
  { magic := dictMagic
    version := dictVersion
    modelId
    ctxCount := 16
    dictFlags := dictFlagLzp
    -- a build that fails in phase 5 leaves the table of phase 2 in place
    tables := tableArray Netc.ctxCount fun b => (buildFrom uni2 b).getD ((buildFrom uni b).getD .zero)
    bigramTables := fun b => tableArray bigramCtxCount fun c =>
      (buildFrom bi2 (b, c)).getD ((buildFrom bi (b, c)).getD .zero)
    bigramClassMap := classMap
    bigramClassCount := 8
    lzpTable := some lzp
    checksum := 0 }

/-- `netc_dict_train` on a corpus; a `NULL` packet is an empty one. -/
def dictTrain (packets : List (List UInt8)) (modelId : UInt8) : Except Result Dict :=
  if modelId = 0 ∨ modelId = 255 then .error .errInvalidArg
  else
    let packets := packets.map (List.take maxPacketSize)
    let uni := unigramCounts packets
    let bi := bigramCounts (trainClassMap packets) packets
    if (List.range Netc.ctxCount).all (fun b => (buildFrom uni b).isSome) &&
        (List.range Netc.ctxCount).all (fun b => (List.range bigramCtxCount).all fun c =>
          (buildFrom bi (b, c)).isSome) then
      let d := trainedDict packets modelId
      .ok { d with checksum := crc32 (dictBody d) }
    else .error .errNomem

/-! ### Tables that code every byte -/

/-- A built table in which every symbol occurs. -/
def FullTable (t : Table) : Prop := ∃ freq : Freq, tansBuild freq = some t ∧ ∀ s < 256, 0 < freq s

/-- What the codec relies on in a dictionary. -/
structure Dict.Sound (d : Dict) : Prop where
  table : ∀ b < Netc.ctxCount, FullTable (d.tables b)
  bigram : ∀ b < Netc.ctxCount, ∀ c < bigramCtxCount, FullTable (d.bigramTables b c)
  class_lt : ∀ prev, d.bigramClass prev < bigramCtxCount
  lzp : d.lzpTable.isSome

theorem FullTable.sound {t : Table} (h : FullTable t) : t.Sound tans12 := by
  obtain ⟨f, hf, -⟩ := h
  exact tansBuildWith_sound hf

theorem FullTable.freq_pos {t : Table} (h : FullTable t) (s : UInt8) : 0 < (t.encode s.toNat).freq := by
  obtain ⟨f, hf, hpos⟩ := h
  rw [tansBuildWith_encode_freq hf (UInt8.toNat_lt s)]
  exact hpos _ (UInt8.toNat_lt s)

theorem FullTable.valid {t : Table} (h : FullTable t) : t.valid = true := by
  obtain ⟨f, hf, -⟩ := h
  obtain ⟨-, rfl⟩ := tansBuildWith_eq_some hf
  rfl

section Train

variable {κ : Type} {c : Counts κ}

theorem buildFrom_full {k : κ} {t : Table} (h : buildFrom c k = some t) : FullTable t :=
  ⟨_, h, fun _ _ => freqNormalize_pos ..⟩

/-- A table built anew is full, and so is the one it replaces. -/
theorem getD_full {o o' : Option Table} (h : ∀ t, o = some t → FullTable t)
    (h' : ∀ t, o' = some t → FullTable t) (hs : o'.isSome) : FullTable (o.getD (o'.getD .zero)) := by
  cases o with
  | some t => exact h t rfl
  | none =>
    obtain ⟨t, rfl⟩ := Option.isSome_iff_exists.mp hs
    exact h' t rfl

/-- The classes are those of the eight groups. -/
theorem trainClassMap_lt (packets : List (List UInt8)) (prev : UInt8) :
    (trainClassMap packets prev).toNat < bigramCtxCount := by
  have key : ∀ (ks : List ℕ) (slot : ℕ → UInt8) (g : ℕ) (m : UInt8 → UInt8), g < 8 → (∀ p, (m p).toNat < 8) →
      ∀ p, (ks.foldl (fun m k => Function.update m (slot k) (UInt8.ofNat g)) m p).toNat < 8 := by
    intro ks slot g
    induction ks with
    | nil => exact fun m _ h => h
    | cons k ks ih =>
      intro m hg h
      refine ih _ hg fun p => ?_
      by_cases hp : p = slot k
      · simp only [hp, Function.update_self, UInt8.toNat_ofNat']
        omega
      · simp only [Function.update_of_ne hp]
        exact h p
  have groups : ∀ (gs : List ℕ) (slot : ℕ → ℕ → UInt8) (m : UInt8 → UInt8), (∀ g ∈ gs, g < 8) →
      (∀ p, (m p).toNat < 8) → ∀ p, (gs.foldl (fun m g => (List.range 32).foldl
        (fun m k => Function.update m (slot g k) (UInt8.ofNat g)) m) m p).toNat < 8 := by
    intro gs slot
    induction gs with
    | nil => exact fun m _ h => h
    | cons g gs ih =>
      intro m hg h
      exact ih _ (fun g' hg' => hg g' (by simp [hg'])) (key _ (slot g) g m (hg g (by simp)) h)
  simp only [trainClassMap]
  exact groups _ (fun g k => UInt8.ofNat (List.getD _ (g * 32 + k) 0)) _ (fun g hg => List.mem_range.mp hg)
    (fun _ => by norm_num) prev

/-- What a training that succeeds has built, and the dictionary it returns. -/
theorem dictTrain_eq_ok {packets : List (List UInt8)} {modelId : UInt8} {d : Dict}
    (h : dictTrain packets modelId = .ok d) : ∃ cut, cut = packets.map (List.take maxPacketSize) ∧
    (∀ b < Netc.ctxCount, (buildFrom (unigramCounts cut) b).isSome) ∧
    (∀ b < Netc.ctxCount, ∀ c < bigramCtxCount, (buildFrom (bigramCounts (trainClassMap cut) cut) (b, c)).isSome) ∧
    d = { trainedDict cut modelId with checksum := crc32 (dictBody (trainedDict cut modelId)) } := by
  refine ⟨_, rfl, ?_⟩
  rw [dictTrain] at h
  split at h
  · cases h
  · simp only at h
    split at h
    · next hall =>
      simp only [Bool.and_eq_true, List.all_eq_true, List.mem_range] at hall
      exact ⟨hall.1, hall.2, (Except.ok.inj h).symm⟩
    · cases h

theorem dictTrain_modelId {packets : List (List UInt8)} {modelId : UInt8} {d : Dict}
    (h : dictTrain packets modelId = .ok d) : d.modelId = modelId := by
  obtain ⟨cut, -, -, -, rfl⟩ := dictTrain_eq_ok h
  rfl

/-- **A trained dictionary is sound.** -/
theorem dictTrain_sound {packets : List (List UInt8)} {modelId : UInt8} {d : Dict}
    (h : dictTrain packets modelId = .ok d) : d.Sound := by
  obtain ⟨cut, -, hu, hb, rfl⟩ := dictTrain_eq_ok h
  refine ⟨fun b hb' => ?_, fun b hb' c hc => ?_, fun prev => ?_, by simp [trainedDict]⟩
  · simp only [trainedDict, tableArray, if_pos hb']
    exact getD_full (fun _ => buildFrom_full) (fun _ => buildFrom_full) (hu b hb')
  · simp only [trainedDict, tableArray, if_pos hc]
    exact getD_full (fun _ => buildFrom_full) (fun _ => buildFrom_full) (hb b hb' c hc)
  · simp only [Dict.bigramClass, trainedDict]
    exact trainClassMap_lt _ prev

/-! ### Training does not fail -/

/-- Every total is the sum of its counts. -/
def Counts.Balanced (c : Counts κ) : Prop := ∀ k, c.totals k = cumul (c.raw k) 256

theorem cumul_bump {f : Freq} {s : ℕ} (h : s < 256) : cumul (bump f s) 256 = cumul f 256 + 1 :=
  cumul_update_add f 1 h

theorem Counts.zero_balanced : (Counts.zero κ).Balanced := fun _ => (cumul_const 0 256).symm

theorem Counts.Balanced.add [DecidableEq κ] (h : c.Balanced) (k : κ) (sym : UInt8) : (c.add k sym).Balanced := by
  intro k'
  by_cases hk : k' = k
  · subst hk
    simp only [Counts.add, Function.update_self]
    rw [cumul_bump (UInt8.toNat_lt sym), h k']
  · simp only [Counts.add, Function.update_of_ne hk]
    exact h k'

/-- Counting position by position keeps the totals right. -/
theorem foldl_add_balanced [DecidableEq κ] (key : ℕ × UInt8 × UInt8 → κ) :
    ∀ (l : List (ℕ × UInt8 × UInt8)) (c : Counts κ), c.Balanced →
      (l.foldl (fun c p => c.add (key p) p.2.2) c).Balanced
  | [], _, h => h
  | p :: l, _, h => foldl_add_balanced key l _ (h.add (key p) p.2.2)

theorem bigramCounts_balanced (m : UInt8 → UInt8) (packets : List (List UInt8)) :
    (bigramCounts m packets).Balanced :=
  foldl_add_balanced (fun p => (ctxBucket p.1, (m p.2.1).toNat)) _ _ Counts.zero_balanced

theorem cumul_freqCount (data : List UInt8) : cumul (freqCount data) 256 = data.length := by
  have key : ∀ (l : List UInt8) (f : Freq),
      cumul (l.foldl (fun f b => bump f b.toNat) f) 256 = cumul f 256 + l.length := by
    intro l
    induction l with
    | nil => exact fun f => by rw [List.foldl_nil, List.length_nil, Nat.add_zero]
    | cons b l ih =>
      intro f
      rw [List.foldl_cons, ih, cumul_bump (UInt8.toNat_lt b), List.length_cons]
      omega
  rw [freqCount, key, cumul_const]
  omega

theorem countSegment_balanced {pkt : List UInt8} {st : ℕ × Counts ℕ} (h : st.2.Balanced) (b : ℕ) :
    (countSegment pkt st b).2.Balanced := by
  rw [countSegment]
  split
  · exact h
  · intro k
    simp only
    by_cases hk : k = b
    · subst hk
      rw [Function.update_self, Function.update_self, cumul_add, cumul_freqCount, h k, List.length_take,
        List.length_drop]
      omega
    · rw [Function.update_of_ne hk, Function.update_of_ne hk]
      exact h k

theorem unigramCounts_balanced (packets : List (List UInt8)) : (unigramCounts packets).Balanced := by
  have seg : ∀ (bs : List ℕ) (pkt : List UInt8) (st : ℕ × Counts ℕ), st.2.Balanced →
      (bs.foldl (countSegment pkt) st).2.Balanced := by
    intro bs pkt
    induction bs with
    | nil => exact fun st h => h
    | cons b bs ih => exact fun st h => ih _ (countSegment_balanced h b)
  have key : ∀ (l : List (List UInt8)) (c : Counts ℕ), c.Balanced →
      (l.foldl (fun c pkt => ((List.range Netc.ctxCount).foldl (countSegment pkt) (0, c)).2) c).Balanced := by
    intro l
    induction l with
    | nil => exact fun c h => h
    | cons pkt l ih => exact fun c h => ih _ (seg _ pkt (0, c) h)
  exact key packets _ Counts.zero_balanced

theorem tansBuild_isSome {freq : Freq} (h : cumul freq 256 = 4096) : (tansBuild freq).isSome := by
  rw [tansBuild, tansBuildWith, size_tans12, if_neg (by simpa using h)]
  rfl

theorem buildFrom_isSome (h : c.Balanced) (k : κ) : (buildFrom c k).isSome :=
  tansBuild_isSome (cumul_freqNormalize (h k))

/-- **Training succeeds** on every corpus. -/
theorem dictTrain_ok (packets : List (List UInt8)) {modelId : UInt8} (h : ¬(modelId = 0 ∨ modelId = 255)) :
    ∃ d, dictTrain packets modelId = .ok d := by
  have hall : ∀ packets : List (List UInt8),
      ((List.range Netc.ctxCount).all (fun b => (buildFrom (unigramCounts packets) b).isSome) &&
        (List.range Netc.ctxCount).all (fun b => (List.range bigramCtxCount).all fun c =>
          (buildFrom (bigramCounts (trainClassMap packets) packets) (b, c)).isSome)) = true := by
    intro packets
    simp only [Bool.and_eq_true, List.all_eq_true]
    exact ⟨fun b _ => buildFrom_isSome (unigramCounts_balanced _) b,
      fun b _ c _ => buildFrom_isSome (bigramCounts_balanced _ _) (b, c)⟩
  rw [dictTrain, if_neg h]
  simp only [hall, if_true]
  exact ⟨_, rfl⟩

/-- The tables are those of the filtered corpus. -/
theorem dictTrain_tables {corpus packets : List (List UInt8)} {modelId : UInt8} {d : Dict}
    (h : dictTrain corpus modelId = .ok d) (hp : corpus.map (List.take maxPacketSize) = packets) {b : ℕ}
    (hb : b < Netc.ctxCount) :
    buildFrom (bucketCounts (packets.map (lzpXorFilter (trainLzp packets)))) b = some (d.tables b) := by
  have hsome := buildFrom_isSome (foldl_add_balanced (fun p => ctxBucket p.1)
    (positions (packets.map (lzpXorFilter (trainLzp packets)))) _ Counts.zero_balanced) b
  obtain ⟨t, ht⟩ := Option.isSome_iff_exists.mp hsome
  obtain ⟨cut, hcut, -, -, rfl⟩ := dictTrain_eq_ok h
  obtain rfl : cut = packets := hcut.trans hp
  simp only [trainedDict, tableArray, if_pos hb]
  rw [bucketCounts, ht, Option.getD_some]

end Train

end Netc
