/-
# tANS tables

`netc_tans_build` and `netc_tans_build_10` of `netc_tans.c`, one definition
over the table size and the spread step. The occurrences `(s, k)` of the
symbols are laid over the slots along the walk by the spread step; the encode
table says where an occurrence went, the decode table what stands in a slot.
`Table.Sound` is what coding needs of a table, and every built table has it.

Key definitions: `TansParams`, `Table`, `tansBuildWith`, `Table.Sound`.
Key theorems: `tansBuildWith_sound`.
-/
import Netc.Basic
import Netc.Lib.Ans

namespace Netc

/-! ### Buckets -/

/-- `netc_ctx_bucket` -/
def ctxBucket (offset : ℕ) : ℕ :=
  if offset < 8 then 0
  else if offset < 16 then 1
  else if offset < 24 then 2
  else if offset < 32 then 3
  else if offset < 48 then 4
  else if offset < 64 then 5
  else if offset < 96 then 6
  else if offset < 128 then 7
  else if offset < 192 then 8
  else if offset < 256 then 9
  else if offset < 384 then 10
  else if offset < 512 then 11
  else if offset < 1024 then 12
  else if offset < 4096 then 13
  else if offset < 16384 then 14
  else 15

/-- A property of a conditional, from one of each branch. -/
theorem ite_of {p : Prop} [Decidable p] {P : ℕ → Prop} {a b : ℕ} (ha : p → P a) (hb : ¬p → P b) :
    P (if p then a else b) := by
  split
  · exact ha ‹_›
  · exact hb ‹_›

theorem ctxBucket_lt (offset : ℕ) : ctxBucket offset < ctxCount := by
  unfold ctxBucket ctxCount
  repeat' refine ite_of (P := (· < 16)) (fun _ => ?_) (fun _ => ?_)
  all_goals norm_num

/-- The first bucket has eight bytes. -/
theorem ctxBucket_eq_zero {offset : ℕ} (h : ctxBucket offset = 0) : offset < 8 := by
  by_contra hge
  have hpos : ctxBucket offset ≠ 0 := by
    rw [ctxBucket, if_neg hge]
    repeat' refine ite_of (P := (· ≠ 0)) (fun _ => ?_) (fun _ => ?_)
    all_goals norm_num
  exact hpos h

/-! ### Tables -/

/-- The size of a table and the step of its spread. -/
structure TansParams where
  tableLog : ℕ
  spreadStep : ℕ
  log_le : tableLog ≤ 12
  coprime : Nat.Coprime spreadStep (2 ^ tableLog)

namespace TansParams

/-- `NETC_TANS_TABLE_SIZE`, `NETC_TANS_TABLE_SIZE_10` -/
def size (P : TansParams) : ℕ := 2 ^ P.tableLog

theorem size_pos (P : TansParams) : 0 < P.size := by simp [size]

theorem size_le (P : TansParams) : P.size ≤ 4096 :=
  le_trans (Nat.pow_le_pow_right (by norm_num) P.log_le) (by norm_num)

theorem two_size (P : TansParams) : 2 * P.size = 2 ^ (P.tableLog + 1) := (pow_succ' ..).symm

end TansParams

/-- The 12-bit tables: `NETC_TANS_TABLE_LOG`, `NETC_TANS_SPREAD_STEP`. -/
def tans12 : TansParams := ⟨12, 2563, by norm_num, by norm_num⟩

/-- The 10-bit tables: `NETC_TANS_TABLE_LOG_10`, `NETC_TANS_SPREAD_STEP_10`. -/
def tans10 : TansParams := ⟨10, 643, by norm_num, by norm_num⟩

theorem size_tans12 : tans12.size = 4096 := rfl

theorem size_tans10 : tans10.size = 1024 := rfl

/-- `netc_freq_table_t` -/
abbrev Freq := ℕ → ℕ

/-- `netc_tans_decode_entry_t` -/
structure DecodeEntry where
  symbol : UInt8
  nbBits : ℕ
  nextStateBase : ℕ
  deriving DecidableEq, Repr

/-- `netc_tans_encode_entry_t` -/
structure EncodeEntry where
  freq : ℕ
  lower : ℕ
  cumul : ℕ
  nbHi : ℕ
  deriving DecidableEq, Repr

/-- `netc_tans_table_t` and `netc_tans_table_10_t` -/
structure Table where
  decode : ℕ → DecodeEntry
  encodeState : ℕ → ℕ
  encode : ℕ → EncodeEntry
  freq : Freq
  valid : Bool

/-- A table of zero bytes. -/
def Table.zero : Table := ⟨fun _ => ⟨0, 0, 0⟩, fun _ => 0, fun _ => ⟨0, 0, 0, 0⟩, fun _ => 0, false⟩

/-- `cumul[s]`: the sum of the frequencies before `s`. -/
def cumul (freq : Freq) (s : ℕ) : ℕ := ((List.range s).map freq).sum

/-- The occurrences of the symbols in the order of the two loops over them. -/
def spreadOrder (freq : Freq) : List (ℕ × ℕ) :=
  (List.range 256).flatMap fun s => (List.range (freq s)).map fun k => (s, k)

section Build

variable (P : TansParams) (freq : Freq)

/-- Step 2: the encode entry of symbol `s`. -/
def buildEncode (s : ℕ) : EncodeEntry :=
  if 256 ≤ s ∨ freq s = 0 then ⟨0, 0, 0, 0⟩
  else
    let f := freq s
    let nbHi := P.tableLog - Nat.log2 f
    ⟨f, f <<< nbHi, cumul freq s, nbHi⟩

/-- The next slot of the spread. -/
def spreadNext (pos : ℕ) : ℕ := (pos + P.spreadStep) &&& (P.size - 1)

/-- Step 3: `encode_state`, the state each occurrence was given. -/
def buildEncodeState : ℕ → ℕ :=
  (Scatter.run (spreadNext P) (fun _ o => cumul freq o.1 + o.2) (fun pos _ => P.size + pos)
    (spreadOrder freq) 0 fun _ => 0).2

/-- The decode entry of occurrence `k` of symbol `s`. -/
def decodeEntryOf (o : ℕ × ℕ) : DecodeEntry :=
  let xPrev := freq o.1 + o.2
  let nb := P.tableLog - Nat.log2 xPrev
  ⟨UInt8.ofNat o.1, nb, xPrev <<< nb⟩

/-- Step 4: the decode table. -/
def buildDecode : ℕ → DecodeEntry :=
  (Scatter.run (spreadNext P) (fun pos _ => pos) (fun _ o => decodeEntryOf P freq o)
    (spreadOrder freq) 0 fun _ => ⟨0, 0, 0⟩).2

/-- `netc_tans_build` and `netc_tans_build_10`. No 16-bit field is cut short,
since the frequencies sum to the table size. -/
def tansBuildWith : Option Table :=
  if cumul freq 256 ≠ P.size then none
  else some ⟨buildDecode P freq, buildEncodeState P freq, buildEncode P freq, freq, true⟩

end Build

/-- `netc_tans_build` -/
def tansBuild (freq : Freq) : Option Table := tansBuildWith tans12 freq

/-- `netc_tans_build_10` -/
def tansBuild10 (freq : Freq) : Option Table := tansBuildWith tans10 freq

/-! ### What coding needs of a table -/

/-- How many low bits the encode step takes off state `X` for symbol `s`. -/
def Table.nb (t : Table) (s X : ℕ) : ℕ :=
  let e := t.encode s
  if e.nbHi = 0 ∨ e.lower ≤ X then e.nbHi else e.nbHi - 1

/-- The place of `encode_state` the encode step reads. -/
def Table.place (t : Table) (s X : ℕ) : ℕ :=
  let e := t.encode s
  e.cumul + subU32 (X >>> t.nb s X) e.freq

/-- A state of a table: `[size, 2 * size)`. -/
def TansParams.InRange (P : TansParams) (X : ℕ) : Prop := P.size ≤ X ∧ X < 2 * P.size

/-- **A table that can code.** Every slot leads to a state, whatever bits are
read; and the slot the encode step picks for a symbol gives the symbol back,
with the number of bits taken off and the rest of the state. -/
structure Table.Sound (P : TansParams) (t : Table) : Prop where
  valid : t.valid = true
  slot : ∀ p < P.size, P.size ≤ (t.decode p).nextStateBase ∧
    (t.decode p).nextStateBase + 2 ^ (t.decode p).nbBits ≤ 2 * P.size ∧ (t.decode p).nbBits ≤ P.tableLog
  nb_le : ∀ s X, t.nb s X ≤ P.tableLog
  code : ∀ (s : UInt8) X, 0 < (t.encode s.toNat).freq → P.InRange X →
    t.place s.toNat X < P.size ∧ P.InRange (t.encodeState (t.place s.toNat X)) ∧
      t.decode (t.encodeState (t.place s.toNat X) - P.size)
        = ⟨s, t.nb s.toNat X, (X >>> t.nb s.toNat X) <<< t.nb s.toNat X⟩

section Order

variable {freq : Freq}

theorem cumul_succ (freq : Freq) (s : ℕ) : cumul freq (s + 1) = cumul freq s + freq s := by
  simp [cumul, List.range_succ]

theorem cumul_mono (freq : Freq) {a b : ℕ} (h : a ≤ b) : cumul freq a ≤ cumul freq b := by
  induction b, h using Nat.le_induction with
  | base => exact Nat.le_refl _
  | succ b _ ih => rw [cumul_succ]; omega

/-- The occurrences of the symbols below `n`. -/
private def orderTo (freq : Freq) (n : ℕ) : List (ℕ × ℕ) :=
  (List.range n).flatMap fun s => (List.range (freq s)).map fun k => (s, k)

private theorem orderTo_succ (freq : Freq) (n : ℕ) :
    orderTo freq (n + 1) = orderTo freq n ++ (List.range (freq n)).map fun k => (n, k) := by
  simp [orderTo, List.range_succ]

private theorem length_orderTo (freq : Freq) : ∀ n, (orderTo freq n).length = cumul freq n
  | 0 => rfl
  | n + 1 => by rw [orderTo_succ, List.length_append, length_orderTo freq n, cumul_succ]; simp

private theorem orderTo_place {s k : ℕ} (hk : k < freq s) : ∀ n, s < n →
    (orderTo freq n)[cumul freq s + k]? = some (s, k)
  | 0, h => absurd h (Nat.not_lt_zero s)
  | n + 1, h => by
    rw [orderTo_succ]
    have hlen := length_orderTo freq n
    by_cases hs : s < n
    · have h1 := cumul_mono freq (show s + 1 ≤ n from hs)
      rw [cumul_succ] at h1
      rw [List.getElem?_append_left (by omega)]
      exact orderTo_place hk n hs
    · obtain rfl : s = n := by omega
      rw [List.getElem?_append_right (by omega), hlen, Nat.add_sub_cancel_left]
      simp [hk]

theorem length_spreadOrder (freq : Freq) : (spreadOrder freq).length = cumul freq 256 :=
  length_orderTo freq 256

/-- Occurrence `k` of symbol `s` stands at `cumul[s] + k`. -/
theorem spreadOrder_place {s k : ℕ} (hs : s < 256) (hk : k < freq s) :
    (spreadOrder freq)[cumul freq s + k]? = some (s, k) := orderTo_place hk 256 hs

theorem mem_spreadOrder {o : ℕ × ℕ} : o ∈ spreadOrder freq ↔ o.1 < 256 ∧ o.2 < freq o.1 := by
  obtain ⟨s, k⟩ := o
  simp [spreadOrder]

/-- What stands at place `i` is the occurrence whose place is `i`. -/
theorem place_spreadOrder {i : ℕ} (h : i < (spreadOrder freq).length) :
    cumul freq ((spreadOrder freq)[i]).1 + ((spreadOrder freq)[i]).2 = i := by
  -- every occurrence has a place, and there are as many places as occurrences
  have hnd : (spreadOrder freq).Nodup := by
    refine List.nodup_flatMap.mpr ⟨fun s _ => ?_, ?_⟩
    · exact List.nodup_range.map fun a b hab => congrArg Prod.snd hab
    · refine List.nodup_range.imp fun {a b} hab => ?_
      intro o ha hb
      simp only [List.mem_map] at ha hb
      obtain ⟨_, _, rfl⟩ := ha
      obtain ⟨_, _, hb⟩ := hb
      exact hab (congrArg Prod.fst hb).symm
  obtain ⟨h1, h2⟩ := mem_spreadOrder.mp (List.getElem_mem h)
  have h3 := spreadOrder_place h1 h2
  obtain ⟨h4, h5⟩ := List.getElem?_eq_some_iff.mp h3
  exact (List.Nodup.getElem_inj_iff hnd).mp h5

end Order

/-! ### Built tables are sound -/

section Sound

variable {P : TansParams} {freq : Freq} {t : Table}

theorem spreadNext_iterate (P : TansParams) : ∀ i, (spreadNext P)^[i] 0 = Ans.walk P.size P.spreadStep i
  | 0 => by simp [Ans.walk]
  | i + 1 => by
    rw [Function.iterate_succ_apply', spreadNext_iterate P i, spreadNext, TansParams.size,
      Nat.and_two_pow_sub_one_eq_mod, ← TansParams.size, Ans.walk_succ]

theorem buildEncodeState_apply (h : cumul freq 256 = P.size) {i : ℕ} (hi : i < P.size) :
    buildEncodeState P freq i = P.size + Ans.walk P.size P.spreadStep i := by
  have hlen : i < (spreadOrder freq).length := by rw [length_spreadOrder]; omega
  have := @Scatter.run_key _ _ (spreadNext P) (fun _ o => cumul freq o.1 + o.2)
    (fun pos _ => P.size + pos) (spreadOrder freq) 0 (fun _ => 0)
    (fun a b ha hb he => by simpa only [place_spreadOrder] using he) i hlen
  simp only [place_spreadOrder, spreadNext_iterate] at this
  exact this

theorem buildDecode_walk (h : cumul freq 256 = P.size) {i : ℕ} (hi : i < (spreadOrder freq).length) :
    buildDecode P freq (Ans.walk P.size P.spreadStep i) = decodeEntryOf P freq (spreadOrder freq)[i] := by
  have hlen : (spreadOrder freq).length = P.size := by rw [length_spreadOrder, h]
  have := @Scatter.run_key _ _ (spreadNext P) (fun pos _ => pos)
    (fun _ o => decodeEntryOf P freq o) (spreadOrder freq) 0 (fun _ => ⟨0, 0, 0⟩)
    (fun a b ha hb he => by
      simp only [spreadNext_iterate] at he
      exact Ans.walk_inj P.coprime (ha.trans_eq hlen) (hb.trans_eq hlen) he) i hi
  simp only [spreadNext_iterate] at this
  exact this

theorem freq_le_size (h : cumul freq 256 = P.size) {s : ℕ} (hs : s < 256) : freq s ≤ P.size := by
  have h1 := cumul_mono freq (show s + 1 ≤ 256 from hs)
  rw [cumul_succ] at h1
  omega

theorem tansBuildWith_eq_some (h : tansBuildWith P freq = some t) : cumul freq 256 = P.size ∧
    t = ⟨buildDecode P freq, buildEncodeState P freq, buildEncode P freq, freq, true⟩ := by
  simp only [tansBuildWith] at h
  split at h
  · cases h
  · next hne => exact ⟨by simpa using hne, by simpa using h.symm⟩

theorem tansBuildWith_freq (h : tansBuildWith P freq = some t) : t.freq = freq := by
  obtain ⟨-, rfl⟩ := tansBuildWith_eq_some h
  rfl

/-- The encode entry of a symbol that occurs. -/
theorem tansBuildWith_encode (h : tansBuildWith P freq = some t) {s : ℕ} (hs : s < 256) (hf : 0 < freq s) :
    t.encode s = ⟨freq s, freq s <<< (P.tableLog - Nat.log2 (freq s)), cumul freq s,
      P.tableLog - Nat.log2 (freq s)⟩ := by
  obtain ⟨-, rfl⟩ := tansBuildWith_eq_some h
  simp only [buildEncode]
  rw [if_neg (by omega)]

/-- A symbol has frequency 0 in the encode entries when it has it in the table built from. -/
theorem tansBuildWith_encode_freq (h : tansBuildWith P freq = some t) {s : ℕ} (hs : s < 256) :
    (t.encode s).freq = freq s := by
  by_cases hf : freq s = 0
  · obtain ⟨-, rfl⟩ := tansBuildWith_eq_some h
    simp [buildEncode, hf]
  · rw [tansBuildWith_encode h hs (by omega)]

/-- Place `i` of the encode table has the state of the walk's slot `i`. -/
theorem tansBuildWith_encodeState (h : tansBuildWith P freq = some t) {i : ℕ} (hi : i < P.size) :
    t.encodeState i = P.size + Ans.walk P.size P.spreadStep i := by
  obtain ⟨hsum, rfl⟩ := tansBuildWith_eq_some h
  exact buildEncodeState_apply hsum hi

theorem cumul_add_lt_size (h : cumul freq 256 = P.size) {s k : ℕ} (hs : s < 256) (hk : k < freq s) :
    cumul freq s + k < P.size := by
  have hcum := cumul_mono freq (show s + 1 ≤ 256 from hs)
  rw [cumul_succ] at hcum
  omega

/-- Every slot has an occurrence of a symbol. -/
theorem exists_occurrence (h : cumul freq 256 = P.size) {p : ℕ} (hp : p < P.size) : ∃ s k, s < 256 ∧ k < freq s ∧
    p = Ans.walk P.size P.spreadStep (cumul freq s + k) := by
  obtain ⟨i, hi, rfl⟩ := Ans.walk_surj P.coprime hp
  have hi' : i < (spreadOrder freq).length := by
    rw [length_spreadOrder, h]
    exact hi
  obtain ⟨hs, hk⟩ := mem_spreadOrder.mp (List.getElem_mem hi')
  refine ⟨_, _, hs, hk, ?_⟩
  rw [place_spreadOrder hi']
  rfl

/-- The slot of an occurrence has its decode entry. -/
theorem tansBuildWith_decode (h : tansBuildWith P freq = some t) {s k : ℕ} (hs : s < 256) (hk : k < freq s) :
    t.decode (Ans.walk P.size P.spreadStep (cumul freq s + k)) = decodeEntryOf P freq (s, k) := by
  obtain ⟨hsum, rfl⟩ := tansBuildWith_eq_some h
  obtain ⟨hlt, hget⟩ := List.getElem?_eq_some_iff.mp (spreadOrder_place hs hk)
  rw [← hget]
  exact buildDecode_walk hsum hlt

/-- The shift of the encode step is the one of `Ans.renorm`. -/
theorem nb_eq_renorm (h : tansBuildWith P freq = some t) {s : ℕ} (hs : s < 256) (hf : 0 < freq s) (X : ℕ) :
    t.nb s X = Ans.renorm P.tableLog (freq s) X := by
  rw [Table.nb, tansBuildWith_encode h hs hf, Ans.renorm]

/-- What it leaves of a state is the number of an occurrence. -/
theorem shiftRight_nb_bounds (h : tansBuildWith P freq = some t) {s : ℕ} (hs : s < 256) (hf : 0 < freq s) {X : ℕ}
    (hX : P.InRange X) : freq s ≤ X >>> t.nb s X ∧ X >>> t.nb s X < 2 * freq s := by
  obtain ⟨hsum, -⟩ := tansBuildWith_eq_some h
  have hX1 : X < 2 ^ (P.tableLog + 1) := by
    rw [← P.two_size]
    exact hX.2
  rw [nb_eq_renorm h hs hf]
  exact Ans.renorm_bounds hf (freq_le_size hsum hs) hX.1 hX1

/-- So the encode step picks occurrence `(X >> nb) - f` of the symbol. -/
theorem place_eq (h : tansBuildWith P freq = some t) {s : ℕ} (hs : s < 256) (hf : 0 < freq s) {X : ℕ}
    (hX : P.InRange X) : t.place s X = cumul freq s + (X >>> t.nb s X - freq s) := by
  obtain ⟨hsum, -⟩ := tansBuildWith_eq_some h
  obtain ⟨hge, hlt⟩ := shiftRight_nb_bounds h hs hf hX
  have hle := freq_le_size hsum hs
  have hsize := P.size_le
  rw [Table.place, tansBuildWith_encode h hs hf]
  simp only [subU32_of_le hge (show X >>> t.nb s X < 2 ^ 32 by omega)]

/-- A slot leads to a state, whatever bits are read. -/
theorem decodeEntryOf_bounds (h : cumul freq 256 = P.size) {s k : ℕ} (hs : s < 256) (hk : k < freq s) :
    P.size ≤ (decodeEntryOf P freq (s, k)).nextStateBase ∧
      (decodeEntryOf P freq (s, k)).nextStateBase + 2 ^ (decodeEntryOf P freq (s, k)).nbBits ≤ 2 * P.size := by
  have hle := freq_le_size h hs
  have htwo := P.two_size
  rw [htwo]
  exact Ans.base_bounds (y := freq s + k) (by omega) (by omega)

/-- The slot the encode step picks gives the symbol back, and what the step took off the state. -/
theorem decode_encodeState (h : tansBuildWith P freq = some t) {s X : ℕ} (hs : s < 256) (hf : 0 < freq s)
    (hX : P.InRange X) : t.decode (t.encodeState (t.place s X) - P.size)
      = ⟨UInt8.ofNat s, t.nb s X, (X >>> t.nb s X) <<< t.nb s X⟩ := by
  obtain ⟨hsum, -⟩ := tansBuildWith_eq_some h
  obtain ⟨hge, hlt⟩ := shiftRight_nb_bounds h hs hf hX
  have hk : X >>> t.nb s X - freq s < freq s := by omega
  have hX1 : X < 2 ^ (P.tableLog + 1) := by
    rw [← P.two_size]
    exact hX.2
  have hnb : t.nb s X ≤ P.tableLog := nb_eq_renorm h hs hf X ▸ Ans.renorm_le ..
  have hback : P.tableLog - Nat.log2 (X >>> t.nb s X) = t.nb s X := Ans.renorm_eq hX.1 hX1 hnb
  rw [place_eq h hs hf hX, tansBuildWith_encodeState h (cumul_add_lt_size hsum hs hk), Nat.add_sub_cancel_left,
    tansBuildWith_decode h hs hk, decodeEntryOf]
  simp only [Nat.add_sub_cancel' hge, hback]

/-- **Every built table can code.** -/
theorem tansBuildWith_sound (h : tansBuildWith P freq = some t) : t.Sound P := by
  obtain ⟨hsum, ht⟩ := tansBuildWith_eq_some h
  refine ⟨by rw [ht], fun p hp => ?_, fun s X => ?_, fun s X hf hX => ?_⟩
  · obtain ⟨s, k, hs, hk, rfl⟩ := exists_occurrence hsum hp
    obtain ⟨hge, hle⟩ := decodeEntryOf_bounds hsum hs hk
    rw [tansBuildWith_decode h hs hk]
    exact ⟨hge, hle, Nat.sub_le _ _⟩
  · rw [Table.nb, ht]
    simp only [buildEncode]
    split <;> split <;> simp only <;> omega
  · have hs : s.toNat < 256 := UInt8.toNat_lt s
    rw [tansBuildWith_encode_freq h hs] at hf
    obtain ⟨hge, hlt⟩ := shiftRight_nb_bounds h hs hf hX
    have hplace : t.place s.toNat X < P.size := by
      rw [place_eq h hs hf hX]
      exact cumul_add_lt_size hsum hs (by omega)
    have hwalk := @Ans.walk_lt _ P.spreadStep P.size_pos (t.place s.toNat X)
    refine ⟨hplace, ?_, ?_⟩
    · rw [tansBuildWith_encodeState h hplace]
      exact ⟨by omega, by omega⟩
    · rw [decode_encodeState h hs hf hX, UInt8.ofNat_toNat]

/-- The more frequent a symbol, the fewer bits it takes. -/
theorem nb_le_of_log2 (h : tansBuildWith P freq = some t) {s : ℕ} (hs : s < 256) (hf : 0 < freq s) (X : ℕ) :
    t.nb s X ≤ P.tableLog - Nat.log2 (freq s) := by
  rw [Table.nb, tansBuildWith_encode h hs hf]
  simp only
  split <;> omega

/-- The rarer a symbol, the more bits it takes. -/
theorem le_nb_of_le_two_pow (h : tansBuildWith P freq = some t) {s : ℕ} (hs : s < 256) (hf : 0 < freq s) {k : ℕ}
    (hk : freq s ≤ 2 ^ k) (hlog : k ≤ P.tableLog) {X : ℕ} (hX : P.InRange X) : P.tableLog - k ≤ t.nb s X := by
  rw [Table.nb, tansBuildWith_encode h hs hf]
  simp only
  rcases Nat.lt_or_eq_of_le hk with hlt | heq
  · have := (Nat.log2_lt hf.ne').mpr hlt
    split <;> omega
  · have hlower : freq s <<< (P.tableLog - Nat.log2 (freq s)) ≤ X := by
      rw [heq, Nat.log2_two_pow, Nat.shiftLeft_eq, ← pow_add, Nat.add_sub_cancel' hlog]
      exact hX.1
    rw [if_pos (.inr hlower), heq, Nat.log2_two_pow]

end Sound

-- 4096 is no number to count down from when two slots are compared
attribute [irreducible] TansParams.size

end Netc
