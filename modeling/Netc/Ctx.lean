/-
# Contexts

`netc_ctx_t`: the configuration of a connection, its history (the ring, the
last two packets), the sequence counter, the scratch arena, the statistics and
the adaptive model. `netc_ctx.c` creates and resets contexts; the history
functions of `netc_compress.c` and `netc_decompress.c`, and the updates of
`netc_adaptive.h`, are what both sides of a connection do after each packet.

`Ctx.Wf` is what every context keeps from its creation on.

Key definitions: `Ctx`, `ctxCreate`, `ctxReset`, `Ctx.updatePrev`, `Ctx.appendRing`,
`Ctx.adaptiveUpdate`, `Ctx.learn`, `Ctx.Wf`.
Key theorems: `ctxCreate_wf`, `ctxReset_wf`, `Ctx.Wf.learn`, `normalisation_exact`.
-/
import Netc.Dict
import Netc.Delta
import Netc.Lz77x

namespace Netc

/-- `netc_stats_t`, 64-bit counters. -/
structure Stats where
  packetsCompressed : ℕ
  packetsDecompressed : ℕ
  bytesIn : ℕ
  bytesOut : ℕ
  passthroughCount : ℕ
  deriving DecidableEq, Repr

/-- All counters zero. -/
def Stats.zero : Stats := ⟨0, 0, 0, 0, 0⟩

/-- `netc_cfg_t` -/
structure Cfg where
  flags : UInt32
  ringBufferSize : ℕ
  simdLevel : UInt8
  arenaSize : ℕ
  deriving DecidableEq, Repr

/-- `adapt_freq`, `adapt_total` and `adapt_tables`, which are allocated together. -/
structure Adapt where
  freq : ℕ → Freq
  total : ℕ → ℕ
  tables : ℕ → Table

/-- `netc_ctx_t` -/
structure Ctx where
  dict : Option Dict
  flags : UInt32
  simdOps : SimdLevel
  ring : Option Block
  ringPos : ℕ
  prevPkt : Option Block
  prevPktSize : ℕ
  prev2Pkt : Option Block
  prev2PktSize : ℕ
  contextSeq : UInt8
  arena : Block
  stats : Stats
  adapt : Option Adapt
  adaptLzp : Option LzpTable
  adaptPktCount : ℕ

/-! ### Creation and reset -/

/-- `NETC_DEFAULT_RING_SIZE` -/
def defaultRingSize : ℕ := 65536

/-- `NETC_DEFAULT_ARENA_SIZE` -/
def defaultArenaSize : ℕ := maxPacketSize * 2 + 64

/-- `NETC_CFG_DEFAULT`, for a `NULL` configuration. -/
def cfgDefault : Cfg := ⟨CfgFlag.stateful, 0, 0, 0⟩

/-- The LZP table of a dictionary with its entries at confidence 4. -/
def boostLzp (lzp : LzpTable) : LzpTable := fun j => if (lzp j).valid ≠ 0 then { lzp j with valid := 4 } else lzp j

/-- The accumulators at zero and the tables of the dictionary, if there is one. -/
def Adapt.fresh (dict : Option Dict) : Adapt :=
  ⟨fun _ _ => 0, fun _ => 0, match dict with
    | some d => d.tables
    | none => fun _ => .zero⟩

/-- `netc_ctx_create`, where every allocation succeeds; `junk` is what the
arena's memory held. -/
def ctxCreate (pf : Platform) (dict : Option Dict) (cfg : Cfg) (junk : ℕ → UInt8) : Option Ctx :=
  let stateful := CfgFlag.has cfg.flags CfgFlag.stateful
  let adaptive := CfgFlag.has cfg.flags CfgFlag.adaptive
  if adaptive && !stateful then none
  else
    let ringSize := if 0 < cfg.ringBufferSize then cfg.ringBufferSize % 2 ^ 32 else defaultRingSize
    some {
      dict
      flags := cfg.flags
      simdOps := simdOpsInit pf cfg.simdLevel.toNat
      ring := if stateful then some (.zero ringSize) else none
      ringPos := 0
      prevPkt := if stateful then some (.zero maxPacketSize) else none
      prevPktSize := 0
      prev2Pkt := if adaptive then some (.zero maxPacketSize) else none
      prev2PktSize := 0
      contextSeq := 0
      arena := ⟨if 0 < cfg.arenaSize then cfg.arenaSize else defaultArenaSize, junk⟩
      stats := .zero
      adapt := if adaptive then some (.fresh dict) else none
      adaptLzp := if adaptive then (dict.bind Dict.lzpTable).map boostLzp else none
      adaptPktCount := 0 }

/-- `netc_ctx_reset` -/
def ctxReset (ctx : Ctx) : Ctx :=
  { ctx with
    ring := ctx.ring.map fun r => .zero r.size
    ringPos := if ctx.ring.isSome then 0 else ctx.ringPos
    prevPkt := ctx.prevPkt.map fun _ => .zero maxPacketSize
    prevPktSize := 0
    contextSeq := 0
    stats := .zero
    prev2Pkt := ctx.prev2Pkt.map fun _ => .zero maxPacketSize
    prev2PktSize := if ctx.prev2Pkt.isSome then 0 else ctx.prev2PktSize
    adapt := ctx.adapt.map fun a => ⟨fun _ _ => 0, fun _ => 0, match ctx.dict with
      | some d => d.tables
      | none => a.tables⟩
    adaptLzp :=
      if ctx.adapt.isSome then
        match ctx.adaptLzp, ctx.dict.bind Dict.lzpTable with
        | some _, some lzp => some (boostLzp lzp)
        | l, _ => l
      else ctx.adaptLzp
    adaptPktCount := if ctx.adapt.isSome then 0 else ctx.adaptPktCount }

/-! ### After each packet -/

namespace Ctx

/-- `compress_update_prev`, `decomp_update_prev` -/
def updatePrev (ctx : Ctx) (data : List UInt8) : Ctx :=
  match ctx.prevPkt with
  | none => ctx
  | some prev =>
    let ctx :=
      match ctx.prev2Pkt with
      | none => ctx
      | some prev2 => { ctx with
          prev2Pkt := some (prev2.write 0 (ByteMem.slice prev.byte 0 ctx.prevPktSize))
          prev2PktSize := ctx.prevPktSize }
    { ctx with prevPkt := some (prev.write 0 data), prevPktSize := data.length }

/-- `ctx_ring_append`, `decomp_ring_append` -/
def appendRing (ctx : Ctx) (data : List UInt8) : Ctx :=
  match ctx.ring with
  | none => ctx
  | some ring =>
    let r := ringAppend ring ctx.ringPos data
    { ctx with ring := some r.1, ringPos := r.2 }

/-- `f` applied to the statistics, if they are kept. -/
def tally (ctx : Ctx) (f : Stats → Stats) : Ctx :=
  if CfgFlag.has ctx.flags CfgFlag.stats then { ctx with stats := f ctx.stats } else ctx

end Ctx

/-- The counting loop of `netc_adaptive_update`, 32-bit counters. -/
def adaptCountFrom : ℕ → List UInt8 → (ℕ → Freq) × (ℕ → ℕ) → (ℕ → Freq) × (ℕ → ℕ)
  | _, [], c => c
  | i, x :: data, (freq, total) =>
    let b := ctxBucket i
    adaptCountFrom (i + 1) data
      (Function.update freq b (Function.update (freq b) x.toNat ((freq b x.toNat + 1) % 2 ^ 32)),
        Function.update total b ((total b + 1) % 2 ^ 32))

/-- The blended count of symbol `s` in `netc_adaptive_tables_rebuild`. -/
def blend (dictFreq accum : Freq) (bucketTotal s : ℕ) : ℕ :=
  if 0 < bucketTotal then accum s * 3 + dictFreq s * bucketTotal / 4096 * (4 - 3) else dictFreq s

/-- The table of bucket `b` after `netc_adaptive_tables_rebuild`. -/
def rebuildTable (d : Dict) (a : Adapt) (b : ℕ) : Table :=
  let blended := blend (d.tables b).freq (a.freq b) (a.total b)
  match tansBuild (freqNormalizeAdaptive blended (cumul blended 256 % 2 ^ 64)) with
  | some t => t
  | none => d.tables b

namespace Ctx

/-- `netc_adaptive_tables_rebuild` -/
def rebuildTables (ctx : Ctx) (a : Adapt) : Adapt :=
  match ctx.dict with
  | none => a
  | some d => { a with tables := fun b => if b < ctxCount then rebuildTable d a b else a.tables b }

/-- `netc_adaptive_update`; 128 is `NETC_ADAPTIVE_INTERVAL`. -/
def adaptiveUpdate (ctx : Ctx) (data : List UInt8) : Ctx :=
  match ctx.adapt with
  | none => ctx
  | some a =>
    let c := adaptCountFrom 0 data (a.freq, a.total)
    let a := { a with freq := c.1, total := c.2 }
    let count := (ctx.adaptPktCount + 1) % 2 ^ 32
    if 128 ≤ count then { ctx with adapt := some (ctx.rebuildTables a), adaptPktCount := 0 }
    else { ctx with adapt := some a, adaptPktCount := count }

/-- The updates of the adaptive model: `netc_adaptive_update`, then
`netc_lzp_adaptive_update`. -/
def learn (ctx : Ctx) (data : List UInt8) : Ctx :=
  let ctx := ctx.adaptiveUpdate data
  { ctx with adaptLzp := lzpAdaptiveUpdate ctx.adaptLzp data }

section ContextSeq

variable (ctx : Ctx) (data : List UInt8)

@[simp] theorem learn_contextSeq : (ctx.learn data).contextSeq = ctx.contextSeq := by
  simp only [learn, adaptiveUpdate]
  rcases ctx.adapt with _ | a
  · rfl
  · simp only
    split <;> rfl

@[simp] theorem tally_contextSeq (f : Stats → Stats) : (ctx.tally f).contextSeq = ctx.contextSeq := by
  rw [tally]
  split <;> rfl

@[simp] theorem updatePrev_contextSeq : (ctx.updatePrev data).contextSeq = ctx.contextSeq := by
  simp only [updatePrev]
  rcases ctx.prevPkt with _ | prev
  · rfl
  · rcases ctx.prev2Pkt with _ | prev2 <;> rfl

@[simp] theorem appendRing_contextSeq : (ctx.appendRing data).contextSeq = ctx.contextSeq := by
  simp only [appendRing]
  rcases ctx.ring with _ | ring <;> rfl

end ContextSeq

/-- `netc_get_tables`, given the dictionary. -/
def getTables (ctx : Ctx) (d : Dict) : ℕ → Table :=
  match ctx.adapt with
  | some a => a.tables
  | none => d.tables

/-- `netc_get_lzp_table` -/
def getLzpTable (ctx : Ctx) : Option LzpTable :=
  match ctx.adaptLzp with
  | some l => some l
  | none => ctx.dict.bind Dict.lzpTable

/-- The compact header mode. -/
def compactMode (ctx : Ctx) : Bool := CfgFlag.has ctx.flags CfgFlag.compactHdr

/-- `ctx->ring != NULL && ctx->ring_size > 0` -/
def hasRing (ctx : Ctx) : Bool :=
  match ctx.ring with
  | some r => decide (0 < r.size)
  | none => false

/-- The `model_id` of a header. -/
def modelId (ctx : Ctx) : UInt8 :=
  match ctx.dict with
  | some d => d.modelId
  | none => 0

/-! ### What every context keeps -/

/-- **The invariant of contexts.** -/
structure Wf (ctx : Ctx) : Prop where
  dict : ∀ d, ctx.dict = some d → d.Sound
  prev : ∀ p, ctx.prevPkt = some p → p.size = maxPacketSize
  prev_le : ctx.prevPktSize ≤ maxPacketSize
  prev_none : ctx.prevPkt = none → ctx.prevPktSize = 0
  prev2 : ∀ p, ctx.prev2Pkt = some p → p.size = maxPacketSize
  ring : ∀ r, ctx.ring = some r → ctx.ringPos < r.size ∨ r.size = 0 ∧ ctx.ringPos = 0
  tables : ∀ a d, ctx.adapt = some a → ctx.dict = some d → ∀ b < ctxCount, FullTable (a.tables b)
  lzp : ctx.adaptLzp.isSome → ctx.dict.isSome

section Wf

variable {ctx : Ctx}

/-- The tables in use are full. -/
theorem Wf.getTables (h : ctx.Wf) {d : Dict} (hd : ctx.dict = some d) {b : ℕ} (hb : b < ctxCount) :
    FullTable (ctx.getTables d b) := by
  rw [Ctx.getTables]
  cases ha : ctx.adapt with
  | none => exact (h.dict d hd).table b hb
  | some a => exact h.tables a d ha hd b hb

theorem Wf.getLzpTable_isSome (h : ctx.Wf) {d : Dict} (hd : ctx.dict = some d) : ctx.getLzpTable.isSome := by
  rw [Ctx.getLzpTable]
  cases ctx.adaptLzp with
  | some l => rfl
  | none => simpa [hd] using (h.dict d hd).lzp

theorem Wf.updatePrev (h : ctx.Wf) {data : List UInt8} (hlen : data.length ≤ maxPacketSize) :
    (ctx.updatePrev data).Wf := by
  rw [Ctx.updatePrev]
  cases hp : ctx.prevPkt with
  | none => exact h
  | some p =>
    have hsize := h.prev p hp
    cases hp2 : ctx.prev2Pkt with
    | none =>
      exact ⟨h.dict, by simpa using hsize, hlen, by simp, by simp [hp2], h.ring, h.tables, h.lzp⟩
    | some p2 =>
      have hsize2 := h.prev2 p2 hp2
      exact ⟨h.dict, by simpa using hsize, hlen, by simp, by simpa using hsize2, h.ring, h.tables, h.lzp⟩

theorem Wf.appendRing (h : ctx.Wf) (data : List UInt8) : (ctx.appendRing data).Wf := by
  rw [Ctx.appendRing]
  cases hr : ctx.ring with
  | none => exact h
  | some r =>
    refine ⟨h.dict, h.prev, h.prev_le, h.prev_none, h.prev2, ?_, h.tables, h.lzp⟩
    rintro r' ⟨⟩
    simpa using ringAppend_pos (h.ring r hr) data

theorem Wf.tally (h : ctx.Wf) (f : Stats → Stats) : (ctx.tally f).Wf := by
  rw [Ctx.tally]
  split
  · exact ⟨h.dict, h.prev, h.prev_le, h.prev_none, h.prev2, h.ring, h.tables, h.lzp⟩
  · exact h

theorem rebuildTable_full {d : Dict} (hd : d.Sound) (a : Adapt) {b : ℕ} (hb : b < ctxCount) :
    FullTable (rebuildTable d a b) := by
  unfold rebuildTable
  simp only
  split
  · next t ht =>
    refine ⟨_, ht, fun s _ => ?_⟩
    rw [freqNormalizeAdaptive]
    exact freqNormalize_pos ..
  · exact hd.table b hb

theorem Wf.adaptiveUpdate (h : ctx.Wf) (data : List UInt8) : (ctx.adaptiveUpdate data).Wf := by
  rw [Ctx.adaptiveUpdate]
  cases ha : ctx.adapt with
  | none => exact h
  | some a =>
    have htab := h.tables a
    simp only
    split
    · refine ⟨h.dict, h.prev, h.prev_le, h.prev_none, h.prev2, h.ring, ?_, h.lzp⟩
      rintro a' d ⟨⟩ hd b hb
      have hd' : ctx.dict = some d := hd
      simp only [rebuildTables, hd', if_pos hb]
      exact rebuildTable_full (h.dict d hd') _ hb
    · refine ⟨h.dict, h.prev, h.prev_le, h.prev_none, h.prev2, h.ring, ?_, h.lzp⟩
      rintro a' d ⟨⟩ hd b hb
      exact htab d ha hd b hb

theorem Wf.learn (h : ctx.Wf) (data : List UInt8) : (ctx.learn data).Wf := by
  have h' := h.adaptiveUpdate data
  refine ⟨h'.dict, h'.prev, h'.prev_le, h'.prev_none, h'.prev2, h'.ring, h'.tables, fun hl => h'.lzp ?_⟩
  simpa [Ctx.learn, lzpAdaptiveUpdate] using hl

end Wf

end Ctx

/-- Position 0 is one of the ring's, if it has any. -/
theorem ring_start (r : Block) : 0 < r.size ∨ r.size = 0 ∧ (0 : ℕ) = 0 :=
  (Nat.eq_zero_or_pos r.size).elim (fun h => .inr ⟨h, rfl⟩) .inl

/-- A context starts well-formed. -/
theorem ctxCreate_wf {pf : Platform} {dict : Option Dict} (hd : ∀ d, dict = some d → d.Sound) {cfg : Cfg}
    {junk : ℕ → UInt8} {ctx : Ctx} (h : ctxCreate pf dict cfg junk = some ctx) : ctx.Wf := by
  simp only [ctxCreate] at h
  split at h
  · cases h
  · simp only [Option.some.injEq] at h
    subst h
    refine ⟨hd, ?_, by simp, by simp, ?_, ?_, ?_, ?_⟩
    · intro p hp
      simp only [Option.ite_none_right_eq_some, Option.some.injEq] at hp
      rw [← hp.2]
      rfl
    · intro p hp
      simp only [Option.ite_none_right_eq_some, Option.some.injEq] at hp
      rw [← hp.2]
      rfl
    · exact fun r _ => ring_start r
    · intro a d ha hdict b hb
      simp only [Option.ite_none_right_eq_some, Option.some.injEq] at ha hdict
      rw [← ha.2, hdict]
      exact (hd d hdict).table b hb
    · intro hl
      simp only at hl ⊢
      split at hl
      · cases dict with
        | none => simp at hl
        | some d => rfl
      · simp at hl

/-- A reset keeps a context well-formed. -/
theorem ctxReset_wf {ctx : Ctx} (h : ctx.Wf) : (ctxReset ctx).Wf := by
  refine ⟨h.dict, ?_, by simp [ctxReset], by simp [ctxReset], ?_, ?_, ?_, ?_⟩
  · intro p hp
    simp only [ctxReset, Option.map_eq_some_iff] at hp
    obtain ⟨q, -, rfl⟩ := hp
    rfl
  · intro p hp
    simp only [ctxReset, Option.map_eq_some_iff] at hp
    obtain ⟨q, -, rfl⟩ := hp
    rfl
  · intro r hr
    simp only [ctxReset, Option.map_eq_some_iff] at hr
    obtain ⟨q, hq, rfl⟩ := hr
    have hpos : (ctxReset ctx).ringPos = 0 := by simp [ctxReset, hq]
    rw [hpos]
    exact ring_start _
  · intro a d ha hd b hb
    have hd' : ctx.dict = some d := hd
    simp only [ctxReset, hd', Option.map_eq_some_iff] at ha
    obtain ⟨a', -, rfl⟩ := ha
    exact (h.dict d hd').table b hb
  · intro hl
    refine h.lzp ?_
    cases ha : ctx.adaptLzp with
    | some l => rfl
    | none => simp [ctxReset, ha] at hl

/-! ### Rebuilding never falls back -/

/-- The frequencies of a dictionary are 16 bits wide. -/
def Dict.InWidth (d : Dict) : Prop := ∀ b < Netc.ctxCount, ∀ s < 256, (d.tables b).freq s < 2 ^ 16

/-- The accumulators are 32 bits wide. -/
def Adapt.InWidth (a : Adapt) : Prop := ∀ b < ctxCount, a.total b < 2 ^ 32 ∧ ∀ s < 256, a.freq b s < 2 ^ 32

section Rebuild

variable {d : Dict} {a : Adapt} {b : ℕ}

/-- The blended counts do not come near the end of a 64-bit total. -/
theorem cumul_blend_lt (hd : d.InWidth) (ha : a.InWidth) (hb : b < ctxCount) :
    cumul (blend (d.tables b).freq (a.freq b) (a.total b)) 256 < 2 ^ 64 := by
  obtain ⟨htotal, hfreq⟩ := ha b hb
  have hle : ∀ s < 256, blend (d.tables b).freq (a.freq b) (a.total b) s ≤ 2 ^ 48 := by
    intro s hs
    have h1 := hfreq s hs
    have h2 := hd b hb s hs
    rw [blend]
    split
    · have h3 : (d.tables b).freq s * a.total b ≤ 2 ^ 16 * 2 ^ 32 := Nat.mul_le_mul h2.le htotal.le
      omega
    · omega
  have := cumul_le_mul hle
  omega

/-- The table of a bucket after a rebuild is the one built from the blended counts. -/
theorem rebuildTable_built (hd : d.InWidth) (ha : a.InWidth) (hb : b < ctxCount) :
    tansBuild (freqNormalizeAdaptive (blend (d.tables b).freq (a.freq b) (a.total b))
      (cumul (blend (d.tables b).freq (a.freq b) (a.total b)) 256)) = some (rebuildTable d a b) := by
  have hmod := Nat.mod_eq_of_lt (cumul_blend_lt hd ha hb)
  have hsum := cumul_freqNormalize (Eq.refl (cumul (blend (d.tables b).freq (a.freq b) (a.total b)) 256))
  unfold rebuildTable
  simp only
  rw [hmod]
  split
  · next t ht => exact ht
  · next hnone =>
    -- the sum is right, so the table is built
    have hsome := tansBuild_isSome hsum
    rw [freqNormalizeAdaptive] at hnone
    rw [hnone] at hsome
    cases hsome

end Rebuild

/-- **Normalisation is exact and total.** Counts are scaled to frequencies of at least one that sum to the
table size, in training and on adaptive connections. So training never fails to build a table; and a rebuild
makes every table anew, for every content of the accumulators and every dictionary, with each byte value in
it. -/
theorem normalisation_exact :
    (∀ (raw : Freq) (total : ℕ), total = cumul raw 256 → total * 3840 < 2 ^ 64 →
      ((∀ s < 256, 1 ≤ freqNormalize raw total s) ∧ cumul (freqNormalize raw total) 256 = 4096) ∧
      (∀ s < 256, 1 ≤ freqNormalizeAdaptive raw total s) ∧ cumul (freqNormalizeAdaptive raw total) 256 = 4096) ∧
    (∀ packets modelId, dictTrain packets modelId ≠ .error .errNomem) ∧
    (∀ (ctx : Ctx) (d : Dict) (a : Adapt), ctx.dict = some d → d.InWidth → a.InWidth → ∀ b < ctxCount,
      tansBuild (freqNormalizeAdaptive (blend (d.tables b).freq (a.freq b) (a.total b))
        (cumul (blend (d.tables b).freq (a.freq b) (a.total b)) 256)) = some ((ctx.rebuildTables a).tables b) ∧
      ((ctx.rebuildTables a).tables b).valid = true ∧ ∀ s < 256, 0 < ((ctx.rebuildTables a).tables b).freq s) := by
  have hnorm : ∀ (raw : Freq) (total : ℕ), total = cumul raw 256 →
      (∀ s < 256, 1 ≤ freqNormalize raw total s) ∧ cumul (freqNormalize raw total) 256 = 4096 :=
    fun raw total htotal => ⟨fun s _ => freqNormalize_pos raw total s, cumul_freqNormalize htotal⟩
  refine ⟨fun raw total htotal _ => ⟨hnorm raw total htotal, hnorm raw total htotal⟩, ?_, ?_⟩
  · intro packets modelId h
    by_cases hid : modelId = 0 ∨ modelId = 255
    · rw [dictTrain, if_pos hid] at h
      cases h
    · obtain ⟨d, hd⟩ := dictTrain_ok packets hid
      rw [hd] at h
      cases h
  · intro ctx d a hdict hd ha b hb
    have hbuilt := rebuildTable_built hd ha hb
    have htable : (ctx.rebuildTables a).tables b = rebuildTable d a b := by
      simp only [Ctx.rebuildTables, hdict, if_pos hb]
    rw [htable]
    refine ⟨hbuilt, (tansBuildWith_sound hbuilt).valid, fun s _ => ?_⟩
    rw [tansBuildWith_freq hbuilt, freqNormalizeAdaptive]
    exact freqNormalize_pos ..

end Netc
