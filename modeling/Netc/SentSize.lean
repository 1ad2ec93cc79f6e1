/-
# How small packets get

The frequencies in the tables of the dictionary bound what leaves the compressor. A byte of frequency `f` in
the table of its position costs at most `12 - log2 f` bits; a packet leaves with no more payload than these
make, the state and a byte for the end, whatever else was tried on it (`sent_size_le`). The bytes counted are
those the pre-passes make of the packet, residuals or a filtered packet. The other coders only compete: what
leaves instead of the tANS payload is shorter.

Key definitions: `draftTable`, `draftBits`.
Key theorems: `tryTansCompress_le`, `length_planCompetition_le`, `length_planDict_le`, `sent_size_le`.
-/
import Netc.Tans.Size
import Netc.Session

namespace Netc

/-- The table with which a tANS draft codes position `i` of a packet of `n` bytes: of the position's bucket,
and one table for a packet within the first bucket. -/
def draftTable (d : Dict) (tables : ℕ → Table) (ctxFlags : UInt32) (n i : ℕ) : Table :=
  if ctxBucket (n - 1) = 0 then selectTansTable d tables 0 0 ctxFlags else tables (ctxBucket i)

/-- The bits that the frequencies of these tables ask for. -/
def draftBits (d : Dict) (tables : ℕ → Table) (ctxFlags : UInt32) (bytes : List UInt8) : ℕ :=
  symbolBits (fun i _ => some (draftTable d tables ctxFlags bytes.length i)) (fun f => 12 - Nat.log2 f) 0 0 bytes

/-! ### One attempt -/

section Attempt

variable {d : Dict} {tables : ℕ → Table} {ctxFlags : UInt32} {compact : Bool} {src : List UInt8} {cap : ℕ}

theorem draftTable_full (h : TablesOk d tables) (n i : ℕ) : FullTable (draftTable d tables ctxFlags n i) := by
  unfold draftTable
  split
  · exact selectTansTable_full h (by decide) 0 ctxFlags
  · exact h.full _ (ctxBucket_lt i)

theorem codes_full {tbl : ℕ → Table} (h : ∀ i, FullTable (tbl i)) : ∀ (src : List UInt8) (i : ℕ) (prev : UInt8),
    Codes tans12 (fun i _ => some (tbl i)) i prev src
  | [], _, _ => trivial
  | b :: src, i, _ => by
    obtain ⟨freq, hbuild, hpos⟩ := h i
    exact ⟨⟨freq, tbl i, rfl, hbuild, hpos _ (UInt8.toNat_lt b)⟩, codes_full h src (i + 1) b⟩

/-- A stream that has room is closed behind its state. -/
theorem closeStream_size {enc : Bsw → ℕ × Bsw} {T : ℕ} (h : StreamBits (encodeFlush enc) T) (hcap : T / 8 + 1 ≤ cap)
    (compact : Bool) : ∃ p, (closeStream compact (enc (bswInit cap))).result = some (p, ()) ∧
      p.length = stateSz compact + (T / 8 + 1) := by
  obtain ⟨w, hw⟩ := (h.room cap).mpr hcap
  have hsize := h.size cap w hw
  rw [encodeFlush] at hw
  split at hw
  · cases hw
  · next hne =>
    rw [closeStream, if_neg hne, hw]
    exact ⟨_, rfl, by rw [List.length_append, length_writeState, hsize]⟩

/-- The stream of a draft has at most the bits its frequencies ask for. -/
theorem draft_stream (h : TablesOk d tables) {check : Bool} {enc : Bsw → ℕ × Bsw}
    (henc : ∀ w, enc w = encodeReturn (encodeRun check
      (fun i _ => some (draftTable d tables ctxFlags src.length i)) 0 0 src tans12.size w)) :
    ∃ T, StreamBits (encodeFlush enc) T ∧ T ≤ draftBits d tables ctxFlags src := by
  obtain ⟨T, hstream, -, hle⟩ := encodeRun_stream_bits tans12.inRange_size
    (codes_full (@draftTable_full d tables ctxFlags h src.length) src 0 0) henc
  exact ⟨T, hstream, hle⟩

/-- A packet within the first bucket is coded with one table and one state. -/
theorem tansSingleRegion_le (h : TablesOk d tables) (hne : src ≠ []) (hbucket : ctxBucket (src.length - 1) = 0)
    (hcap : stateSz compact + draftBits d tables ctxFlags src / 8 + 1 ≤ cap) :
    ∃ p info, (tansSingleRegion d tables src cap ctxFlags compact).result = some (p, info) ∧
      p.length ≤ stateSz compact + draftBits d tables ctxFlags src / 8 + 1 := by
  have hfull := selectTansTable_full h (show 0 < ctxCount by decide) 0 ctxFlags
  have hshort := ctxBucket_eq_zero hbucket
  have htable : singleRegionTable d tables src ctxFlags compact = some (selectTansTable d tables 0 0 ctxFlags, 0) := by
    rw [singleRegionTable, hbucket]
    simp only [Nat.lt_irrefl, decide_false, Bool.and_false, Bool.false_eq_true, if_false]
  have hx2 : wantsX2 src.length cap ctxFlags compact = false := by
    rw [wantsX2, decide_eq_false (show ¬256 ≤ src.length by omega), Bool.and_false, Bool.false_and]
  have hempty : src.isEmpty = false := by simpa using hne
  obtain ⟨T, hstream, hT⟩ := @draft_stream d tables ctxFlags src h false
    (fun w => tansEncode (selectTansTable d tables 0 0 ctxFlags) src w tans12.size) fun w => by
      simp only [draftTable, if_pos hbucket, tansEncode, tansEncodeWith, hfull.valid, hempty, startState_size,
        Bool.not_true, Bool.or_self, Bool.false_eq_true, if_false]
  have hdiv := Nat.div_le_div_right (c := 8) hT
  obtain ⟨p, hp, hlen⟩ := closeStream_size hstream (show T / 8 + 1 ≤ cap - stateSz compact by omega) compact
  refine ⟨p, ⟨0, false, 0⟩, ?_, by omega⟩
  rw [tansSingleRegion, htable]
  simp only [tansSingleWithTable, hfull.valid, hx2, tansOneAttempt, if_neg (show ¬cap < stateSz compact by omega), hp,
    Bool.not_true, Bool.false_eq_true, if_false, Option.map_some]

theorem length_pctxBest_le (p : List UInt8) : (pctxBest d tables src cap ctxFlags compact p).1.length ≤ p.length := by
  unfold pctxBest
  split
  · split
    · split
      · next hlt => exact hlt.le
      · exact le_refl _
    · exact le_refl _
  · exact le_refl _

theorem pctxOrSingle_le (p : List UInt8) : ∃ q info, (pctxOrSingle d tables src cap ctxFlags compact p).result
    = some (q, info) ∧ q.length ≤ p.length := by
  have hbest := @length_pctxBest_le d tables ctxFlags compact src cap p
  unfold pctxOrSingle
  simp only
  split
  · next q info _ =>
    split
    · next hlt => exact ⟨q, info, rfl, hlt.le.trans hbest⟩
    · exact ⟨_, _, rfl, hbest⟩
  · exact ⟨_, _, rfl, hbest⟩

/-- **An attempt with room** gives a payload of at most the bits its frequencies ask for. -/
theorem tryTansCompress_le (h : TablesOk d tables) (hne : src ≠ [])
    (hcap : stateSz compact + draftBits d tables ctxFlags src / 8 + 1 ≤ cap) :
    ∃ p info, (tryTansCompress d tables src cap ctxFlags compact).result = some (p, info) ∧
      p.length ≤ stateSz compact + draftBits d tables ctxFlags src / 8 + 1 := by
  have hlen : src.length ≠ 0 := fun h0 => hne (List.length_eq_zero_iff.mp h0)
  rw [tryTansCompress, if_neg hlen]
  by_cases hbucket : ctxBucket (src.length - 1) = 0
  · rw [if_pos hbucket]
    exact tansSingleRegion_le h hne hbucket hcap
  · have hvalid : ((List.range (ctxBucket (src.length - 1) + 1)).any fun b => !(tables b).valid) = false := by
      rw [List.any_eq_false]
      intro b hb
      have hlt := ctxBucket_lt (src.length - 1)
      rw [(h.full b (by rw [List.mem_range] at hb; omega)).valid]
      decide
    have hempty : src.isEmpty = false := by simpa using hne
    obtain ⟨T, hstream, hT⟩ := @draft_stream d tables ctxFlags src h true
      (fun w => tansEncodePctx tables src w tans12.size) fun w => by
        have hsel : pctxSelect tables = fun i _ => some (draftTable d tables ctxFlags src.length i) := by
          funext i _
          rw [pctxSelect, Table.ifValid, (h.full _ (ctxBucket_lt i)).valid, if_pos rfl, draftTable, if_neg hbucket]
        rw [tansEncodePctx, hempty, if_neg (by simp), startState_size, hsel]
    have hdiv := Nat.div_le_div_right (c := 8) hT
    obtain ⟨p, hp, hplen⟩ := closeStream_size hstream (show T / 8 + 1 ≤ cap - stateSz compact by omega) compact
    rw [if_neg hbucket, hvalid, if_neg (by simp), if_pos (show stateSz compact ≤ cap by omega)]
    simp only [pctxAttempt, hp]
    obtain ⟨q, info, hq, hle⟩ := @pctxOrSingle_le d tables ctxFlags compact src cap p
    exact ⟨q, info, hq, by omega⟩

end Attempt

/-! ### The competition -/

namespace Job

variable {j : Job}

theorem length_planLzp_le (d : Draft) : (j.planLzp d).payload.length ≤ d.payload.length := by
  unfold planLzp
  split
  · exact le_refl _
  · split
    · split
      · split
        · next hlt => exact hlt.le
        · exact le_refl _
      · exact le_refl _
    · exact le_refl _

theorem length_plan10_le (bytes : List UInt8) (d : Draft) : (j.plan10 bytes d).payload.length ≤ d.payload.length := by
  unfold plan10
  split
  · split
    · next p hp =>
      obtain ⟨_, -, -, hlt⟩ := tans10Trial_eq hp
      exact hlt.le
    · exact le_refl _
  · exact le_refl _

/-- A source whose bits are fewer than the packet's own gives a draft. -/
theorem tansDraft_le (h : TablesOk j.dict j.tables) {s : Source} (hlen : s.bytes.length = j.src.length)
    {flags : UInt32} (hcap : j.src.length ≤ j.payloadRoom)
    (hlt : stateSz j.compact + draftBits j.dict j.tables flags s.bytes / 8 + 1 < j.src.length) :
    ∃ w, j.tansDraft s flags = some w ∧
      w.payload.length ≤ stateSz j.compact + draftBits j.dict j.tables flags s.bytes / 8 + 1 := by
  have hne : s.bytes ≠ [] := by
    intro h0
    rw [h0, List.length_nil] at hlen
    omega
  obtain ⟨p, info, hp, hle⟩ := @tryTansCompress_le _ _ flags j.compact _ j.payloadRoom h hne (by omega)
  refine ⟨⟨⟨info, false, s.pktFlags, s.didDelta, s.didLzp, flags⟩, p⟩, ?_, hle⟩
  rw [tansDraft, hp]
  exact if_pos (lt_of_le_of_lt hle hlt)

/-- A winner of LZ77 is shorter than what it competes with. -/
theorem length_lz77Wins_lt {size : ℕ} {r : Except (List UInt8) (List UInt8)} {f : List UInt8 → Packet}
    (hf : ∀ lz, (f lz).payload = lz) {p : Packet} (h : (j.lz77Wins size r).map f = some p) :
    p.payload.length < size := by
  obtain ⟨lz, hlz, rfl⟩ := Option.map_eq_some_iff.mp h
  rw [hf]
  exact (lz77Wins_eq_some.mp hlz).2.1

theorem length_planLzxEnd_le (bytes : List UInt8) (d : Draft) :
    (j.planLzxEnd bytes d).payload.length ≤ d.payload.length := by
  rw [planLzxEnd]
  cases hp : j.planLzx d with
  | none => exact length_plan10_le bytes d
  | some p =>
    unfold planLzx at hp
    split at hp
    · exact (length_lz77Wins_lt (fun _ => rfl) hp).le
    · cases hp

/-- **What leaves a competition** is no longer than the draft that entered it. -/
theorem length_planCompetition_le (bytes : List UInt8) (d : Draft) :
    (j.planCompetition bytes d).payload.length ≤ d.payload.length := by
  rw [planCompetition]
  have hlzp := @length_planLzp_le j d
  cases hp : j.planLz77 bytes (j.planLzp d) with
  | none => exact (length_planLzxEnd_le bytes _).trans hlzp
  | some p =>
    refine le_trans ?_ hlzp
    unfold planLz77 at hp
    repeat' split at hp
    all_goals first | cases hp | exact (length_lz77Wins_lt (fun _ => rfl) hp).le

end Job

/-! ### What leaves -/

section Sent

variable {ctx : Ctx} {d : Dict} {src : List UInt8} {dstCap : ℕ}

/-- The flags under which the source of a packet is coded. -/
def sourceFlagsOf (ctx : Ctx) (d : Dict) (src : List UInt8) : UInt32 :=
  Job.tansCtxFlags ⟨ctx, d, src, 0⟩ (sourceOf ctx src).didDelta (sourceOf ctx src).didLzp

/-- The payload that the frequencies of the dictionary ask for: a state, the bits, and a byte for their end. -/
def draftSize (ctx : Ctx) (d : Dict) (src : List UInt8) : ℕ :=
  stateSz ctx.compactMode + draftBits d (ctx.getTables d) (sourceFlagsOf ctx d src) (sourceOf ctx src).bytes / 8 + 1

/-- A packet whose bits are fewer than its own leaves with no more. -/
theorem length_planDict_le (hwf : ctx.Wf) (hd : ctx.dict = some d)
    (hcap : hdrSz ctx.compactMode src.length + src.length ≤ dstCap) (hlt : draftSize ctx d src < src.length) :
    ∃ p, planDict ctx src dstCap = some p ∧ p.payload.length ≤ draftSize ctx d src := by
  have hroom : src.length ≤ Job.payloadRoom ⟨ctx, d, src, dstCap⟩ := Nat.le_sub_of_add_le' hcap
  obtain ⟨w, hw, hle⟩ := @Job.tansDraft_le ⟨ctx, d, src, dstCap⟩ (hwf.tablesOk hd) _ (length_sourceOf ctx src)
    (sourceFlagsOf ctx d src) hroom hlt
  have hplan : Job.planTans ⟨ctx, d, src, dstCap⟩ (sourceOf ctx src)
      = some (Job.planCompetition ⟨ctx, d, src, dstCap⟩ (sourceOf ctx src).bytes w) := congrArg (Option.map _) hw
  have hdict : planDict ctx src dstCap
      = some (Job.planCompetition ⟨ctx, d, src, dstCap⟩ (sourceOf ctx src).bytes w) := by
    rw [planDict, hd]
    simp only [if_pos (show 0 < src.length by omega), Job.planTansBlocks, hplan]
  exact ⟨_, hdict, (Job.length_planCompetition_le _ w).trans hle⟩

/-- **The dictionary bounds what is sent.** For every context after any calls, adaptive or not, with a
dictionary, and every packet with room for itself and a header: what leaves has, behind its header, at most
the size of the packet, and at most a state, a byte and the bits that the tables in use ask for, `12 - log2 f`
for a byte of frequency `f` at its position. -/
theorem sent_size_le (hreach : Reachable ctx) (hd : ctx.dict = some d) (hlen : src.length ≤ maxPacketSize)
    (hcap : hdrSz ctx.compactMode src.length + src.length ≤ dstCap) (dst : Out) (dstSize : ℕ) :
    (compress ctx src dst dstCap dstSize).code = .ok ∧ (compress ctx src dst dstCap dstSize).dstSize
      ≤ hdrSz ctx.compactMode src.length + min src.length (draftSize ctx d src) := by
  have hwf := hreach.wf
  have hmin : compactHdrMin ≤ hdrSz ctx.compactMode src.length := by
    unfold hdrSz compactHdrMin compactHdrMax headerSize
    split
    · split <;> decide
    · decide
  have hsent : Sent ctx src dstCap (compress ctx src dst dstCap dstSize) := by
    rcases compress_cases ctx src dst dstCap dstSize with ⟨hno, -⟩ | ⟨-, -, hsmall, -⟩ | ⟨-, -, hsent⟩
    · omega
    · omega
    · exact hsent
  refine ⟨hsent.code, ?_⟩
  rw [hsent.size, wire_eq, List.length_append, length_hdrEmit, wireHeader_originalSize hlen]
  have hle := length_wirePayload_le hwf (rfl : plan ctx src dstCap = _)
  by_cases hlt : draftSize ctx d src < src.length
  · obtain ⟨p, hp, hple⟩ := length_planDict_le hwf hd hcap hlt
    have hplan : plan ctx src dstCap = some p := by rw [plan, hp]
    rw [hplan, wirePayload]
    omega
  · omega

/-- A packet of three bytes over the dictionary of one byte. -/
theorem sent_size_le_small : ∃ d, dictTrain [[0]] 1 = .ok d ∧
    (compress (newCtx (some d) CfgFlag.stateful) [1, 2, 3] .empty 64 0).code = .ok ∧
    (compress (newCtx (some d) CfgFlag.stateful) [1, 2, 3] .empty 64 0).dstSize
      ≤ 8 + min 3 (draftSize (newCtx (some d) CfgFlag.stateful) d [1, 2, 3]) := by
  obtain ⟨d, hd⟩ := @dictTrain_ok [[0]] 1 (by decide)
  have hreach : Reachable (newCtx (some d) CfgFlag.stateful) :=
    newCtx_reachable (fun _ h => Option.some.inj h ▸ ⟨_, _, hd⟩) (by decide)
  have hhdr : hdrSz (newCtx (some d) CfgFlag.stateful).compactMode ([1, 2, 3] : List UInt8).length = 8 := by
    have hm : (newCtx (some d) CfgFlag.stateful).compactMode = false := by
      show CfgFlag.has CfgFlag.stateful CfgFlag.compactHdr = false
      decide
    rw [hm]
    rfl
  have hsent := @sent_size_le _ d [1, 2, 3] 64 hreach rfl (by decide) (by rw [hhdr]; decide) .empty 0
  rw [hhdr] at hsent
  exact ⟨d, hd, hsent⟩

end Sent

end Netc
