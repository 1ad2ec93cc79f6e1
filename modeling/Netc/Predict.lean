/-
# What an adaptive table predicts

An adaptive context updates the LZP table with every packet it carries; a call that fails does not touch it
(`Learning.step`). Two bounds hold along any calls.

The positions at which `netc_lzp_adaptive_update` finds the byte not predicted are at most twice those that
any fixed table of predictions would have missed, and four for each slot met (`lzp_competes`): the table is
never much worse than the best dictionary for the connection, whatever dictionary it began with.

A byte that is ahead of all others together at a slot, by four over all that was met there or by 255 from any
later moment on, is the one predicted there, unless over some end of that stretch the others lead by 255
(`lzp_follows`): where it comes next, the filter leaves a zero.

Key definitions: `lzpMisses`, `Learning`, `Prevails`.
Key theorems: `lzpMisses_eq`, `run_adaptLzp`, `lzp_competes`, `lzp_follows`.
-/
import Netc.History
import Netc.Lib.Confidence

namespace Netc

/-! ### Entries -/

/-- An entry of the source as one of the library. -/
def LzpEntry.conf (e : LzpEntry) : Confidence.Entry UInt8 := ⟨e.value, e.valid.toNat⟩

theorem conf_lzpLearn (e : LzpEntry) (b : UInt8) : (lzpLearn e b).conf = Confidence.learn 255 e.conf b := by
  obtain ⟨value, valid⟩ := e
  have hzero : valid = 0 ↔ valid.toNat = 0 := UInt8.toNat_inj.symm
  unfold lzpLearn Confidence.learn LzpEntry.conf
  simp only [hzero, UInt8.lt_iff_toNat_lt, show UInt8.toNat 1 = 1 from rfl, show UInt8.toNat 255 = 255 from rfl]
  by_cases h0 : valid.toNat = 0
  · rw [if_pos h0, if_pos h0]
    rfl
  · rw [if_neg h0, if_neg h0]
    by_cases hb : value = b
    · rw [if_neg (not_not.mpr hb), if_neg (not_not.mpr hb)]
      by_cases hlt : valid.toNat < 255
      · rw [if_pos hlt, if_pos hlt, UInt8.toNat_add, show UInt8.toNat 1 = 1 from rfl, Nat.mod_eq_of_lt (by omega)]
      · rw [if_neg hlt, if_neg hlt]
    · rw [if_pos hb, if_pos hb]
      by_cases h1 : 1 < valid.toNat
      · have hle : (1 : UInt8) ≤ valid := UInt8.le_iff_toNat_le.mpr h1.le
        rw [if_pos h1, if_pos h1, UInt8.toNat_sub_of_le _ _ hle]
        rfl
      · rw [if_neg h1, if_neg h1]
        rfl

theorem conf_foldl_lzpLearn (l : List UInt8) (e : LzpEntry) :
    (l.foldl lzpLearn e).conf = l.foldl (Confidence.learn 255) e.conf :=
  (List.foldl_hom LzpEntry.conf fun e b => (conf_lzpLearn e b).symm).symm

/-- The entry predicts byte `b`. -/
theorem conf_predicts (e : LzpEntry) (b : UInt8) : e.conf.Predicts b ↔ e.valid ≠ 0 ∧ e.value = b := by
  have hzero : e.valid = 0 ↔ e.valid.toNat = 0 := UInt8.toNat_inj.symm
  unfold Confidence.Entry.Predicts LzpEntry.conf
  rw [ne_eq, ne_eq, hzero]

theorem conf_le (e : LzpEntry) : e.conf.conf ≤ 255 := Nat.le_of_lt_succ e.valid.toNat_lt

/-- The table of a new context has its predictions at confidence 4. -/
theorem Created.adaptLzp_le {ctx : Ctx} {table : LzpTable} (h : Created ctx) (ht : ctx.adaptLzp = some table) (j : ℕ) :
    (table j).conf.conf ≤ 4 := by
  obtain ⟨pf, dict, cfg, junk, -, hcreate⟩ := h
  simp only [ctxCreate] at hcreate
  split at hcreate
  · cases hcreate
  · rw [← Option.some.inj hcreate] at ht
    simp only [Option.ite_none_right_eq_some, Option.map_eq_some_iff] at ht
    obtain ⟨-, lzp, -, rfl⟩ := ht
    unfold boostLzp LzpEntry.conf
    split
    · exact le_refl 4
    · next hzero =>
      rw [not_not.mp hzero]
      exact Nat.zero_le 4

/-! ### Misses -/

/-- The positions of a packet from `pos` on, after byte `prev`, at which `netc_lzp_adaptive_update` finds no
prediction or another byte predicted. -/
def lzpMissesFrom : ℕ → UInt8 → List UInt8 → LzpTable → ℕ
  | _, _, [], _ => 0
  | pos, prev, b :: data, table =>
    let h := lzpHash prev pos
    (if (table h).valid ≠ 0 ∧ (table h).value = b then 0 else 1)
      + lzpMissesFrom (pos + 1) b data (Function.update table h (lzpLearn (table h) b))

/-- The same for packets one after another. -/
def lzpMisses : LzpTable → List (List UInt8) → ℕ
  | _, [] => 0
  | table, p :: past => lzpMissesFrom 0 0 p table + lzpMisses (lzpUpdateFrom 0 0 p table) past

/-- What is met at which slot. -/
def slotted (ps : List (ℕ × UInt8 × UInt8)) : List (ℕ × UInt8) := ps.map fun p => (slotOf p, p.2.2)

section Misses

/-- The positions that the table has not learned yet are `rest`. -/
theorem lzpMissesFrom_add (rest : List (ℕ × UInt8)) : ∀ (data : List UInt8) (pos : ℕ) (prev : UInt8) (table : LzpTable),
    lzpMissesFrom pos prev data table + Confidence.misses 255 (fun h => (lzpUpdateFrom pos prev data table h).conf) rest
      = Confidence.misses 255 (fun h => (table h).conf) (slotted (positionsFrom pos prev data) ++ rest)
  | [], _, _, _ => Nat.zero_add _
  | b :: data, pos, prev, table => by
    have hupdate : (fun h => (Function.update table (lzpHash prev pos) (lzpLearn (table (lzpHash prev pos)) b) h).conf)
        = Function.update (fun h => (table h).conf) (lzpHash prev pos)
          (Confidence.learn 255 (table (lzpHash prev pos)).conf b) := by
      rw [← conf_lzpLearn]
      exact Function.comp_update LzpEntry.conf table _ _
    have ih := lzpMissesFrom_add rest data (pos + 1) b
      (Function.update table (lzpHash prev pos) (lzpLearn (table (lzpHash prev pos)) b))
    rw [hupdate] at ih
    have hhit : (if (table (lzpHash prev pos)).conf.Predicts b then 0 else 1)
        = if (table (lzpHash prev pos)).valid ≠ 0 ∧ (table (lzpHash prev pos)).value = b then 0 else 1 :=
      if_congr (conf_predicts _ b) rfl rfl
    simp only [lzpMissesFrom, lzpUpdateFrom, positionsFrom, slotted, List.map_cons, List.cons_append, slotOf,
      Confidence.misses] at ih ⊢
    rw [hhit, ← ih]
    omega

/-- The misses of the source are those of the library. -/
theorem lzpMisses_eq : ∀ (past : List (List UInt8)) (table : LzpTable),
    lzpMisses table past = Confidence.misses 255 (fun h => (table h).conf) (slotted (positions past))
  | [], _ => rfl
  | p :: past, table => by
    rw [lzpMisses, lzpMisses_eq past, lzpMissesFrom_add]
    simp only [slotted, positions, List.flatMap_cons, List.map_append]

end Misses

section Runs

variable {ctx₀ ctx : Ctx} {calls : List Call} {replies : List Reply} {table : LzpTable}

/-- What any calls on context `ctx₀` keep of its LZP table: it is the one of `ctx₀` after one update with each
packet of the past. -/
structure Learning (ctx₀ ctx : Ctx) (past : List (List UInt8)) : Prop extends Rooted ctx₀ ctx where
  table : ctx.adaptLzp = past.foldl lzpAdaptiveUpdate ctx₀.adaptLzp

theorem takenIn_adaptLzp (ctx : Ctx) (src : List UInt8) (arena : Block) :
    (takenIn ctx src arena).adaptLzp = ctx.adaptLzp := by
  rw [takenIn, (updatePrev_model _ src).2.1, (appendRing_model _ src).2.1]

/-- A call that fails may leave its packet in the history, but the table does not learn from it. -/
theorem Learning.step {ctx' : Ctx} {past : List (List UInt8)} (h : Learning ctx₀ ctx past) {c : Call} {reply : Reply}
    (hstep : step ctx c = .ok (reply, ctx')) : Learning ctx₀ ctx' (carriedBy past c reply) := by
  refine ⟨h.toRooted.step hstep, ?_⟩
  rcases step_past h.wf hstep past with ⟨rfl, hpast⟩ | ⟨p, -, hagree, hpast⟩ | ⟨rfl, hpast⟩ |
    ⟨-, ⟨src, arena, rfl⟩, hpast⟩
  · rw [hpast, h.table]
  · rw [hpast, hagree.adaptLzp, absorb_adaptLzp, h.table, List.foldl_append, List.foldl_cons, List.foldl_nil]
  · rw [hpast, h.reset]
    rfl
  · rw [hpast, takenIn_adaptLzp, h.table]

theorem foldl_lzpAdaptiveUpdate (past : List (List UInt8)) (table : LzpTable) :
    past.foldl lzpAdaptiveUpdate (some table) = some (past.foldl (fun t p => lzpUpdateFrom 0 0 p t) table) :=
  List.foldl_hom some fun _ _ => rfl

/-- The table after any calls: what was carried since the last reset, learned from the start. -/
theorem run_adaptLzp (hc : Created ctx₀) (hrun : run ctx₀ calls = .ok (replies, ctx))
    (ht : ctx₀.adaptLzp = some table) :
    ctx.adaptLzp = some ((carried [] calls replies).foldl (fun t p => lzpUpdateFrom 0 0 p t) table) := by
  have hlearn : Learning ctx₀ ctx (carried [] calls replies) :=
    run_keeps (fun _ _ _ _ _ h (_ : True) hstep => h.step hstep) ⟨hc.rooted, rfl⟩ (fun _ _ => trivial) hrun
  rw [hlearn.table, ht, foldl_lzpAdaptiveUpdate]

/-- Packet by packet, the loop of the update. -/
theorem foldl_lzpUpdate (past : List (List UInt8)) (table : LzpTable) :
    past.foldl (fun t p => lzpUpdateFrom 0 0 p t) table = fun h => (slotBytes past h).foldl lzpLearn (table h) := by
  induction past using List.reverseRecOn with
  | nil => rfl
  | append_singleton past p ih =>
    rw [List.foldl_append, ih]
    funext h
    rw [List.foldl_cons, List.foldl_nil, lzpUpdate_slot, slotBytes_snoc, List.foldl_append]

/-- **The adaptive predictions compete with every fixed table.** After any calls on a new adaptive context,
in any order, with errors and with buffers of any size: the table is the one of the start after one update
with each packet carried since the last reset. Over these updates, for every table `v` of predictions, the
byte was not the one predicted at most at twice the positions that `v` does not predict, and at four more for
each slot met. -/
theorem lzp_competes (hc : Created ctx₀) (hrun : run ctx₀ calls = .ok (replies, ctx))
    (ht : ctx₀.adaptLzp = some table) (v : ℕ → UInt8) :
    ctx.adaptLzp = some ((carried [] calls replies).foldl (fun t p => lzpUpdateFrom 0 0 p t) table) ∧
      lzpMisses table (carried [] calls replies)
        ≤ 4 * ((positions (carried [] calls replies)).map slotOf).toFinset.card
          + 2 * (positions (carried [] calls replies)).countP fun p => p.2.2 ≠ v (slotOf p) := by
  refine ⟨run_adaptLzp hc hrun ht, ?_⟩
  set past := carried [] calls replies
  have hkeys : ∀ p ∈ slotted (positions past), p.1 ∈ ((positions past).map slotOf).toFinset := by
    intro p hp
    obtain ⟨q, hq, rfl⟩ := List.mem_map.mp hp
    exact List.mem_toFinset.mpr (List.mem_map_of_mem hq)
  have hcount : (slotted (positions past)).countP (fun p => p.2 ≠ v p.1)
      = (positions past).countP fun p => p.2.2 ≠ v (slotOf p) := by
    rw [slotted, List.countP_map]
    rfl
  have hstart : ∀ k ∈ ((positions past).map slotOf).toFinset, Confidence.need (v k) (table k).conf ≤ 4 := fun k _ =>
    Confidence.need_le (by norm_num) (hc.adaptLzp_le ht k)
  calc lzpMisses table past
      = Confidence.misses 255 (fun h => (table h).conf) (slotted (positions past)) := lzpMisses_eq past table
    _ ≤ ∑ k ∈ ((positions past).map slotOf).toFinset, Confidence.need (v k) (table k).conf
        + 2 * (slotted (positions past)).countP fun p => p.2 ≠ v p.1 := Confidence.misses_add_need v _ _ hkeys
    _ ≤ ((positions past).map slotOf).toFinset.card * 4
        + 2 * (slotted (positions past)).countP fun p => p.2 ≠ v p.1 := by
        gcongr
        exact Finset.sum_le_card_nsmul _ _ 4 hstart
    _ = _ := by rw [hcount, Nat.mul_comm]

/-- An adaptive context over the dictionary of one byte. -/
theorem adaptive_created {d : Dict} (hd : dictTrain [[0]] 1 = .ok d) :
    Created (newCtx (some d) (CfgFlag.stateful ||| CfgFlag.adaptive)) ∧
      (newCtx (some d) (CfgFlag.stateful ||| CfgFlag.adaptive)).adaptLzp
        = some (boostLzp (trainLzp ([[0]].map (List.take maxPacketSize)))) := by
  have hs : CfgFlag.has (CfgFlag.stateful ||| CfgFlag.adaptive) CfgFlag.stateful = true := by decide
  have hdict : ∀ d', some d = some d' → Trained d' := fun _ h => Option.some.inj h ▸ ⟨_, _, hd⟩
  refine ⟨newCtx_created hdict hs, ?_⟩
  simp only [newCtx, Option.bind_some, dictTrain_lzpTable hd]
  rfl

/-- An adaptive connection over the dictionary of one byte: a packet without room is refused, and of the next
the fixed table of zeros predicts none of its three bytes. -/
theorem lzp_competes_small : ∃ d table replies ctx, dictTrain [[0]] 1 = .ok d ∧
    run (newCtx (some d) (CfgFlag.stateful ||| CfgFlag.adaptive))
        [.compress [9, 9] .empty 1 0, .compress [1, 2, 3] .empty 64 0] = .ok (replies, ctx) ∧
    (newCtx (some d) (CfgFlag.stateful ||| CfgFlag.adaptive)).adaptLzp = some table ∧
    lzpMisses table [[1, 2, 3]] ≤ 4 * ((positions [[1, 2, 3]]).map slotOf).toFinset.card + 2 * 3 := by
  obtain ⟨d, hd⟩ := @dictTrain_ok [[0]] 1 (by decide)
  obtain ⟨hc, ht⟩ := adaptive_created hd
  have hno : ∀ ctx, (compress ctx [9, 9] .empty 1 0).code = .errBufSmall := fun _ => rfl
  have hok : ∀ ctx, (compress ctx [1, 2, 3] .empty 64 0).code = .ok := fun ctx =>
    ((@smallTransfer_fits [1, 2, 3] (by decide)).sent ctx).code
  have hrun : run (newCtx (some d) (CfgFlag.stateful ||| CfgFlag.adaptive))
      [.compress [9, 9] .empty 1 0, .compress [1, 2, 3] .empty 64 0] = .ok (_, _) := rfl
  have h := (lzp_competes hc hrun ht fun _ => 0).2
  simp only [carried, carriedBy, hno, hok, reduceCtorEq, if_false, if_true, List.nil_append] at h
  exact ⟨d, _, _, _, hd, hrun, ht, h⟩

/-! ### The byte that prevails -/

/-- Byte `v` is ahead of all others at a slot with the bytes `l`: by 4, or by 255 from some moment on; and
over no end of that stretch do the others lead by 255. -/
def Prevails (v : UInt8) (l : List UInt8) : Prop :=
  ∃ l₁ l₂, l = l₁ ++ l₂ ∧ l₂.countP (· ≠ v) + (if l₁ = [] then 4 else 255) ≤ l₂.count v ∧
    ∀ s, s <:+ l₂ → s.countP (· ≠ v) ≤ s.count v + 254

theorem Prevails.predicts {v : UInt8} {l : List UInt8} (h : Prevails v l) {e : LzpEntry} (he : e.conf.conf ≤ 4) :
    (l.foldl lzpLearn e).valid ≠ 0 ∧ (l.foldl lzpLearn e).value = v := by
  obtain ⟨l₁, l₂, rfl, hmargin, hsuffix⟩ := h
  rw [← conf_predicts, conf_foldl_lzpLearn, Confidence.predicts_iff, List.foldl_append]
  have hconf : (l₁.foldl (Confidence.learn 255) e.conf).conf ≤ 255 :=
    Confidence.conf_foldl_le (by norm_num) l₁ (conf_le e)
  apply Confidence.lead_run (by norm_num) l₂ hconf
  · -- the lead at the start of `l₂` is that of a new table, or as low as it can be
    rw [Confidence.margin_eq]
    by_cases hnil : l₁ = []
    · subst hnil
      have hlead := @Confidence.le_lead _ _ e.conf v 4 (by norm_num) he
      rw [if_pos rfl] at hmargin
      rw [List.foldl_nil]
      push_cast at hlead
      omega
    · have hlead := @Confidence.le_lead _ _ (l₁.foldl (Confidence.learn 255) e.conf) v 255 (by norm_num) hconf
      rw [if_neg hnil] at hmargin
      push_cast at hlead
      omega
  · intro s hs
    have := hsuffix s hs
    rw [Confidence.margin_eq]
    push_cast
    omega

theorem lzpFilterFrom_eq (table : LzpTable) : ∀ (src : List UInt8) (pos : ℕ) (prev : UInt8),
    lzpFilterFrom table pos prev src = (positionsFrom pos prev src).map fun q => q.2.2 ^^^ lzpPrediction table q.2.1 q.1
  | [], _, _ => rfl
  | b :: src, pos, prev => by rw [lzpFilterFrom, positionsFrom, List.map_cons, lzpFilterFrom_eq table src]

theorem positionsFrom_getElem : ∀ (src : List UInt8) (pos : ℕ) (prev : UInt8), ∀ q ∈ positionsFrom pos prev src,
    pos ≤ q.1 ∧ (positionsFrom pos prev src)[q.1 - pos]? = some q
  | [], _, _, _, hq => absurd hq (List.not_mem_nil)
  | b :: src, pos, prev, q, hq => by
    rcases List.mem_cons.mp hq with rfl | hq
    · exact ⟨le_refl pos, by simp [positionsFrom]⟩
    · obtain ⟨hle, hget⟩ := positionsFrom_getElem src (pos + 1) b q hq
      refine ⟨by omega, ?_⟩
      rw [positionsFrom, show q.1 - pos = q.1 - (pos + 1) + 1 by omega, List.getElem?_cons_succ]
      exact hget

/-- **What prevails is predicted.** After any calls on a new adaptive context, in any order, with errors and
with buffers of any size: at every position of the next packet whose byte prevails at its slot over the
packets carried since the last reset, the filter with the table of the context leaves a zero. -/
theorem lzp_follows (hc : Created ctx₀) (hrun : run ctx₀ calls = .ok (replies, ctx))
    (ht : ctx₀.adaptLzp = some table) (src : List UInt8) :
    ∃ table', ctx.getLzpTable = some table' ∧ ∀ q ∈ positionsFrom 0 0 src,
      Prevails q.2.2 (slotBytes (carried [] calls replies) (slotOf q)) → (lzpXorFilter table' src)[q.1]? = some 0 := by
  have hlzp := run_adaptLzp hc hrun ht
  rw [foldl_lzpUpdate] at hlzp
  refine ⟨_, by rw [Ctx.getLzpTable, hlzp], fun q hq hprev => ?_⟩
  obtain ⟨-, hget⟩ := positionsFrom_getElem src 0 0 q hq
  obtain ⟨hvalid, hvalue⟩ := hprev.predicts (hc.adaptLzp_le ht (slotOf q))
  rw [lzpXorFilter, lzpFilterFrom_eq, List.getElem?_map, show q.1 = q.1 - 0 from rfl, hget, Option.map_some,
    Option.some.injEq, lzpPrediction]
  rw [slotOf] at hvalid hvalue
  rw [if_pos hvalid, hvalue, UInt8.xor_self]

/-- Four packets of one byte each, and the same once more. -/
theorem lzp_follows_four : ∃ d replies ctx table, dictTrain [[0]] 1 = .ok d ∧
    run (newCtx (some d) (CfgFlag.stateful ||| CfgFlag.adaptive)) (List.replicate 4 (.compress [7] .empty 64 0))
      = .ok (replies, ctx) ∧ ctx.getLzpTable = some table ∧ (lzpXorFilter table [7])[0]? = some 0 := by
  obtain ⟨d, hd⟩ := @dictTrain_ok [[0]] 1 (by decide)
  obtain ⟨hc, ht⟩ := adaptive_created hd
  have hok : ∀ ctx, (compress ctx [7] .empty 64 0).code = .ok := fun ctx =>
    ((@smallTransfer_fits [7] (by decide)).sent ctx).code
  have hrun : run (newCtx (some d) (CfgFlag.stateful ||| CfgFlag.adaptive))
      (List.replicate 4 (.compress [7] .empty 64 0)) = .ok (_, _) := rfl
  obtain ⟨table, htable, hnext⟩ := lzp_follows hc hrun ht [7]
  refine ⟨d, _, _, table, hd, hrun, htable, hnext (0, 0, 7) (by decide) ?_⟩
  simp only [List.replicate, carried, carriedBy, hok, if_true]
  refine ⟨[], [7, 7, 7, 7], rfl, by decide, fun s hs => ?_⟩
  have hall : ∀ b ∈ s, b = 7 := fun b hb => by simpa using hs.subset hb
  have hzero : s.countP (· ≠ 7) = 0 := List.countP_eq_zero.mpr fun b hb => by simp [hall b hb]
  omega

end Runs

end Netc
