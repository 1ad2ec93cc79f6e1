/-
# The predictions of the LZP table

`netc_dict_train` lets the bytes of a corpus vote at the slots of the LZP table and keeps a slot's candidate if
it was met often enough. The counters are 16 bits wide. Up to 65535 bytes at a slot a byte with
a majority is predicted, and a prediction was right at four positions of ten at least; beyond that the vote can forget
a majority and the counts of the second pass can flatter a candidate. `SlotOk` says for which
bytes at a slot neither happens, whatever their order.

Key definitions: `slotBytes`, `Predicts`, `SlotOk`.
Key theorems: `lzpVotes_slot`, `lzpHits_slot`, `lzp_training_iff`.
-/
import Netc.Dict
import Netc.Lib.Vote

namespace Netc

/-- The slot of a position: the hash of the byte before it and its offset. -/
def slotOf (p : ℕ × UInt8 × UInt8) : ℕ := lzpHash p.2.1 p.1

/-- The bytes of a corpus at the positions of slot `h`, in the order they are met. -/
def slotBytes (packets : List (List UInt8)) (h : ℕ) : List UInt8 :=
  ((positions packets).filter fun p => slotOf p = h).map fun p => p.2.2

/-! ### One slot -/

section Slot

/-- A vote of the source as one of the library. -/
def LzpVote.state (v : LzpVote) : Vote.State UInt8 := ⟨v.candidate, v.count⟩

theorem LzpVote.state_cast (v : LzpVote) (b : UInt8) : (v.cast b).state = Vote.cast 32767 v.state b := by
  unfold LzpVote.cast Vote.cast LzpVote.state
  split
  · rfl
  · split
    · split <;> rfl
    · rfl

/-- The vote at a slot is that of the slot's bytes. -/
theorem lzpVotes_slot (packets : List (List UInt8)) (h : ℕ) :
    (lzpVotes packets h).state = Vote.run 32767 ⟨0, 0⟩ (slotBytes packets h) := by
  have hslot := Vote.foldl_update_apply slotOf (fun (v : LzpVote) p => v.cast p.2.2) (positions packets)
    (fun _ => ⟨0, 0⟩) h
  rw [show lzpVotes packets h = _ from hslot, Vote.run, slotBytes, List.foldl_map]
  exact (List.foldl_hom LzpVote.state fun v p => (v.state_cast p.2.2).symm).symm

/-- A 16-bit counter that counts where `q` holds. -/
def countSat (q : Bool) (n : ℕ) : ℕ := if q then if n < 0xFFFF then n + 1 else n else n

theorem bumpSat_eq (f : ℕ → ℕ) (i : ℕ) : bumpSat f i = Function.update f i (countSat true (f i)) := by
  unfold bumpSat bump countSat
  rw [if_pos rfl]
  split
  · rfl
  · exact (Function.update_eq_self i f).symm

/-- A pass that counts at the slots of the positions where `q` holds. -/
theorem foldl_countSat (q : ℕ × UInt8 × UInt8 → Bool) (l : List (ℕ × UInt8 × UInt8)) (h : ℕ) :
    l.foldl (fun t p => Function.update t (slotOf p) (countSat (q p) (t (slotOf p)))) (fun _ => 0) h
      = min ((l.filter fun p => slotOf p = h).countP q) 0xFFFF := by
  rw [Vote.foldl_update_apply slotOf fun n p => countSat (q p) n]
  have hcount := Vote.foldl_saturating 0xFFFF q (l.filter fun p => slotOf p = h) (Nat.zero_le _)
  rw [Nat.zero_add] at hcount
  exact hcount

/-- How often a slot was met, up to 65535. -/
theorem lzpHits_total (votes : ℕ → LzpVote) (packets : List (List UInt8)) (h : ℕ) :
    (lzpHits votes packets).1 h = min (slotBytes packets h).length 0xFFFF := by
  have hfst : (lzpHits votes packets).1 = (positions packets).foldl
      (fun t p => Function.update t (slotOf p) (countSat true (t (slotOf p)))) fun _ => 0 := by
    unfold lzpHits
    exact (List.foldl_hom Prod.fst fun st p => (bumpSat_eq st.1 (slotOf p)).symm).symm
  rw [hfst, foldl_countSat fun _ => true, List.countP_true, slotBytes, List.length_map]

/-- How often a slot was met with its candidate, up to 65535. -/
theorem lzpHits_hit (votes : ℕ → LzpVote) (packets : List (List UInt8)) (h : ℕ) :
    (lzpHits votes packets).2 h = min ((slotBytes packets h).count (votes h).candidate) 0xFFFF := by
  have hsnd : (lzpHits votes packets).2 = (positions packets).foldl (fun t p => Function.update t (slotOf p)
      (countSat (p.2.2 = (votes (slotOf p)).candidate) (t (slotOf p)))) fun _ => 0 := by
    unfold lzpHits
    refine (List.foldl_hom Prod.snd fun st p => ?_).symm
    by_cases hc : p.2.2 = (votes (slotOf p)).candidate
    · rw [decide_eq_true hc, ← bumpSat_eq]
      exact (if_pos hc).symm
    · rw [decide_eq_false hc]
      refine Eq.trans ?_ (if_neg hc).symm
      exact Function.update_eq_self _ _
  rw [hsnd, foldl_countSat fun p => p.2.2 = (votes (slotOf p)).candidate, slotBytes, List.count, List.countP_map]
  congr 1
  refine List.countP_congr fun p hp => ?_
  rw [of_decide_eq_true (List.mem_filter.mp hp).2]
  simp

/-- The candidate after the votes `l`. -/
def elected (l : List UInt8) : UInt8 := (Vote.run 32767 ⟨0, 0⟩ l).candidate

/-- The entry of a slot with the bytes `l`. -/
def slotEntry (l : List UInt8) : LzpEntry :=
  if 2 ≤ min l.length 0xFFFF ∧ min l.length 0xFFFF * 4 ≤ min (l.count (elected l)) 0xFFFF * 10 then ⟨elected l, 1⟩
  else ⟨0, 0⟩

/-- **An entry depends on the bytes of its slot alone.** -/
theorem trainLzp_slot (packets : List (List UInt8)) (h : ℕ) : trainLzp packets h = slotEntry (slotBytes packets h) := by
  have hcand : (lzpVotes packets h).candidate = elected (slotBytes packets h) :=
    congrArg Vote.State.candidate (lzpVotes_slot packets h)
  unfold trainLzp slotEntry
  simp only [lzpHits_total, lzpHits_hit, hcand]

end Slot

/-! ### Majorities -/

section Majority

variable {l l' : List UInt8}

/-- What an entry says of the bytes of its slot: a byte with a majority is predicted, and a
prediction is right at four positions of ten. -/
def PredictsMajority (e : LzpEntry) (l : List UInt8) : Prop :=
  (∀ v, 2 ≤ l.length → l.length < 2 * l.count v → e.valid ≠ 0 ∧ e.value = v) ∧
    (e.valid ≠ 0 → 2 ≤ l.length ∧ 4 * l.length ≤ 10 * l.count e.value)

/-- The counters hold what the bytes of a slot ask of them: they are at most 65535; or one has a majority and at most
32767 are others; or none has a majority, and none is met 26214 times without being four of ten. -/
def SlotOk (l : List UInt8) : Prop :=
  l.length ≤ 65535 ∨ (∃ v, l.length < 2 * l.count v ∧ l.length ≤ l.count v + 32767) ∨
    ((∀ v, 2 * l.count v ≤ l.length) ∧ ∀ v, l.count v < 26214 ∨ 4 * l.length ≤ 10 * l.count v)

theorem SlotOk.perm (hp : l'.Perm l) (h : SlotOk l) : SlotOk l' := by
  unfold SlotOk at h ⊢
  simpa only [hp.length_eq, hp.count_eq] using h

/-- When a slot's entry is a prediction. -/
theorem slotEntry_valid (l : List UInt8) : (slotEntry l).valid ≠ 0 ↔
    2 ≤ l.length ∧ min l.length 0xFFFF * 4 ≤ min (l.count (elected l)) 0xFFFF * 10 := by
  unfold slotEntry
  split
  · next h => exact ⟨fun _ => ⟨by omega, h.2⟩, fun _ => UInt8.zero_ne_one.symm⟩
  · next h => exact ⟨fun hv => absurd rfl hv, fun hok => absurd ⟨by omega, hok.2⟩ h⟩

theorem slotEntry_value (h : (slotEntry l).valid ≠ 0) : (slotEntry l).value = elected l := by
  unfold slotEntry at h ⊢
  split
  · rfl
  · next hc => exact absurd rfl (by rw [if_neg hc] at h; exact h)

/-- A majority over few others is predicted. -/
theorem slotEntry_majority {v : UInt8} (h2 : 2 ≤ l.length) (hv : l.length < 2 * l.count v)
    (hcap : l.length ≤ l.count v + 32767) : (slotEntry l).valid ≠ 0 ∧ (slotEntry l).value = v := by
  have helect : elected l = v := Vote.majority rfl hv hcap
  have hle := List.count_le_length (a := v) (l := l)
  have hvalid : (slotEntry l).valid ≠ 0 := (slotEntry_valid l).mpr ⟨h2, by rw [helect]; omega⟩
  exact ⟨hvalid, by rw [slotEntry_value hvalid, helect]⟩

/-- The second pass counts well enough: at most 65535 bytes, or a candidate that is rare or four of ten. -/
theorem slotEntry_threshold (h : l.length ≤ 65535 ∨ l.count (elected l) < 26214 ∨
    4 * l.length ≤ 10 * l.count (elected l)) (hvalid : (slotEntry l).valid ≠ 0) :
    2 ≤ l.length ∧ 4 * l.length ≤ 10 * l.count (slotEntry l).value := by
  obtain ⟨h2, hten⟩ := (slotEntry_valid l).mp hvalid
  rw [slotEntry_value hvalid]
  have hle := List.count_le_length (a := elected l) (l := l)
  exact ⟨h2, by omega⟩

theorem slotEntry_predicts (h : SlotOk l) : PredictsMajority (slotEntry l) l := by
  rcases h with h | ⟨v, hv, hcap⟩ | ⟨hnone, hfew⟩
  · exact ⟨fun v h2 hv => slotEntry_majority h2 hv (by omega), slotEntry_threshold (Or.inl h)⟩
  · have helect : elected l = v := Vote.majority rfl hv hcap
    refine ⟨fun u h2 hu => ?_, slotEntry_threshold (Or.inr (Or.inr (by rw [helect]; omega)))⟩
    -- two majorities are one
    have huv : u = v := by
      by_contra hne
      have := Vote.count_two_le hne l
      omega
    subst huv
    exact slotEntry_majority h2 hu hcap
  · refine ⟨fun v _ hv => absurd (hnone v) (by omega), slotEntry_threshold (Or.inr (hfew _))⟩

/-- Where the counters do not suffice, some order of the bytes misleads them. -/
theorem exists_misled (h : ¬SlotOk l) : ∃ l', l'.Perm l ∧ ¬PredictsMajority (slotEntry l') l' := by
  simp only [SlotOk, not_or, not_le, not_exists, not_and, not_forall, not_lt] at h
  obtain ⟨hlong, hmany, hrest⟩ := h
  by_cases hmaj : ∃ v, l.length < 2 * l.count v
  · obtain ⟨v, hv⟩ := hmaj
    obtain ⟨l', hp, hlost⟩ := @Vote.exists_deposed UInt8 _ 32767 ⟨0, 0⟩ v l (by norm_num) rfl (by
      have := hmany v hv
      omega)
    refine ⟨l', hp, fun hpred => ?_⟩
    have hlen := hp.length_eq
    have hcount := hp.count_eq v
    obtain ⟨hvalid, hvalue⟩ := hpred.1 v (by omega) (by omega)
    exact hlost ((slotEntry_value hvalid).symm.trans hvalue)
  · push Not at hmaj
    obtain ⟨w, hw, hten⟩ := hrest hmaj
    obtain ⟨l', hp, helect⟩ := @Vote.exists_elected UInt8 _ 32767 ⟨0, 0⟩ l rfl hmaj w
      (List.one_le_count_iff.mp (by omega))
    refine ⟨l', hp, fun hpred => ?_⟩
    have hlen := hp.length_eq
    have hcount := hp.count_eq w
    have hvalid : (slotEntry l').valid ≠ 0 :=
      (slotEntry_valid l').mpr ⟨by omega, by rw [show elected l' = w from helect]; omega⟩
    have hfour := (hpred.2 hvalid).2
    rw [slotEntry_value hvalid, show elected l' = w from helect] at hfour
    omega

end Majority

/-! ### Training -/

section Training

variable {packets : List (List UInt8)} {modelId : UInt8} {d : Dict}

theorem dictTrain_lzpTable (h : dictTrain packets modelId = .ok d) :
    d.lzpTable = some (trainLzp (packets.map (List.take maxPacketSize))) := by
  obtain ⟨cut, rfl, -, -, rfl⟩ := dictTrain_eq_ok h
  rfl

/-- The dictionary's entry of slot `h` predicts the majority of the bytes `l`. -/
def Dict.Predicts (d : Dict) (h : ℕ) (l : List UInt8) : Prop :=
  ∃ lzp, d.lzpTable = some lzp ∧ PredictsMajority (lzp h) l

theorem dictTrain_predicts (hd : dictTrain packets modelId = .ok d) (h : ℕ) (l : List UInt8) :
    d.Predicts h l ↔ PredictsMajority (slotEntry (slotBytes (packets.map (List.take maxPacketSize)) h)) l := by
  rw [← trainLzp_slot]
  constructor
  · rintro ⟨lzp, hlzp, hpred⟩
    rw [dictTrain_lzpTable hd] at hlzp
    rwa [Option.some.inj hlzp]
  · exact fun hpred => ⟨_, dictTrain_lzpTable hd, hpred⟩

/-- A corpus of one-byte packets: all of them meet at one slot. -/
theorem slotBytes_singles (l : List UInt8) :
    slotBytes ((l.map fun b => [b]).map (List.take maxPacketSize)) (lzpHash 0 0) = l := by
  have hcut : ∀ b : UInt8, [b].take maxPacketSize = [b] := fun b => rfl
  have hpos : positions (l.map fun b => [b]) = l.map fun b => (0, 0, b) := by
    unfold positions
    rw [List.flatMap_map]
    exact List.flatMap_pure_eq_map _ _
  have hsame : (l.map fun b => [b]).map (List.take maxPacketSize) = l.map fun b => [b] := by
    rw [List.map_map]
    exact List.map_congr_left fun b _ => hcut b
  rw [hsame, slotBytes, hpos, List.filter_eq_self.mpr, List.map_map]
  · exact List.map_id l
  · intro p hp
    obtain ⟨b, -, rfl⟩ := List.mem_map.mp hp
    exact decide_eq_true rfl

/-- **When training predicts the majority**, whatever the order of the packets. -/
theorem lzp_training_iff (l : List UInt8) :
    (∀ packets modelId d h, dictTrain packets modelId = .ok d →
      (slotBytes (packets.map (List.take maxPacketSize)) h).Perm l →
      d.Predicts h (slotBytes (packets.map (List.take maxPacketSize)) h)) ↔ SlotOk l := by
  constructor
  · intro hall
    by_contra hnot
    obtain ⟨l', hp, hmisled⟩ := exists_misled hnot
    obtain ⟨d, hd⟩ := @dictTrain_ok (l'.map fun b => [b]) 1 (by decide)
    have hpred := hall _ _ d (lzpHash 0 0) hd (by rwa [slotBytes_singles])
    rw [dictTrain_predicts hd, slotBytes_singles] at hpred
    exact hmisled hpred
  · intro hok packets modelId d h hd hp
    rw [dictTrain_predicts hd]
    exact slotEntry_predicts (hok.perm hp)

/-- `m` bytes 1 and then `k` bytes 2. -/
def lateTwos (m k : ℕ) : List UInt8 := List.replicate m 1 ++ List.replicate k 2

theorem elected_lateTwos (m : ℕ) {k : ℕ} (hk : 32767 < k) : elected (lateTwos m k) ≠ 1 := by
  unfold elected lateTwos
  rw [Vote.run_append]
  refine Vote.overtaken (fun b hb => ?_) ?_
  · rw [List.eq_of_mem_replicate hb]
    decide
  · rw [List.length_replicate]
    exact lt_of_le_of_lt (Vote.count_run_le (by norm_num) (Nat.zero_le _) _) hk

theorem slotEntry_lateTwos {m k : ℕ} (hk : 32767 < k) (hm : k < m) :
    ¬PredictsMajority (slotEntry (lateTwos m k)) (lateTwos m k) := by
  have hlen : (lateTwos m k).length = m + k := by
    rw [lateTwos, List.length_append, List.length_replicate, List.length_replicate]
  have hones : (lateTwos m k).count 1 = m := by
    rw [lateTwos, List.count_append, List.count_replicate, List.count_replicate]
    rfl
  intro hpred
  obtain ⟨hvalid, hvalue⟩ := hpred.1 1 (by omega) (by omega)
  rw [slotEntry_value hvalid] at hvalue
  exact elected_lateTwos m hk hvalue

/-- 40000 packets with the byte 1 and then 32768 with the byte 2: the slot does not predict 1. -/
theorem lzp_training_overtaken : ∃ d, dictTrain ((lateTwos 40000 32768).map fun b => [b]) 1 = .ok d ∧
    ¬d.Predicts (lzpHash 0 0)
      (slotBytes (((lateTwos 40000 32768).map fun b => [b]).map (List.take maxPacketSize)) (lzpHash 0 0)) := by
  obtain ⟨d, hd⟩ := @dictTrain_ok ((lateTwos 40000 32768).map fun b => [b]) 1 (by decide)
  refine ⟨d, hd, ?_⟩
  rw [dictTrain_predicts hd, slotBytes_singles]
  exact slotEntry_lateTwos (by norm_num) (by norm_num)

end Training

end Netc
