/-
# The ring is the end of the history

`ctx_ring_append` of `netc_compress.c` and `decomp_ring_append` of `netc_decompress.c` are one text. Whatever
packets are appended, of whatever lengths and by whichever of the two, the ring holds the last bytes of
all of them, read backwards from its write position (`ring_shows_history`).

Key definitions: `ctxRingAppend`, `decompRingAppend`, `ringAppendAll`.
Key theorems: `ringAppend_shows`, `ring_shows_history`.
-/
import Netc.Lib.Circ
import Netc.Lz77x

namespace Netc

/-- `ctx_ring_append` -/
def ctxRingAppend (ring : Block) (pos : ℕ) (data : List UInt8) : Block × ℕ := ringAppend ring pos data

/-- `decomp_ring_append` -/
def decompRingAppend (ring : Block) (pos : ℕ) (data : List UInt8) : Block × ℕ := ringAppend ring pos data

/-- Packets appended to a ring, one after another. -/
def ringAppendAll (append : Block → ℕ → List UInt8 → Block × ℕ) : Block × ℕ → List (List UInt8) → Block × ℕ
  | st, [] => st
  | st, data :: packets => ringAppendAll append (append st.1 st.2 data) packets

section Append

variable {ring : Block} {pos : ℕ} {data : List UInt8}

theorem write_apply {m : ℕ → UInt8} {off i : ℕ} {bs : List UInt8} (h : i < bs.length) :
    bs[i]? = some (ByteMem.write m off bs (off + i)) := by
  rw [ByteMem.write_of_mem (by omega) (by omega), Nat.add_sub_cancel_left, List.getD_eq_getElem _ _ h,
    List.getElem?_eq_getElem h]

/-- A packet shorter than the ring is laid along it, past its end if need be. -/
theorem ringAppend_short (h0 : data.length ≠ 0) (hlen : data.length < ring.size) :
    ringAppend ring pos data = (if data.length ≤ ring.size - pos then ring.write pos data
      else (ring.write pos (data.take (ring.size - pos))).write 0 (data.drop (ring.size - pos)),
      (pos + data.length) % ring.size) := by
  have hge : ¬ring.size ≤ data.length := by omega
  simp only [ringAppend, if_neg hge]
  rw [if_neg (by omega)]

theorem ringAppend_short_put (h0 : data.length ≠ 0) (hpos : pos < ring.size) (hlen : data.length < ring.size) {j : ℕ}
    (hj : j < data.length) : data[j]? = some ((ringAppend ring pos data).1.byte ((pos + j) % ring.size)) := by
  rw [ringAppend_short h0 hlen, Circ.mod_eq_ite (show pos + j < 2 * ring.size by omega)]
  simp only
  by_cases htail : data.length ≤ ring.size - pos
  · rw [if_pos htail, if_pos (by omega)]
    exact write_apply hj
  · rw [if_neg htail]
    simp only [Block.write]
    split
    · -- before the end of the ring, in front of which the second copy stops
      next hlt =>
      rw [ByteMem.write_of_ge (by rw [List.length_drop]; omega),
        ← write_apply (by rw [List.length_take]; omega), List.getElem?_take_of_lt (by omega)]
    · have hk : j - (ring.size - pos) < (data.drop (ring.size - pos)).length := by rw [List.length_drop]; omega
      rw [show pos + j - ring.size = 0 + (j - (ring.size - pos)) by omega, ← write_apply hk, List.getElem?_drop]
      congr 1
      omega

theorem ringAppend_short_keep (h0 : data.length ≠ 0) (hpos : pos < ring.size) (hlen : data.length < ring.size) {j : ℕ}
    (hge : data.length ≤ j) (hj : j < ring.size) :
    (ringAppend ring pos data).1.byte ((pos + j) % ring.size) = ring.byte ((pos + j) % ring.size) := by
  rw [ringAppend_short h0 hlen, Circ.mod_eq_ite (show pos + j < 2 * ring.size by omega)]
  simp only
  by_cases htail : data.length ≤ ring.size - pos
  · rw [if_pos htail]
    simp only [Block.write]
    split
    · exact ByteMem.write_of_ge (by omega)
    · exact ByteMem.write_of_lt (by omega)
  · rw [if_neg htail, if_neg (by omega)]
    simp only [Block.write]
    rw [ByteMem.write_of_ge (by rw [List.length_drop]; omega), ByteMem.write_of_lt (by omega)]

/-- Of a packet as long as the ring or longer the last bytes fill it from the start. -/
theorem ringAppend_long (h0 : 0 < ring.size) (hlen : ring.size ≤ data.length) :
    ringAppend ring pos data = (ring.write 0 (data.drop (data.length - ring.size)), 0) := by
  have hdrop : (data.drop (data.length - ring.size)).length = ring.size := by
    rw [List.length_drop]
    omega
  simp only [ringAppend, if_pos hlen]
  rw [if_neg (by omega)]
  simp only [hdrop, Nat.sub_zero, le_refl, if_true, Nat.zero_add, Nat.mod_self]

/-- **One packet.** A ring that shows a history shows it with the packet appended. -/
theorem ringAppend_shows {H : List UInt8} (hpos : pos < ring.size) (h : Circ.Shows ring.size ring.byte pos H)
    (data : List UInt8) : (ringAppend ring pos data).2 < ring.size ∧
      Circ.Shows ring.size (ringAppend ring pos data).1.byte (ringAppend ring pos data).2 (H ++ data) := by
  have h0 : 0 < ring.size := by omega
  by_cases hnil : data.length = 0
  · have hsame : ringAppend ring pos data = (ring, pos) := by rw [ringAppend, if_pos (.inr hnil)]
    rw [hsame, List.eq_nil_of_length_eq_zero hnil, List.append_nil]
    exact ⟨hpos, h⟩
  · by_cases hlen : data.length < ring.size
    · have hnext : (ringAppend ring pos data).2 = (pos + data.length) % ring.size := by
        rw [ringAppend_short hnil hlen]
      rw [hnext]
      refine ⟨Nat.mod_lt _ h0, h.append hpos hlen.le ?_ ?_⟩
      · exact fun j hj => ringAppend_short_put hnil hpos hlen hj
      · exact fun j hge hj => ringAppend_short_keep hnil hpos hlen hge hj
    · have hlen := not_lt.mp hlen
      rw [ringAppend_long h0 hlen]
      refine ⟨h0, Circ.shows_full hlen fun j hj => ?_⟩
      have hput := @write_apply ring.byte 0 j (data.drop (data.length - ring.size))
        (by rw [List.length_drop]; omega)
      rw [List.getElem?_drop, Nat.zero_add] at hput
      exact hput

end Append

/-- A run of packets. -/
theorem ringAppendAll_shows (packets : List (List UInt8)) {st : Block × ℕ} {H : List UInt8} (hpos : st.2 < st.1.size)
    (h : Circ.Shows st.1.size st.1.byte st.2 H) :
    (ringAppendAll ringAppend st packets).1.size = st.1.size ∧
      (ringAppendAll ringAppend st packets).2 < st.1.size ∧
      Circ.Shows st.1.size (ringAppendAll ringAppend st packets).1.byte (ringAppendAll ringAppend st packets).2
        (H ++ packets.flatten) := by
  induction packets generalizing st H with
  | nil => simpa [ringAppendAll] using ⟨hpos, h⟩
  | cons data packets ih =>
    obtain ⟨hpos', h'⟩ := ringAppend_shows hpos h data
    have hsize := ringAppend_size st.1 st.2 data
    rw [← hsize] at hpos' h'
    have hrest := ih hpos' h'
    rw [hsize, List.append_assoc] at hrest
    exact hrest

/-- **The ring holds the most recent history.** Packets of any lengths are appended to a ring of `rs` zero bytes: the
write position stays in the ring, `k` places before it stands the `k`th byte from the end of all packets, as far as
the ring and the packets go, and both functions give the same ring and position. -/
theorem ring_shows_history (rs : ℕ) (hrs : 0 < rs) (packets : List (List UInt8)) :
    ∃ ring pos, ringAppendAll ctxRingAppend (.zero rs, 0) packets = (ring, pos) ∧
      ringAppendAll decompRingAppend (.zero rs, 0) packets = (ring, pos) ∧ ring.size = rs ∧ pos < rs ∧
      ∀ k, 1 ≤ k → k ≤ min rs packets.flatten.length →
        packets.flatten[packets.flatten.length - k]? = some (ring.byte ((pos + rs - k) % rs)) := by
  obtain ⟨hsize, hpos, h⟩ := @ringAppendAll_shows packets (.zero rs, 0) [] hrs (Circ.shows_nil _ _ _)
  refine ⟨_, _, rfl, rfl, hsize, hpos, fun k h1 hk => ?_⟩
  rw [List.nil_append] at h
  exact h k h1 (hk.trans (min_le_left _ _)) (hk.trans (min_le_right _ _))

/-- A ring of three bytes: a short packet, one that goes past the end, and one that is longer than the ring. -/
theorem ring_shows_history_three : ∃ ring pos,
    ringAppendAll ctxRingAppend (.zero 3, 0) [[1, 2], [3, 4], [5, 6, 7, 8]] = (ring, pos) ∧ pos < 3 ∧
      ring.byte ((pos + 3 - 1) % 3) = 8 ∧ ring.byte ((pos + 3 - 3) % 3) = 6 := by
  obtain ⟨ring, pos, hrun, -, -, hpos, h⟩ := ring_shows_history 3 (by norm_num) [[1, 2], [3, 4], [5, 6, 7, 8]]
  refine ⟨ring, pos, hrun, hpos, ?_, ?_⟩
  · exact (Option.some.inj (h 1 (by norm_num) (by simp))).symm
  · exact (Option.some.inj (h 3 (by norm_num) (by simp))).symm

end Netc
