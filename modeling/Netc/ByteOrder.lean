/-
# The bit stream on hosts of either byte order

`netc_bsw_write` stores a full word of its accumulator with a `memcpy` of a
native `uint32_t`, `netc_bsw_flush` the rest byte by byte. On a little-endian
host the stream is the bits of the values, low bit first, and a closing 1 bit
(`bswStream_pack`). On a big-endian host the bytes of every full word are the
other way round, so that the two streams are the same just when every full
word reads the same from both ends (`stream_hosts_agree_iff`).

Key definitions: `ByteOrder`, `nativeU32`, `bswStreamOn`, `swapWords`, `Fields.Mirrored`.
Key theorems: `bswStreamOn_big`, `bswStream_pack`, `stream_hosts_agree_iff`.
-/
import Netc.BitStack
import Netc.Lib.Bits

namespace Netc

/-! ### The writer on a host -/

/-- The order in which a host keeps the bytes of an integer. -/
inductive ByteOrder where
  | little
  | big
  deriving DecidableEq, Repr

/-- `memcpy(p, &word, 4)` -/
def nativeU32 (host : ByteOrder) (word : ℕ) : List UInt8 :=
  match host with
  | .little => Digits.leBytes 4 word
  | .big => (Digits.leBytes 4 word).reverse

/-- `netc_bsw_write` on a host. -/
def bswWriteOn (host : ByteOrder) (w : Bsw) (v nb : ℕ) : Except Bsw Bsw :=
  let accum := (w.accum ||| v <<< w.bits) % 2 ^ 64
  let bits := w.bits + nb
  if 32 ≤ bits then
    if w.cap < w.out.length + 4 then .error { w with accum, bits }
    else .ok { w with
      out := w.out ++ nativeU32 host (accum % 2 ^ 32)
      accum := accum >>> 32
      bits := bits - 32 }
  else .ok { w with accum, bits }

/-- The writes `ws` on a host. -/
def bswWritesOn (host : ByteOrder) (w : Bsw) (ws : Fields) : Except Bsw Bsw :=
  ws.foldlM (fun w p => bswWriteOn host w p.1 p.2) w

/-- The writes `ws` and the flush on a host. -/
def bswStreamOn (host : ByteOrder) (cap : ℕ) (ws : Fields) : Except Bsw Bsw :=
  bswWritesOn host (bswInit cap) ws >>= bswFlush

theorem bswStreamOn_little (cap : ℕ) (ws : Fields) : bswStreamOn .little cap ws = bswStream cap ws := rfl

/-! ### Words the other way round -/

/-- The bytes of every full word in reverse. -/
def swapWords : List UInt8 → List UInt8
  | a :: b :: c :: d :: l => d :: c :: b :: a :: swapWords l
  | l => l

@[simp] theorem length_swapWords : ∀ l : List UInt8, (swapWords l).length = l.length
  | [] | [_] | [_, _] | [_, _, _] => rfl
  | _ :: _ :: _ :: _ :: l => by simp [swapWords, length_swapWords l]

theorem swapWords_append : ∀ {l : List UInt8} (word : List UInt8), l.length % 4 = 0 → word.length = 4 →
    swapWords (l ++ word) = swapWords l ++ word.reverse
  | [], [_, _, _, _], _, _ => rfl
  | [_], _, h, _ | [_, _], _, h, _ | [_, _, _], _, h, _ => by simp at h
  | a :: b :: c :: d :: l, word, h, hw => by
    have hl : l.length % 4 = 0 := by
      simp only [List.length_cons] at h
      omega
    simp [swapWords, swapWords_append word hl hw]

/-- Words that stay are words whose bytes mirror each other. -/
theorem swapWords_eq_self_iff : ∀ {l : List UInt8}, l.length % 4 = 0 →
    (swapWords l = l ↔ ∀ k, 4 * k + 4 ≤ l.length →
      l.getD (4 * k) 0 = l.getD (4 * k + 3) 0 ∧ l.getD (4 * k + 1) 0 = l.getD (4 * k + 2) 0)
  | [], _ => by simp [swapWords]
  | [_], h | [_, _], h | [_, _, _], h => by simp at h
  | a :: b :: c :: d :: l, h => by
    have hl : l.length % 4 = 0 := by
      simp only [List.length_cons] at h
      omega
    have ih := swapWords_eq_self_iff hl
    simp only [swapWords, List.cons.injEq, List.length_cons]
    constructor
    · rintro ⟨rfl, rfl, -, -, hrest⟩ k hk
      rcases k with _ | k
      · exact ⟨rfl, rfl⟩
      · exact ih.mp hrest k (by omega)
    · intro hall
      obtain ⟨h0, h1⟩ := hall 0 (by omega)
      have h0 : a = d := h0
      have h1 : b = c := h1
      exact ⟨h0.symm, h1.symm, h1, h0, ih.mpr fun k hk => hall (k + 1) (by omega)⟩

/-! ### The two streams -/

/-- The big-endian writer beside the little-endian one: the same but for the order of the bytes in the words. -/
structure Swapped (w b : Bsw) : Prop where
  words : w.out.length % 4 = 0
  eq : b = { w with out := swapWords w.out }

theorem bswWriteOn_swapped {w b : Bsw} (h : Swapped w b) (v nb : ℕ) :
    (∃ w' b', bswWrite w v nb = .ok w' ∧ bswWriteOn .big b v nb = .ok b' ∧ Swapped w' b') ∨
      ∃ w' b', bswWrite w v nb = .error w' ∧ bswWriteOn .big b v nb = .error b' := by
  obtain ⟨hwords, rfl⟩ := h
  simp only [bswWrite, bswWriteOn, length_swapWords]
  split
  · split
    · exact .inr ⟨_, _, rfl, rfl⟩
    · refine .inl ⟨_, _, rfl, rfl, ?_, ?_⟩
      · simp only [List.length_append, Digits.length_leBytes]
        omega
      · rw [swapWords_append _ hwords (Digits.length_leBytes ..)]
        rfl
  · exact .inl ⟨_, _, rfl, rfl, hwords, rfl⟩

theorem bswWritesOn_swapped : ∀ {ws : Fields} {w b w' : Bsw}, Swapped w b → bswWrites w ws = .ok w' →
    ∃ b', bswWritesOn .big b ws = .ok b' ∧ Swapped w' b'
  | [], w, b, w', h, hw => by
    obtain rfl : w = w' := Except.ok.inj hw
    exact ⟨b, rfl, h⟩
  | p :: ws, w, b, w', h, hw => by
    rw [bswWrites_cons] at hw
    rw [bswWritesOn, List.foldlM_cons]
    rcases bswWriteOn_swapped h p.1 p.2 with ⟨w1, b1, h1, h2, h3⟩ | ⟨w1, b1, h1, -⟩
    · rw [h1] at hw
      rw [h2]
      exact bswWritesOn_swapped h3 hw
    · rw [h1] at hw
      cases hw

/-- The flush appends the same bytes to whatever stands in the buffer. -/
theorem flush_run_frame {out : List UInt8} : ∀ (n : ℕ) (w w' : Bsw), out.length = w.out.length →
    Loop.run (fun w => decide (0 < w.bits)) bswFlushByte n w = .ok w' →
    ∃ rest, w'.out = w.out ++ rest ∧
      Loop.run (fun w => decide (0 < w.bits)) bswFlushByte n { w with out } = .ok { w' with out := out ++ rest }
  | 0, w, w', hlen, h => by
    obtain rfl : w = w' := Except.ok.inj h
    exact ⟨[], by simp, by simp [Loop.run]⟩
  | n + 1, w, w', hlen, h => by
    by_cases h0 : 0 < w.bits
    · by_cases hc : w.cap ≤ w.out.length
      · rw [Loop.run_error n (by simpa using h0) (by rw [bswFlushByte, if_pos hc])] at h
        cases h
      · rw [Loop.run_succ n (by simpa using h0) (by rw [bswFlushByte, if_neg hc])] at h
        obtain ⟨rest, hout, hrun⟩ := @flush_run_frame (out ++ [UInt8.ofNat (w.accum % 256)]) n _ w'
          (by simp [hlen]) h
        refine ⟨UInt8.ofNat (w.accum % 256) :: rest, by simpa using hout, ?_⟩
        rw [Loop.run_succ n (by simpa using h0) (by rw [bswFlushByte, if_neg (by simpa [hlen] using hc)])]
        simpa using hrun
    · rw [Loop.run_false _ (by simpa using h0)] at h
      obtain rfl : w = w' := Except.ok.inj h
      exact ⟨[], by simp, by rw [Loop.run_false _ (by simpa using h0)]; simp⟩

/-- **On a big-endian host** the full words of the stream are the other way round and the rest is the same. -/
theorem bswStreamOn_big {ws : Fields} (hws : ws.Fit) {cap : ℕ} {w : Bsw} (h : bswStream cap ws = .ok w) :
    ∃ (words rest : List UInt8) (b : Bsw), bswStreamOn .big cap ws = .ok b ∧ w.out = words ++ rest ∧
      b.out = swapWords words ++ rest ∧ words.length = 4 * (ws.width / 32) ∧
      Digits.leNat words = ws.value % 2 ^ (8 * words.length) := by
  unfold bswStream at h
  obtain ⟨w1, h1, h⟩ := Exc.bind_eq_ok h
  have hstart : Swapped (bswInit cap) (bswInit cap) := ⟨rfl, rfl⟩
  obtain ⟨b1, hb1, hwords, rfl⟩ := bswWritesOn_swapped hstart h1
  obtain ⟨hold, -⟩ := bswWrites_holds (bswInit_holds cap) hws h1
  have hlen := hold.length
  have hbits := hold.bits_lt
  have hval := hold.value
  simp only [Nat.zero_add, pow_zero, Nat.mul_one] at hlen hval
  unfold bswFlush at h
  obtain ⟨rest, hout, hrun⟩ := @flush_run_frame (swapWords w1.out) _ _ w (by simp) h
  refine ⟨w1.out, rest, { w with out := swapWords w1.out ++ rest }, ?_, hout, rfl, by omega, ?_⟩
  · unfold bswStreamOn
    rw [hb1, Exc.ok_bind]
    exact hrun
  · rw [← hval, Nat.add_mul_mod_self_left, Nat.mod_eq_of_lt (Digits.leNat_lt_two_pow w1.out)]

namespace Fields

/-- The bits of the values one after the other, each low bit first. -/
def bits (ws : Fields) : List Bool := ws.flatMap fun p => Bits.ofNat p.2 p.1

/-- Byte `j` of the bits. -/
def byte (ws : Fields) (j : ℕ) : ℕ := ws.value / 2 ^ (8 * j) % 2 ^ 8

/-- In every full word of the bits the first byte is the last and the second the third. -/
def Mirrored (ws : Fields) : Prop :=
  ∀ k < ws.width / 32, ws.byte (4 * k) = ws.byte (4 * k + 3) ∧ ws.byte (4 * k + 1) = ws.byte (4 * k + 2)

theorem length_bits : ∀ ws : Fields, ws.bits.length = ws.width
  | [] => rfl
  | p :: ws => by
    rw [bits, List.flatMap_cons, List.length_append, Bits.length_ofNat, width_cons]
    exact congrArg (p.2 + ·) (length_bits ws)

theorem Fit.toNat_bits : ∀ {ws : Fields}, ws.Fit → Bits.toNat ws.bits = ws.value
  | [], _ => rfl
  | p :: ws, h => by
    obtain ⟨⟨-, -, hp⟩, hws⟩ := fit_cons.mp h
    have ih : Bits.toNat (ws.flatMap fun p => Bits.ofNat p.2 p.1) = value ws := Fit.toNat_bits hws
    rw [bits, List.flatMap_cons, Bits.toNat_append, Bits.toNat_ofNat, Nat.mod_eq_of_lt hp, Bits.length_ofNat, ih,
      value, Nat.mul_comm]

end Fields

/-- **On a little-endian host** the stream is the bits of the values and a closing 1 bit. -/
theorem bswStream_pack {ws : Fields} (hws : ws.Fit) {cap : ℕ} {w : Bsw} (h : bswStream cap ws = .ok w) :
    w.out = Bits.pack (ws.bits ++ [true]) := by
  obtain ⟨hval, hlen⟩ := bswStream_holds hws h
  apply Bits.eq_pack
  · rw [List.length_append, Fields.length_bits, hlen, List.length_singleton]
    omega
  · rw [Bits.toNat_append, hws.toNat_bits, Fields.length_bits, hval]
    simp [Bits.toNat]

/-- Bytes of a number stand in its words. -/
theorem getD_words {words : List UInt8} {V j : ℕ} (hval : Digits.leNat words = V % 2 ^ (8 * words.length))
    (hj : j < words.length) : (words.getD j 0).toNat = V / 2 ^ (8 * j) % 2 ^ 8 := by
  have hsplit : 8 * words.length = 8 * j + 8 + 8 * (words.length - j - 1) := by omega
  rw [Digits.toNat_getD _ _ hj, hval, Digits.pow_256, show 256 = 2 ^ 8 by norm_num, hsplit, pow_add, pow_add,
    mul_assoc, Nat.mod_mul_right_div_self, Nat.mod_mul_right_mod]

theorem swapWords_eq_iff_mirrored {ws : Fields} {words : List UInt8} (hlen : words.length = 4 * (ws.width / 32))
    (hval : Digits.leNat words = ws.value % 2 ^ (8 * words.length)) : swapWords words = words ↔ ws.Mirrored := by
  rw [swapWords_eq_self_iff (by omega)]
  have hbyte : ∀ {j}, j < words.length → (words.getD j 0).toNat = ws.byte j := getD_words hval
  constructor
  · intro h k hk
    obtain ⟨h0, h1⟩ := h k (by omega)
    rw [← hbyte (by omega), ← hbyte (by omega), ← hbyte (by omega), ← hbyte (by omega), h0, h1]
    exact ⟨rfl, rfl⟩
  · intro h k hk
    obtain ⟨h0, h1⟩ := h k (by omega)
    rw [← hbyte (by omega), ← hbyte (by omega)] at h0 h1
    exact ⟨UInt8.toNat_inj.mp h0, UInt8.toNat_inj.mp h1⟩

/-- The two hosts write the same bytes, the packed bits and a closing 1 bit, and a reader on a host of the other
byte order gets the values back. -/
def HostsAgree (cap : ℕ) (ws : Fields) : Prop :=
  ∃ w b, bswStreamOn .little cap ws = .ok w ∧ bswStreamOn .big cap ws = .ok b ∧ w.out = b.out ∧
    w.out = Bits.pack (ws.bits ++ [true]) ∧
    ∃ r r', bsrInit b.out = .ok r ∧
      bsrReads r (ws.reverse.map Prod.snd) = .ok (ws.reverse.map fun p => some p.1, r')

/-- **Byte order**: the streams of the two hosts are the same when every full word of the bits reads the same
from both ends, as it does when there is none, and in no other case. -/
theorem stream_hosts_agree_iff (ws : Fields) (hws : ws.Fit) (cap : ℕ) (hcap : ws.width / 8 + 1 ≤ cap) :
    HostsAgree cap ws ↔ ws.Mirrored := by
  obtain ⟨w, hw⟩ := (bswStream_ok_iff hws cap).mpr hcap
  obtain ⟨words, rest, b, hb, hwout, hbout, hlen, hval⟩ := bswStreamOn_big hws hw
  rw [← swapWords_eq_iff_mirrored hlen hval]
  constructor
  · rintro ⟨w', b', hw', hb', heq, -, -⟩
    rw [bswStreamOn_little] at hw'
    obtain rfl : w = w' := Except.ok.inj (hw.symm.trans hw')
    obtain rfl : b = b' := Except.ok.inj (hb.symm.trans hb')
    rw [hwout, hbout] at heq
    exact (List.append_cancel_right heq).symm
  · intro hsame
    have heq : w.out = b.out := by rw [hwout, hbout, hsame]
    obtain ⟨hspell, hbytes⟩ := bswStream_holds hws hw
    obtain ⟨r, hr, hshows⟩ := bsrInit_shows hws.value_lt hbytes hspell
    obtain ⟨r', hreads, -⟩ := bsrReads_back hws hshows
    exact ⟨w, b, hw, hb, heq, bswStream_pack hws hw, r, r', heq ▸ hr, hreads⟩

/-- Less than a word. -/
theorem stream_hosts_agree_short : HostsAgree 2 [(5, 3), (0x1F, 9)] := by
  refine (stream_hosts_agree_iff _ (by unfold Fields.Fit; decide) 2 (by decide)).mpr fun k hk => ?_
  simp [Fields.width] at hk

/-- A word that is not mirrored: a 1 in 32 bits. -/
theorem not_hostsAgree_one : ¬HostsAgree 5 [(1, 32)] := by
  rintro ⟨w, b, hw, hb, heq, -⟩
  obtain rfl : (⟨[1, 0, 0, 0, 1], 5, 0, 0⟩ : Bsw) = w := Except.ok.inj (Eq.trans (by rfl) hw)
  obtain rfl : (⟨[0, 0, 0, 1, 1], 5, 0, 0⟩ : Bsw) = b := Except.ok.inj (Eq.trans (by rfl) hb)
  revert heq
  decide

end Netc
