/-
# LZP as a codec of its own

`netc_lzp_predict` and `netc_lzp_reconstruct` of `netc_lzp.h`. A packet becomes a count of literals, one
flag a byte, set where the table predicts it, and the bytes that it does not predict. The count has sixteen
bits and so has the index at which the next literal is put: with 65536 literals both start over and the
first ones are lost.

The stream of a packet gives it back exactly if it has fewer literals than that, and else is refused; on any
other bytes the reconstruction stays in the stream and in the table (`lzp_literals_roundtrip`).

Key definitions: `lzpPredict`, `lzpReconstruct`, `lzpLiteralCount`.
Key theorems: `lzpReconstruct_loop`, `lzpReconstruct_safe`, `lzp_literals_roundtrip`.
-/
import Netc.Lzp
import Netc.Dict

namespace Netc

/-! ### The codec -/

/-- The entry predicts byte `b`. -/
def LzpEntry.hits (e : LzpEntry) (b : UInt8) : Bool := e.valid != 0 && e.value == b

/-- The variables of `netc_lzp_predict`: the memory at `flag_dst` and at `lit_dst`, and `n_literals`. -/
structure LzpStream where
  flags : ℕ → UInt8
  lits : ℕ → UInt8
  count : ℕ

/-- `flag_dst[i >> 3] |= 0x80 >> (i & 7)` -/
def setFlag (flags : ℕ → UInt8) (i : ℕ) : ℕ → UInt8 :=
  Function.update flags (i / 8) (flags (i / 8) ||| UInt8.ofNat (0x80 >>> (i % 8)))

/-- The loop of `netc_lzp_predict` from `i` on, after byte `prev`. -/
def lzpPredictFrom (table : LzpTable) : ℕ → UInt8 → List UInt8 → LzpStream → LzpStream
  | _, _, [], st => st
  | i, prev, b :: src, st =>
    if (table (lzpHash prev i)).hits b then lzpPredictFrom table (i + 1) b src { st with flags := setFlag st.flags i }
    else lzpPredictFrom table (i + 1) b src
      { st with lits := Function.update st.lits st.count b, count := (st.count + 1) % 2 ^ 16 }

/-- `flag_bytes` -/
def flagBytes (n : ℕ) : ℕ := (n + 7) / 8

/-- What stands in the buffer for a packet of `n` bytes: the count, the flags and the literals. -/
def LzpStream.bytes (st : LzpStream) (n : ℕ) : List UInt8 :=
  UInt8.ofNat (st.count % 256) :: UInt8.ofNat (st.count / 256)
    :: (ByteMem.slice st.flags 0 (flagBytes n) ++ ByteMem.slice st.lits 0 st.count)

/-- `netc_lzp_predict` into a buffer of `dstCap` bytes that holds `junk`: what it returns, unless that is
`(size_t)-1`. -/
def lzpPredict (table : LzpTable) (src : List UInt8) (dstCap : ℕ) (junk : ℕ → UInt8) : Option (List UInt8) :=
  if src.length < 2 then none
  else if dstCap < 2 + flagBytes src.length + src.length then none
  else
    let st := lzpPredictFrom table 0 0 src ⟨fun _ => 0, junk, 0⟩
    let total := 2 + flagBytes src.length + st.count
    if total < src.length then some (st.bytes src.length) else none

/-- The flag of position `i` in byte `f`. -/
def flagBit (f : UInt8) (i : ℕ) : Bool := (f.toNat >>> (7 - i % 8)) &&& 1 == 1

/-- The loop of `netc_lzp_reconstruct`: `n` bytes from `i` on, after byte `prev`, with `litIdx` literals
read. Without a value it is the return of `-1`. -/
def lzpReconstructFrom (table : LzpTable) (src : List UInt8) (flagSize nLiterals : ℕ) :
    ℕ → ℕ → UInt8 → ℕ → Chk (Option (List UInt8))
  | 0, _, _, litIdx => .ok (if litIdx = nLiterals then some [] else none)
  | n + 1, i, prev, litIdx => do
    let f ← Chk.get src (2 + i / 8)
    Chk.index (lzpHash prev i) lzpHtSize
    let e := table (lzpHash prev i)
    if flagBit f i then
      if e.valid = 0 then return none
      else
        let rest ← lzpReconstructFrom table src flagSize nLiterals n (i + 1) e.value litIdx
        return rest.map (e.value :: ·)
    else if nLiterals ≤ litIdx then return none
    else
      let b ← Chk.get src (2 + flagSize + litIdx)
      let rest ← lzpReconstructFrom table src flagSize nLiterals n (i + 1) b (litIdx + 1)
      return rest.map (b :: ·)

/-- `netc_lzp_reconstruct` of `dstSize` bytes. -/
def lzpReconstruct (table : LzpTable) (src : List UInt8) (dstSize : ℕ) : Chk (Option (List UInt8)) :=
  if dstSize < 2 then .ok none
  else if src.length < 2 then .ok none
  else do
    let lo ← Chk.get src 0
    let hi ← Chk.get src 1
    let nLiterals := lo.toNat + 256 * hi.toNat
    if src.length < 2 + flagBytes dstSize + nLiterals then return none
    else lzpReconstructFrom table src (flagBytes dstSize) nLiterals dstSize 0 0 0

/-- The bytes of a packet that the table does not predict. -/
def lzpLiteralCount (table : LzpTable) (ps : List (ℕ × UInt8 × UInt8)) : ℕ :=
  ps.countP fun p => !(table (lzpHash p.2.1 p.1)).hits p.2.2

/-! ### Flags -/

section Flags

/-- The flag of position `i` in the flags. -/
def flagAt (flags : ℕ → UInt8) (i : ℕ) : Bool := flagBit (flags (i / 8)) i

theorem flagBit_eq (f : UInt8) (i : ℕ) : flagBit f i = f.toNat.testBit (7 - i % 8) := by
  unfold flagBit Nat.testBit
  rw [Nat.and_comm]
  have hle : 1 &&& f.toNat >>> (7 - i % 8) ≤ 1 := Nat.and_le_left
  rcases Nat.le_one_iff_eq_zero_or_eq_one.mp hle with h | h <;> rw [h] <;> rfl

theorem toNat_flagMask {r : ℕ} (h : r < 8) : (UInt8.ofNat (0x80 >>> r)).toNat = 2 ^ (7 - r) := by
  interval_cases r <;> rfl

/-- Setting a flag sets this one and no other. -/
theorem flagAt_setFlag (flags : ℕ → UInt8) (i j : ℕ) :
    flagAt (setFlag flags i) j = (decide (j = i) || flagAt flags j) := by
  unfold flagAt setFlag
  by_cases hbyte : j / 8 = i / 8
  · rw [hbyte, Function.update_self, flagBit_eq, flagBit_eq, UInt8.toNat_or, Nat.testBit_or,
      toNat_flagMask (Nat.mod_lt _ (by norm_num)), Nat.testBit_two_pow, Bool.or_comm]
    congr 1
    rw [decide_eq_decide]
    omega
  · have hne : j ≠ i := fun h => hbyte (by rw [h])
    rw [Function.update_of_ne hbyte, decide_eq_false hne, Bool.false_or]

end Flags

/-! ### What the encoder leaves -/

section Predict

variable {table : LzpTable}

theorem lzpLiteralCount_cons (i : ℕ) (prev b : UInt8) (src : List UInt8) :
    lzpLiteralCount table (positionsFrom i prev (b :: src))
      = lzpLiteralCount table (positionsFrom (i + 1) b src) + if (table (lzpHash prev i)).hits b then 0 else 1 := by
  simp only [lzpLiteralCount, positionsFrom, List.countP_cons]
  rcases (table (lzpHash prev i)).hits b <;> rfl

/-- Flags of positions that are done stay. -/
theorem lzpPredictFrom_flags : ∀ (src : List UInt8) {i : ℕ} {prev : UInt8} {st : LzpStream} {j : ℕ}, j < i →
    flagAt (lzpPredictFrom table i prev src st).flags j = flagAt st.flags j
  | [], _, _, _, _, _ => rfl
  | b :: src, i, prev, st, j, hj => by
    rw [lzpPredictFrom]
    split
    · rw [lzpPredictFrom_flags src (by omega), flagAt_setFlag, decide_eq_false (by omega), Bool.false_or]
    · rw [lzpPredictFrom_flags src (by omega)]

/-- The flag of a position says whether it was predicted. -/
theorem lzpPredictFrom_flag {i : ℕ} {prev b : UInt8} {src : List UInt8} {st : LzpStream}
    (hclear : flagAt st.flags i = false) :
    flagAt (lzpPredictFrom table i prev (b :: src) st).flags i = (table (lzpHash prev i)).hits b := by
  rw [lzpPredictFrom]
  split
  · next hit =>
    rw [lzpPredictFrom_flags src (Nat.lt_succ_self i), flagAt_setFlag, decide_eq_true rfl, Bool.true_or, hit]
  · next miss =>
    rw [lzpPredictFrom_flags src (Nat.lt_succ_self i), hclear]
    exact (Bool.eq_false_iff.mpr miss).symm

/-- The count of the literals, modulo 2^16. -/
theorem lzpPredictFrom_count : ∀ (src : List UInt8) (i : ℕ) (prev : UInt8) {st : LzpStream}, st.count < 2 ^ 16 →
    (lzpPredictFrom table i prev src st).count = (st.count + lzpLiteralCount table (positionsFrom i prev src)) % 2 ^ 16
  | [], _, _, _, h => (Nat.mod_eq_of_lt h).symm
  | b :: src, i, prev, st, h => by
    rw [lzpPredictFrom, lzpLiteralCount_cons]
    split
    · exact lzpPredictFrom_count src (i + 1) b h
    · rw [lzpPredictFrom_count src (i + 1) b (Nat.mod_lt _ (by norm_num)), Nat.mod_add_mod]
      congr 1
      omega

/-- With room in the count, literals that are put stay. -/
theorem lzpPredictFrom_lits : ∀ (src : List UInt8) {i : ℕ} {prev : UInt8} {st : LzpStream} {k : ℕ}, k < st.count →
    st.count + lzpLiteralCount table (positionsFrom i prev src) < 2 ^ 16 →
    (lzpPredictFrom table i prev src st).lits k = st.lits k
  | [], _, _, _, _, _, _ => rfl
  | b :: src, i, prev, st, k, hk, hroom => by
    rw [lzpLiteralCount_cons] at hroom
    rw [lzpPredictFrom]
    split
    · exact lzpPredictFrom_lits src hk (by simp only; omega)
    · next miss =>
      rw [if_neg miss] at hroom
      have hnext : (st.count + 1) % 2 ^ 16 = st.count + 1 := Nat.mod_eq_of_lt (by omega)
      rw [lzpPredictFrom_lits src (by simp only [hnext]; omega) (by simp only [hnext]; omega)]
      exact Function.update_of_ne (by omega) _ _

end Predict

/-! ### The way back -/

section Reconstruct

variable {table : LzpTable} {bytes : List UInt8} {flagSize : ℕ}

/-- **The loop gives the packet back**, if the bytes hold what the encoder left and the count has not
started over. -/
theorem lzpReconstruct_loop : ∀ (src : List UInt8) {i : ℕ} {prev : UInt8} {st fin : LzpStream},
    lzpPredictFrom table i prev src st = fin → (∀ j, i ≤ j → flagAt st.flags j = false) →
    st.count + lzpLiteralCount table (positionsFrom i prev src) < 2 ^ 16 →
    (∀ j, j < i + src.length → Chk.get bytes (2 + j / 8) = .ok (fin.flags (j / 8))) →
    (∀ k, k < fin.count → Chk.get bytes (2 + flagSize + k) = .ok (fin.lits k)) →
    lzpReconstructFrom table bytes flagSize fin.count src.length i prev st.count = .ok (some src)
  | [], i, prev, st, fin, hfin, _, _, _, _ => by
    rw [← hfin]
    exact congrArg Except.ok (if_pos rfl)
  | b :: src, i, prev, st, fin, hfin, hclear, hroom, hflags, hlits => by
    have hflag : flagBit (fin.flags (i / 8)) i = (table (lzpHash prev i)).hits b := by
      have h := @lzpPredictFrom_flag table i prev b src st (hclear i (le_refl i))
      rwa [hfin] at h
    have hcount := @lzpPredictFrom_count table (b :: src) i prev st (by omega)
    rw [Nat.mod_eq_of_lt hroom, hfin] at hcount
    rw [lzpLiteralCount_cons] at hroom hcount
    rw [lzpPredictFrom] at hfin
    rw [List.length_cons, lzpReconstructFrom, hflags i (by rw [List.length_cons]; omega), Exc.ok_bind,
      Chk.index_of_lt (lzpHash_lt prev i), Exc.ok_bind, hflag]
    have hflags' : ∀ j, j < i + 1 + src.length → Chk.get bytes (2 + j / 8) = .ok (fin.flags (j / 8)) := fun j hj =>
      hflags j (by rw [List.length_cons]; omega)
    rcases hit : (table (lzpHash prev i)).hits b
    · -- a literal: it stands at the index that has been reached
      rw [hit, if_neg (by simp)] at hfin hroom hcount
      have hnext : (st.count + 1) % 2 ^ 16 = st.count + 1 := Nat.mod_eq_of_lt (by omega)
      rw [hnext] at hfin
      have hlit : fin.lits st.count = b := by
        rw [← hfin, lzpPredictFrom_lits src (Nat.lt_succ_self st.count) (by simp only; omega)]
        exact Function.update_self ..
      have hrest := lzpReconstruct_loop src hfin (fun j hj => hclear j (by omega)) (by simp only; omega) hflags' hlits
      rw [if_neg (by simp), if_neg (by omega), hlits st.count (by omega), Exc.ok_bind, hlit]
      simp only [hrest, Exc.ok_bind, Exc.pure_eq, Option.map_some]
    · rw [hit, if_pos rfl] at hfin hroom hcount
      simp only [LzpEntry.hits, Bool.and_eq_true, bne_iff_ne, ne_eq, beq_iff_eq] at hit
      have hrest := lzpReconstruct_loop src hfin (fun j hj => by
        rw [flagAt_setFlag, decide_eq_false (by omega), Bool.false_or]
        exact hclear j (by omega)) (by simp only; omega) hflags' hlits
      rw [if_pos rfl, if_neg hit.1, hit.2]
      simp only [hrest, Exc.ok_bind, Exc.pure_eq, Option.map_some]

/-- The positions without a flag. -/
def unflagged (bytes : List UInt8) : ℕ → ℕ → ℕ
  | 0, _ => 0
  | n + 1, i => (if flagBit (bytes.getD (2 + i / 8) 0) i then 0 else 1) + unflagged bytes n (i + 1)

/-- The loop is in bounds on all bytes; and where it succeeds it has read as many literals as there are
positions without a flag, and all there are. -/
theorem lzpReconstructFrom_ok {nLiterals : ℕ} (hsize : 2 + flagSize + nLiterals ≤ bytes.length) :
    ∀ (n i : ℕ) (prev : UInt8) (litIdx : ℕ), i + n ≤ 8 * flagSize → litIdx ≤ nLiterals →
    ∃ r, lzpReconstructFrom table bytes flagSize nLiterals n i prev litIdx = .ok r ∧
      ∀ out, r = some out → out.length = n ∧ litIdx + unflagged bytes n i = nLiterals
  | 0, i, prev, litIdx, _, hidx => by
    refine ⟨_, rfl, fun out hout => ?_⟩
    split at hout
    · next heq => exact ⟨by rw [← Option.some.inj hout]; rfl, heq⟩
    · cases hout
  | n + 1, i, prev, litIdx, hi, hidx => by
    have hbyte : i / 8 < flagSize := by omega
    have hget := @Chk.get_of_lt UInt8 bytes (2 + i / 8) (by omega)
    have hgetD := Chk.getD_of_get hget 0
    rw [lzpReconstructFrom, hget, Exc.ok_bind, Chk.index_of_lt (lzpHash_lt prev i), Exc.ok_bind, ← hgetD]
    simp only [unflagged]
    split
    · split
      · exact ⟨none, rfl, by simp⟩
      · obtain ⟨r, hr, hout⟩ :=
          lzpReconstructFrom_ok hsize n (i + 1) (table (lzpHash prev i)).value litIdx (by omega) hidx
        refine ⟨_, by rw [hr, Exc.ok_bind]; rfl, fun out h => ?_⟩
        obtain ⟨out', rfl, rfl⟩ := Option.map_eq_some_iff.mp h
        obtain ⟨hlen, hcount⟩ := hout out' rfl
        exact ⟨by rw [List.length_cons, hlen], by omega⟩
    · split
      · exact ⟨none, rfl, by simp⟩
      · have hlit := @Chk.get_of_lt UInt8 bytes (2 + flagSize + litIdx) (by omega)
        obtain ⟨r, hr, hout⟩ := lzpReconstructFrom_ok hsize n (i + 1) _ (litIdx + 1) (by omega) (by omega)
        refine ⟨_, by rw [hlit, Exc.ok_bind, hr, Exc.ok_bind]; rfl, fun out h => ?_⟩
        obtain ⟨out', rfl, rfl⟩ := Option.map_eq_some_iff.mp h
        obtain ⟨hlen, hcount⟩ := hout out' rfl
        exact ⟨by rw [List.length_cons, hlen], by omega⟩

/-- In the encoder's bytes these positions are the ones not predicted. -/
theorem unflagged_eq : ∀ (src : List UInt8) {i : ℕ} {prev : UInt8} {st fin : LzpStream},
    lzpPredictFrom table i prev src st = fin → (∀ j, i ≤ j → flagAt st.flags j = false) →
    (∀ j, j < i + src.length → Chk.get bytes (2 + j / 8) = .ok (fin.flags (j / 8))) →
    unflagged bytes src.length i = lzpLiteralCount table (positionsFrom i prev src)
  | [], _, _, _, _, _, _, _ => rfl
  | b :: src, i, prev, st, fin, hfin, hclear, hflags => by
    have hflag : flagBit (fin.flags (i / 8)) i = (table (lzpHash prev i)).hits b := by
      have h := @lzpPredictFrom_flag table i prev b src st (hclear i (le_refl i))
      rwa [hfin] at h
    have hflags' : ∀ j, j < i + 1 + src.length → Chk.get bytes (2 + j / 8) = .ok (fin.flags (j / 8)) := fun j hj =>
      hflags j (by rw [List.length_cons]; omega)
    rw [List.length_cons, unflagged, Chk.getD_of_get (hflags i (by rw [List.length_cons]; omega)), hflag,
      lzpLiteralCount_cons,
      Nat.add_comm]
    congr 1
    rw [lzpPredictFrom] at hfin
    split at hfin
    · exact unflagged_eq src hfin (fun j hj => by
        rw [flagAt_setFlag, decide_eq_false (by omega), Bool.false_or]
        exact hclear j (by omega)) hflags'
    · exact unflagged_eq src hfin (fun j hj => hclear j (by omega)) hflags'

end Reconstruct

/-! ### Streams -/

section Stream

variable {table : LzpTable}

theorem LzpStream.length_bytes (st : LzpStream) (n : ℕ) : (st.bytes n).length = 2 + flagBytes n + st.count := by
  simp only [LzpStream.bytes, List.length_cons, List.length_append, ByteMem.length_slice]
  omega

theorem LzpStream.get_flags (st : LzpStream) {n j : ℕ} (hj : j < flagBytes n) :
    Chk.get (st.bytes n) (2 + j) = .ok (st.flags j) := by
  rw [LzpStream.bytes, Nat.add_comm, Chk.get, List.getElem?_cons_succ, List.getElem?_cons_succ,
    List.getElem?_append_left (by simpa using hj)]
  simp [ByteMem.slice, hj]

theorem LzpStream.get_lits (st : LzpStream) {n k : ℕ} (hk : k < st.count) :
    Chk.get (st.bytes n) (2 + flagBytes n + k) = .ok (st.lits k) := by
  rw [LzpStream.bytes, show 2 + flagBytes n + k = (flagBytes n + k) + 2 by omega, Chk.get, List.getElem?_cons_succ,
    List.getElem?_cons_succ, List.getElem?_append_right (by simp)]
  simp [ByteMem.slice, hk]

theorem le_flagBytes (n : ℕ) : n ≤ 8 * flagBytes n := by
  unfold flagBytes
  omega

/-- The loop is entered with the count that stands in the first two bytes. -/
theorem lzpReconstruct_bytes {st : LzpStream} (hcount : st.count < 2 ^ 16) {n : ℕ} (h2 : 2 ≤ n) :
    lzpReconstruct table (st.bytes n) n
      = lzpReconstructFrom table (st.bytes n) (flagBytes n) st.count n 0 0 0 := by
  have hlen := st.length_bytes n
  have hlo : Chk.get (st.bytes n) 0 = .ok (UInt8.ofNat (st.count % 256)) := rfl
  have hhi : Chk.get (st.bytes n) 1 = .ok (UInt8.ofNat (st.count / 256)) := rfl
  have hn : (UInt8.ofNat (st.count % 256)).toNat + 256 * (UInt8.ofNat (st.count / 256)).toNat = st.count := by
    rw [UInt8.toNat_ofNat', UInt8.toNat_ofNat']
    omega
  rw [lzpReconstruct, if_neg (by omega), if_neg (by omega), hlo, Exc.ok_bind, hhi, Exc.ok_bind]
  simp only [hn]
  rw [if_neg (by omega)]

/-- What a call that succeeds has done. -/
theorem lzpPredict_eq_some {src out : List UInt8} {dstCap : ℕ} {junk : ℕ → UInt8}
    (h : lzpPredict table src dstCap junk = some out) : 2 ≤ src.length ∧ out.length < src.length ∧ out.length ≤ dstCap ∧
      out = (lzpPredictFrom table 0 0 src ⟨fun _ => 0, junk, 0⟩).bytes src.length := by
  unfold lzpPredict at h
  split at h
  · cases h
  · next h2 =>
    split at h
    · cases h
    · next hcap =>
      simp only at h
      split at h
      · next htotal =>
        rw [← Option.some.inj h, LzpStream.length_bytes]
        exact ⟨by omega, htotal, by omega, rfl⟩
      · cases h

/-- **In bounds on all input.** Whatever the bytes, the reconstruction stays in them and in the table, and
what it returns has the size asked for. -/
theorem lzpReconstruct_safe (table : LzpTable) (bytes : List UInt8) (dstSize : ℕ) :
    ∃ r, lzpReconstruct table bytes dstSize = .ok r ∧ ∀ out, r = some out → out.length = dstSize := by
  unfold lzpReconstruct
  by_cases hd : dstSize < 2
  · exact ⟨none, if_pos hd, by simp⟩
  · rw [if_neg hd]
    by_cases hs : bytes.length < 2
    · exact ⟨none, if_pos hs, by simp⟩
    · have h0 := @Chk.get_of_lt UInt8 bytes 0 (by omega)
      have h1 := @Chk.get_of_lt UInt8 bytes 1 (by omega)
      rw [if_neg hs, h0, Exc.ok_bind, h1, Exc.ok_bind]
      simp only
      split
      · exact ⟨none, rfl, by simp⟩
      · next hlen =>
        have hbits := le_flagBytes dstSize
        obtain ⟨r, hr, hout⟩ := @lzpReconstructFrom_ok table bytes (flagBytes dstSize) _ (not_lt.mp hlen) dstSize 0 0 0
          (by omega) (Nat.zero_le _)
        exact ⟨r, hr, fun out h => (hout out h).1⟩

/-- **LZP as a codec.** For every table: on any bytes and for any size the reconstruction stays in bounds,
and what it returns has that size. And for every packet, capacity and buffer: a stream that
`netc_lzp_predict` returns is shorter than the packet and in the buffer, and the reconstruction makes of it
the packet, if fewer than 65536 of its bytes are not predicted, as in every packet of at most 65535 bytes;
else it is refused. -/
theorem lzp_literals_roundtrip (table : LzpTable) :
    (∀ bytes dstSize, ∃ r, lzpReconstruct table bytes dstSize = .ok r ∧ ∀ out, r = some out → out.length = dstSize) ∧
    ∀ src dstCap junk out, lzpPredict table src dstCap junk = some out →
      out.length < src.length ∧ out.length ≤ dstCap ∧
      lzpReconstruct table out src.length
        = .ok (if lzpLiteralCount table (positionsFrom 0 0 src) < 2 ^ 16 then some src else none) := by
  refine ⟨lzpReconstruct_safe table, fun src dstCap junk out h => ?_⟩
  obtain ⟨h2, hshort, hfits, rfl⟩ := lzpPredict_eq_some h
  refine ⟨hshort, hfits, ?_⟩
  set fin := lzpPredictFrom table 0 0 src ⟨fun _ => 0, junk, 0⟩ with hfin
  have hclear : ∀ j, 0 ≤ j → flagAt (fun _ => (0 : UInt8)) j = false := fun j _ => by
    rw [flagAt, flagBit_eq]
    exact Nat.zero_testBit _
  have hbits := le_flagBytes src.length
  have hbyte : ∀ j, j < 0 + src.length →
      Chk.get (fin.bytes src.length) (2 + j / 8) = .ok (fin.flags (j / 8)) := fun j hj =>
    fin.get_flags (by omega)
  have hcount := @lzpPredictFrom_count table src 0 0 ⟨fun _ => 0, junk, 0⟩ (by norm_num)
  rw [← hfin, Nat.zero_add] at hcount
  have hlt : fin.count < 2 ^ 16 := by
    rw [hcount]
    exact Nat.mod_lt _ (by norm_num)
  rw [lzpReconstruct_bytes hlt h2]
  by_cases hfew : lzpLiteralCount table (positionsFrom 0 0 src) < 2 ^ 16
  · rw [if_pos hfew]
    exact lzpReconstruct_loop src hfin.symm hclear (by simpa using hfew) hbyte fun k hk => fin.get_lits hk
  · rw [if_neg hfew]
    obtain ⟨r, hr, hout⟩ := @lzpReconstructFrom_ok table _ (flagBytes src.length) fin.count
      (fin.length_bytes src.length).ge
      src.length 0 0 0 (by omega) (Nat.zero_le _)
    rw [hr]
    rcases r with _ | out'
    · rfl
    · -- the positions without a flag are more than the count says
      have hread := (hout out' rfl).2
      rw [unflagged_eq src hfin.symm hclear hbyte] at hread
      omega

/-- Eight bytes, all as predicted: the count, and one byte of flags. -/
theorem lzp_literals_roundtrip_hits :
    lzpPredict (fun _ => ⟨7, 1⟩) (List.replicate 8 7) 16 (fun _ => 0) = some [0, 0, 0xFF] ∧
    lzpReconstruct (fun _ => ⟨7, 1⟩) [0, 0, 0xFF] 8 = .ok (some (List.replicate 8 7)) := by
  have hpredict : lzpPredict (fun _ => ⟨7, 1⟩) (List.replicate 8 7) 16 (fun _ => 0) = some [0, 0, 0xFF] := by decide
  have h := ((lzp_literals_roundtrip fun _ => ⟨7, 1⟩).2 _ _ _ _ hpredict).2.2
  have hnone : lzpLiteralCount (fun _ => ⟨7, 1⟩) (positionsFrom 0 0 (List.replicate 8 7)) = 0 := by decide
  rw [hnone, if_pos (by norm_num)] at h
  exact ⟨hpredict, h⟩

end Stream

end Netc
