/-
# LZ77 across packets, and the ring it looks into

`ctx_ring_append` (and its copy `decomp_ring_append`), `lz77x_encode` and
`lz77x_decode`. A token is a literal run, a short back-reference into the
packet, or a long one into the ring of earlier packets: `0xC0 | (len - 3)` and
the distance back from the ring's write position, less one, as a 16-bit word.

Key definitions: `ringAppend`, `lz77xEncode`, `lz77xDecode`.
Key theorems: `lz77xEncode_spec`, `lz77x_roundtrip`, `lz77xDecode_safe`.
-/
import Netc.Lz77

namespace Netc

/-! ### The ring -/

/-- `ctx_ring_append`, `decomp_ring_append`: the ring and its write position
after `data` was appended. -/
def ringAppend (ring : Block) (pos : ℕ) (data : List UInt8) : Block × ℕ :=
  if ring.size = 0 ∨ data.length = 0 then (ring, pos)
  else
    let rs := ring.size
    let (data, pos) := if rs ≤ data.length then (data.drop (data.length - rs), 0) else (data, pos)
    let tail := rs - pos
    let ring :=
      if data.length ≤ tail then ring.write pos data
      else (ring.write pos (data.take tail)).write 0 (data.drop tail)
    (ring, (pos + data.length) % rs)

@[simp] theorem ringAppend_size (ring : Block) (pos : ℕ) (data : List UInt8) :
    (ringAppend ring pos data).1.size = ring.size := by
  simp only [ringAppend]
  split
  · rfl
  · simp only
    split <;> split <;> simp

theorem ringAppend_pos {ring : Block} {pos : ℕ} (h : pos < ring.size ∨ ring.size = 0 ∧ pos = 0)
    (data : List UInt8) : (ringAppend ring pos data).2 < ring.size ∨
      ring.size = 0 ∧ (ringAppend ring pos data).2 = 0 := by
  simp only [ringAppend]
  split
  · exact h
  · next h0 => exact .inl (Nat.mod_lt _ (by omega))

/-- `(ring_pos + ring_size - off) % ring_size` on `uint32_t`. -/
def ringBack (pos size off : ℕ) : ℕ := subU32 ((pos + size) % 2 ^ 32) off % size

theorem ringBack_lt {pos size off : ℕ} (h : 0 < size) : ringBack pos size off < size := Nat.mod_lt _ h

/-- `len` bytes of the ring from `start` on, around its end. -/
def ringBytes (ring : Block) (start len : ℕ) : List UInt8 :=
  (List.range len).map fun k => ring.byte ((start + k) % ring.size)

@[simp] theorem length_ringBytes (ring : Block) (start len : ℕ) : (ringBytes ring start len).length = len := by
  simp [ringBytes]

theorem getElem?_ringBytes (ring : Block) (start : ℕ) {len k : ℕ} (h : k < len) :
    (ringBytes ring start len)[k]? = some (ring.byte ((start + k) % ring.size)) := by
  simp [ringBytes, h]

/-! ### Encoder -/

/-- `lz77x_hash3(src + i)` -/
def lz77xHash3 (src : List UInt8) (i : ℕ) : ℕ :=
  hash3 4095 (src.getD i 0) (src.getD (i + 1) 0) (src.getD (i + 2) 0)

/-- The hash table of the last `prevSize` bytes of the ring. Its entries are
`int32_t`, and `INT32_MIN` stands for an empty one. -/
def ringHashes (ring : Block) (pos prevSize : ℕ) : ℕ → Option ℕ :=
  let rs := ring.size
  let scanLen := if subU32 rs 2 < prevSize then subU32 rs 2 else prevSize
  let scanLen := if scanLen < 3 then 0 else scanLen
  let scanStart := ringBack pos rs scanLen
  (List.range (scanLen - 2)).foldl (fun ht j =>
    let absPos := (scanStart + j) % 2 ^ 32 % rs
    let h := hash3 4095 (ring.byte absPos) (ring.byte ((absPos + 1) % 2 ^ 32 % rs))
      (ring.byte ((absPos + 2) % 2 ^ 32 % rs))
    Function.update ht h (if absPos = 2 ^ 31 then none else some absPos)) fun _ => none

/-- The match at `i` with a position of the packet: length, 0 for none, and offset. -/
def lz77xShort (src : List UInt8) (i : ℕ) (cand : Option ℕ) : ℕ × ℕ :=
  match cand with
  | none => (0, 0)
  | some pos =>
    if 1 ≤ i - pos ∧ i - pos ≤ 256 then
      let mlen := Lz.commonLen (src.drop pos) (src.drop i) (min (src.length - i) 66)
      if 3 ≤ mlen then (mlen, i - pos) else (0, 0)
    else (0, 0)

/-- The match at `i` with a position of the ring: length, 0 for none, and offset. -/
def lz77xLong (src : List UInt8) (ring : Block) (pos i : ℕ) (cand : Option ℕ) : ℕ × ℕ :=
  match cand with
  | none => (0, 0)
  | some absPos =>
    let ringOff := ringBack pos ring.size absPos
    if 1 ≤ ringOff ∧ ringOff ≤ 65536 then
      let maxM := min (src.length - i) 66
      let mlen := Lz.commonLen (ringBytes ring (ringBack pos ring.size ringOff) maxM) (src.drop i) maxM
      if 3 ≤ mlen then (mlen, ringOff) else (0, 0)
    else (0, 0)

/-- The bytes of a back-reference. -/
def lz77xToken (long : Bool) (len off : ℕ) : List UInt8 :=
  if long then
    let off16 := (off - 1) % 2 ^ 16
    [0xC0 ||| UInt8.ofNat (len - 3), UInt8.ofNat (off16 % 256), UInt8.ofNat (off16 / 256)]
  else [0x80 ||| UInt8.ofNat (len - 3), UInt8.ofNat (off - 1)]

/-- A match: the pending literals and the back-reference are written. -/
def lz77xEmit (src : List UInt8) (cap : ℕ) (s : Lz77State) (long : Bool) (len off : ℕ) :
    Except (List UInt8) Lz77State := do
  let out ← flushLits src cap (s.i - s.litStart) s.litStart s.i s.out
  let tok := lz77xToken long len off
  if cap ≤ out.length then .error out
  else if cap < out.length + tok.length then .error out
  else .ok {
    out := out ++ tok
    i := s.i + len
    litStart := s.i + len
    ht := skipHashes (lz77xHash3 src) src.length s.i len s.ht }

/-- The longer of the two matches is taken, the one in the packet if they are
equal; without one the byte waits as a literal. -/
def lz77xAdvance (src : List UInt8) (cap : ℕ) (s : Lz77State) (short long : ℕ × ℕ) :
    Except (List UInt8) Lz77State :=
  if 3 ≤ long.1 ∧ short.1 < long.1 then lz77xEmit src cap s true long.1 long.2
  else if 3 ≤ short.1 then lz77xEmit src cap s false short.1 short.2
  else .ok { s with i := s.i + 1 }

/-- One round of the loop of `lz77x_encode`. -/
def lz77xStep (src : List UInt8) (ring : Block) (pos : ℕ) (ringHt : ℕ → Option ℕ) (cap : ℕ) (s : Lz77State) :
    Except (List UInt8) Lz77State := do
  let h := lz77xHash3 src s.i
  let short := lz77xShort src s.i (s.ht h)
  let long := lz77xLong src ring pos s.i (ringHt h)
  let s ← lz77xAdvance src cap { s with ht := Function.update s.ht h (some s.i) } short long
  if src.length ≤ s.out.length then .error s.out else .ok s

/-- `lz77x_encode` -/
def lz77xEncode (src : List UInt8) (ring : Option Block) (pos prevSize cap : ℕ) :
    Except (List UInt8) (List UInt8) :=
  match ring with
  | none => lz77Encode src cap
  | some ring =>
    if ring.size = 0 then lz77Encode src cap
    else do
      let ringHt := ringHashes ring pos prevSize
      let s ← Loop.run (fun s => decide (s.i + 3 ≤ src.length)) (lz77xStep src ring pos ringHt cap) src.length
        { out := [], i := 0, litStart := 0, ht := fun _ => none }
      let out ← flushLits src cap (src.length - s.litStart) s.litStart src.length s.out
      if out.length < src.length then .ok out else .error out

/-! ### Decoder -/

/-- The bytes a long back-reference copies, each load checked. -/
def ringCopy (ring : Block) (start len : ℕ) : Chk (List UInt8) :=
  (List.range len).mapM fun k => ring.load ((start + k) % ring.size)

/-- A long back-reference at `pos`, past its first byte. -/
def takeRing (lz : List UInt8) (origSize : ℕ) (ring : Option Block) (ringPos len : ℕ) (c : Lz.Cursor UInt8) :
    Except Return (Lz.Cursor UInt8) :=
  if lz.length < c.pos + 2 then .error (.ok (c.out, .errCorrupt))
  else do
    let b0 ← fetch lz c.pos
    let b1 ← fetch lz (c.pos + 1)
    let offset := (b0.toNat ||| b1.toNat <<< 8) + 1
    match ring with
    | none => .error (.ok (c.out, .errCorrupt))
    | some ring =>
      if ring.size = 0 then .error (.ok (c.out, .errCorrupt))
      else if ring.size < offset then .error (.ok (c.out, .errCorrupt))
      else if origSize < c.out.length + len then .error (.ok (c.out, .errCorrupt))
      else
        match ringCopy ring (ringBack ringPos ring.size offset) len with
        | .error e => .error (.error e)
        | .ok bytes => .ok ⟨c.pos + 2, c.out ++ bytes⟩

/-- One round of the loop of `lz77x_decode`. -/
def lz77xDecodeStep (lz : List UInt8) (origSize : ℕ) (ring : Option Block) (ringPos : ℕ)
    (c : Lz.Cursor UInt8) : Except Return (Lz.Cursor UInt8) := do
  let tok ← fetch lz c.pos
  if tok &&& 0x80 = 0 then takeLits lz origSize ((tok &&& 0x7F).toNat + 1) ⟨c.pos + 1, c.out⟩
  else if tok &&& 0x40 = 0 then takeRef lz origSize ((tok &&& 0x3F).toNat + 3) ⟨c.pos + 1, c.out⟩
  else takeRing lz origSize ring ringPos ((tok &&& 0x3F).toNat + 3) ⟨c.pos + 1, c.out⟩

/-- `lz77x_decode` -/
def lz77xDecode (lz : List UInt8) (origSize : ℕ) (ring : Option Block) (ringPos : ℕ) : Return :=
  decodeEnd origSize (Loop.run (fun c => decide (c.pos < lz.length))
    (lz77xDecodeStep lz origSize ring ringPos) lz.length ⟨0, []⟩)

/-! ### Tokens -/

/-- The tokens of a cross-packet stream over a ring and what they do to the output. -/
inductive Lz77xTok (ring : Block) (pos : ℕ) : List UInt8 → List UInt8 → List UInt8 → Prop
  | lits (l o : List UInt8) (h0 : 0 < l.length) (h : l.length ≤ 128) :
      Lz77xTok ring pos (UInt8.ofNat (l.length - 1) :: l) o (o ++ l)
  | short (o : List UInt8) {len off : ℕ} (h3 : 3 ≤ len) (h66 : len ≤ 66) (h0 : 0 < off) (h256 : off ≤ 256)
      (ho : off ≤ o.length) : Lz77xTok ring pos (lz77xToken false len off) o (Lz.copyBack off len o)
  | long (o : List UInt8) {len off : ℕ} (h3 : 3 ≤ len) (h66 : len ≤ 66) (h0 : 0 < off) (hmax : off ≤ 65536)
      (hoff : off ≤ ring.size) : Lz77xTok ring pos (lz77xToken true len off) o
        (o ++ ringBytes ring (ringBack pos ring.size off) len)

theorem Lz77xTok.grows {ring : Block} {pos : ℕ} {tok o o' : List UInt8} (h : Lz77xTok ring pos tok o o') :
    0 < tok.length ∧ o.length ≤ o'.length := by
  cases h with
  | lits l o h0 h => simp
  | short o h3 h66 h0 h256 ho =>
    rw [Lz.length_copyBack h0 _ _ ho]
    simp [lz77xToken]
  | long o h3 h66 h0 hmax hoff => simp [lz77xToken]

theorem shortByte {n : ℕ} (h : n < 64) : (0x80 ||| UInt8.ofNat n) &&& 0x80 ≠ 0 ∧
    (0x80 ||| UInt8.ofNat n) &&& 0x40 = 0 ∧ ((0x80 ||| UInt8.ofNat n) &&& 0x3F).toNat = n := by
  have : ∀ n < 64, (0x80 ||| UInt8.ofNat n) &&& 0x80 ≠ 0 ∧ (0x80 ||| UInt8.ofNat n) &&& 0x40 = 0 ∧
    ((0x80 ||| UInt8.ofNat n) &&& 0x3F).toNat = n := by decide
  exact this n h

theorem longByte {n : ℕ} (h : n < 64) : (0xC0 ||| UInt8.ofNat n) &&& 0x80 ≠ 0 ∧
    (0xC0 ||| UInt8.ofNat n) &&& 0x40 ≠ 0 ∧ ((0xC0 ||| UInt8.ofNat n) &&& 0x3F).toNat = n := by
  have : ∀ n < 64, (0xC0 ||| UInt8.ofNat n) &&& 0x80 ≠ 0 ∧ (0xC0 ||| UInt8.ofNat n) &&& 0x40 ≠ 0 ∧
    ((0xC0 ||| UInt8.ofNat n) &&& 0x3F).toNat = n := by decide
  exact this n h

section Decode

variable {lz : List UInt8} {origSize : ℕ} {ring : Block} {ringPos : ℕ}

theorem ringCopy_ok (h : 0 < ring.size) (start len : ℕ) :
    ringCopy ring start len = .ok (ringBytes ring start len) := by
  have key : ∀ l : List ℕ, l.mapM (fun k => ring.load ((start + k) % ring.size))
      = .ok (l.map fun k => ring.byte ((start + k) % ring.size)) := by
    intro l
    induction l with
    | nil => rfl
    | cons k l ih =>
      have hk : ring.load ((start + k) % ring.size) = .ok (ring.byte ((start + k) % ring.size)) := by
        rw [Block.load, if_pos (Nat.mod_lt _ h)]
      rw [List.mapM_cons, hk, Exc.ok_bind, ih, Exc.ok_bind, Exc.pure_eq, List.map_cons]
  exact key _

/-- A long back-reference whose offset bytes are there is copied. -/
theorem takeRing_append (s rest o : List UInt8) {off len : ℕ} (h0 : 0 < off) (hmax : off ≤ 65536)
    (hoff : off ≤ ring.size) (hlim : o.length + len ≤ origSize) :
    takeRing (s ++ (UInt8.ofNat ((off - 1) % 256) :: UInt8.ofNat ((off - 1) / 256) :: rest)) origSize (some ring)
      ringPos len ⟨s.length, o⟩
      = .ok ⟨s.length + 2, o ++ ringBytes ring (ringBack ringPos ring.size off) len⟩ := by
  have hb1 : fetch (s ++ (UInt8.ofNat ((off - 1) % 256) :: UInt8.ofNat ((off - 1) / 256) :: rest)) (s.length + 1)
      = .ok (UInt8.ofNat ((off - 1) / 256)) := by
    have := fetch_append (s ++ [UInt8.ofNat ((off - 1) % 256)]) (UInt8.ofNat ((off - 1) / 256)) rest
    simpa using this
  have hval : ((UInt8.ofNat ((off - 1) % 256)).toNat ||| (UInt8.ofNat ((off - 1) / 256)).toNat <<< 8) + 1 = off := by
    rw [UInt8.toNat_ofNat', UInt8.toNat_ofNat', Nat.mod_eq_of_lt (show (off - 1) % 256 < 2 ^ 8 by omega),
      Nat.mod_eq_of_lt (show (off - 1) / 256 < 2 ^ 8 by omega), Digits.or_shiftLeft _ (by omega)]
    omega
  rw [takeRing, if_neg (by simp), fetch_append, Exc.ok_bind, hb1, Exc.ok_bind]
  simp only [hval]
  rw [if_neg (by omega), if_neg (by omega), if_neg (by omega), ringCopy_ok (by omega)]

/-- The decoder moves past a token. -/
theorem lz77xDecodeStep_tok {s tok rest o o' : List UInt8} (hlz : lz = s ++ (tok ++ rest))
    (ht : Lz77xTok ring ringPos tok o o') (hlim : o'.length ≤ origSize) :
    lz77xDecodeStep lz origSize (some ring) ringPos ⟨s.length, o⟩ = .ok ⟨s.length + tok.length, o'⟩ := by
  subst hlz
  cases ht with
  | lits l o h0 h =>
    obtain ⟨h1, h2⟩ := lowByte (show l.length - 1 < 128 by omega)
    rw [List.length_append] at hlim
    have hl := takeLits_append (s ++ [UInt8.ofNat (l.length - 1)]) l rest o hlim
    rw [lz77xDecodeStep, List.cons_append, fetch_append, Exc.ok_bind, if_pos h1, h2,
      show l.length - 1 + 1 = l.length by omega]
    simp only [List.append_assoc, List.singleton_append, List.length_append, List.length_singleton] at hl
    rw [hl, List.length_cons, Nat.add_assoc, Nat.add_comm 1]
  | @short o len off h3 h66 h0 h256 ho =>
    obtain ⟨h1, h2, h4⟩ := shortByte (show len - 3 < 64 by omega)
    rw [Lz.length_copyBack h0 _ _ ho] at hlim
    have hr := @takeRef_append origSize (s ++ [0x80 ||| UInt8.ofNat (len - 3)]) rest o _ _ h0 h256 ho hlim
    simp only [lz77xToken, Bool.false_eq_true, if_false]
    rw [lz77xDecodeStep, List.cons_append, List.singleton_append, fetch_append, Exc.ok_bind, if_neg h1, if_pos h2,
      h4, show len - 3 + 3 = len by omega]
    simp only [List.append_assoc, List.singleton_append, List.length_append, List.length_singleton] at hr
    rw [hr]
    rfl
  | @long o len off h3 h66 h0 hmax hoff =>
    obtain ⟨h1, h2, h4⟩ := longByte (show len - 3 < 64 by omega)
    rw [List.length_append, length_ringBytes] at hlim
    have hr := @takeRing_append _ _ ringPos (s ++ [0xC0 ||| UInt8.ofNat (len - 3)]) rest o _ _ h0 hmax hoff hlim
    simp only [lz77xToken, if_true]
    rw [Nat.mod_eq_of_lt (show off - 1 < 2 ^ 16 by omega)]
    rw [lz77xDecodeStep, List.cons_append, List.cons_append, List.singleton_append, fetch_append, Exc.ok_bind,
      if_neg h1, if_neg h2, h4, show len - 3 + 3 = len by omega]
    simp only [List.append_assoc, List.singleton_append, List.length_append, List.length_singleton] at hr
    rw [hr]
    rfl

/-- **The decoder decodes streams of tokens** over the same ring. -/
theorem lz77xDecode_stream {out : List UInt8} (h : Lz.Stream (Lz77xTok ring ringPos) lz out) :
    lz77xDecode lz out.length (some ring) ringPos = .ok (out, .ok) := by
  obtain ⟨k, hk, hpath⟩ := @Lz.Stream.path _ _ _ _ lz out.length
    (lz77xDecodeStep lz out.length (some ring) ringPos) (fun _ _ _ => Lz77xTok.grows)
    (fun s tok rest o o' hlz ht hlim => lz77xDecodeStep_tok hlz ht hlim) _ _ h [] (by simp) (Nat.le_refl _)
  rw [lz77xDecode, Loop.run_of_path hpath (by simp) _ hk, decodeEnd]
  simp

theorem takeRing_safe {c : Lz.Cursor UInt8} (hc : CursorOk lz origSize c) (ring : Option Block) (ringPos len : ℕ) :
    RoundOk lz origSize c (takeRing lz origSize ring ringPos len c) := by
  rw [takeRing]
  split
  · exact ⟨_, rfl, hc.2⟩
  · next hlt =>
    rw [fetch_of_lt (by omega), Exc.ok_bind, fetch_of_lt (by omega), Exc.ok_bind]
    simp only
    cases ring with
    | none => exact ⟨_, rfl, hc.2⟩
    | some ring =>
      simp only
      split
      · exact ⟨_, rfl, hc.2⟩
      · split
        · exact ⟨_, rfl, hc.2⟩
        · split
          · exact ⟨_, rfl, hc.2⟩
          · rw [ringCopy_ok (by omega)]
            exact ⟨⟨by simp only; omega, by simp; omega⟩, Nat.le_add_right _ _⟩

/-- The decoder reads and writes in bounds, whatever the stream. -/
theorem lz77xDecode_safe (lz : List UInt8) (origSize : ℕ) (ring : Option Block) (ringPos : ℕ) :
    DecodeOk origSize (lz77xDecode lz origSize ring ringPos) := by
  refine tokenLoop_safe fun c hc hlt => ?_
  rw [lz77xDecodeStep, fetch_of_lt hlt, Exc.ok_bind]
  have hc' : CursorOk lz origSize ⟨c.pos + 1, c.out⟩ := ⟨hlt, hc.2⟩
  split
  · exact takeLits_safe hc' _
  · split
    · exact takeRef_safe hc' _
    · exact takeRing_safe hc' ring ringPos _

end Decode

/-! ### The encoder emits tokens -/

section Encode

variable {src : List UInt8} {cap : ℕ} {ring : Block} {pos : ℕ}

theorem lz77xShort_spec {i : ℕ} {cand : Option ℕ} (hcand : ∀ p, cand = some p → p < i) (hi : i ≤ src.length)
    {len off : ℕ} (h : lz77xShort src i cand = (len, off)) (h3 : 3 ≤ len) :
    len ≤ 66 ∧ i + len ≤ src.length ∧ 0 < off ∧ off ≤ 256 ∧ off ≤ i ∧
      ∀ k < len, src[i - off + k]? = src[i + k]? := by
  unfold lz77xShort at h
  dsimp only at h
  repeat' split at h
  all_goals rw [Prod.mk.injEq] at h
  case h_2.isTrue.isTrue p hwin _ => exact match_spec (hcand p rfl) hi h.2 (h.2 ▸ hwin.2) h.1
  all_goals omega

/-- A match in the ring is a stretch of the packet that stands in the ring. -/
theorem lz77xLong_spec (hring : 0 < ring.size) {i : ℕ} {cand : Option ℕ} (hi : i ≤ src.length)
    {len off : ℕ} (h : lz77xLong src ring pos i cand = (len, off)) (h3 : 3 ≤ len) :
    len ≤ 66 ∧ i + len ≤ src.length ∧ 0 < off ∧ off ≤ 65536 ∧ off ≤ ring.size ∧
      src.take i ++ ringBytes ring (ringBack pos ring.size off) len = src.take (i + len) := by
  cases cand with
  | none =>
    simp only [lz77xLong, Prod.mk.injEq] at h
    omega
  | some p =>
    simp only [lz77xLong] at h
    split at h
    · split at h
      · simp only [Prod.mk.injEq] at h
        obtain ⟨rfl, rfl⟩ := h
        set off := ringBack pos ring.size p with hoff
        have hlt : off < ring.size := ringBack_lt hring
        set m := min (src.length - i) 66 with hm
        set bytes := ringBytes ring (ringBack pos ring.size off) m with hbytes
        have hle := Lz.commonLen_le bytes (src.drop i) m
        refine ⟨by omega, by omega, by omega, by omega, by omega, ?_⟩
        rw [List.take_add]
        congr 1
        refine List.ext_getElem? fun k => ?_
        by_cases hk : k < Lz.commonLen bytes (src.drop i) m
        · rw [List.getElem?_take_of_lt hk, ← Lz.commonLen_spec _ _ _ k hk, getElem?_ringBytes ring _ hk, hbytes,
            getElem?_ringBytes ring _ (show k < m by omega)]
        · rw [List.getElem?_eq_none (by rw [length_ringBytes]; omega),
            List.getElem?_eq_none (by rw [List.length_take]; omega)]
      · simp only [Prod.mk.injEq] at h
        omega
    · simp only [Prod.mk.injEq] at h
      omega

/-- What holds of the encoder at the top of its loop. -/
structure Lz77xInv (ring : Block) (pos : ℕ) (src : List UInt8) (cap : ℕ) (s : Lz77State) : Prop where
  lit_le : s.litStart ≤ s.i
  i_le : s.i ≤ src.length
  stream : Lz.Stream (Lz77xTok ring pos) s.out (src.take s.litStart)
  ht_lt : ∀ h p, s.ht h = some p → p < s.i + 1
  cap_le : s.out.length ≤ cap

/-- Emitting a token that leads on to the bytes before `i + len` keeps the invariant. -/
theorem lz77xEmit_spec {s : Lz77State} (hs : Lz77xInv ring pos src cap s) {long : Bool} {len off : ℕ}
    (h3 : 3 ≤ len) (hin : s.i + len ≤ src.length)
    (htok : Lz77xTok ring pos (lz77xToken long len off) (src.take s.i) (src.take (s.i + len))) :
    Exc.Post (fun s' => (Lz77xInv ring pos src cap s' ∧ ∀ h p, s'.ht h = some p → p < s'.i) ∧ s.i < s'.i)
      (fun out => out.length ≤ cap) (lz77xEmit src cap s long len off) := by
  rw [lz77xEmit]
  refine Exc.Post.bind (flushLits_spec (fun l o h0 h => Lz77xTok.lits l o h0 h) hs.i_le (s.i - s.litStart)
    s.litStart s.out (Nat.le_refl _) hs.lit_le hs.stream hs.cap_le) fun out hout => ?_
  obtain ⟨hst, hcap⟩ := hout
  simp only
  split
  · exact hcap
  · split
    · exact hcap
    · have hht : ∀ a p, skipHashes (lz77xHash3 src) src.length s.i len s.ht a = some p → p < s.i + len :=
        skipHashes_lt fun a p hp => lt_of_lt_of_le (hs.ht_lt a p hp) (by omega)
      refine ⟨⟨⟨Nat.le_refl _, hin, .snoc hst htok, ?_, by simp; omega⟩, hht⟩, by simp only; omega⟩
      exact fun a p hp => Nat.lt_succ_of_lt (hht a p hp)

/-- One round keeps the invariant and moves on, or fails with what fits. -/
theorem lz77xStep_spec (hring : 0 < ring.size) {ringHt : ℕ → Option ℕ} {s : Lz77State}
    (hs : Lz77xInv ring pos src cap s ∧ ∀ h p, s.ht h = some p → p < s.i) (hg : s.i + 3 ≤ src.length) :
    Exc.Post (fun s' => (Lz77xInv ring pos src cap s' ∧ ∀ h p, s'.ht h = some p → p < s'.i) ∧ s.i < s'.i)
      (fun out => out.length ≤ cap) (lz77xStep src ring pos ringHt cap s) := by
  obtain ⟨hs, hht⟩ := hs
  obtain ⟨slen, soff, hm⟩ : ∃ len off, lz77xShort src s.i (s.ht (lz77xHash3 src s.i)) = (len, off) := ⟨_, _, rfl⟩
  obtain ⟨llen, loff, hl⟩ : ∃ len off, lz77xLong src ring pos s.i (ringHt (lz77xHash3 src s.i)) = (len, off) :=
    ⟨_, _, rfl⟩
  rw [lz77xStep, hm, hl]
  have hht1 : ∀ a p, Function.update s.ht (lz77xHash3 src s.i) (some s.i) a = some p → p < s.i + 1 :=
    ht_update (fun a p hp => by have := hht a p hp; omega) (by omega) _
  have hs1 : Lz77xInv ring pos src cap
      { s with ht := Function.update s.ht (lz77xHash3 src s.i) (some s.i) } :=
    ⟨hs.lit_le, hs.i_le, hs.stream, hht1, hs.cap_le⟩
  refine Exc.Post.bind
    (P := fun s' => (Lz77xInv ring pos src cap s' ∧ ∀ h p, s'.ht h = some p → p < s'.i) ∧ s.i < s'.i)
    ?_ fun s' hs' => ?_
  · rw [lz77xAdvance]
    split
    · next hlong =>
      obtain ⟨h66, hin, h0, hmax, hoff, hrep⟩ := lz77xLong_spec hring hs.i_le hl hlong.1
      refine lz77xEmit_spec hs1 hlong.1 hin ?_
      have htok := @Lz77xTok.long _ pos (src.take s.i) _ _ hlong.1 h66 h0 hmax hoff
      rwa [hrep] at htok
    · split
      · next h3 =>
        obtain ⟨h66, hin, h0, h256, hoff, hrep⟩ := lz77xShort_spec (fun p hp => hht _ p hp) hs.i_le hm h3
        refine lz77xEmit_spec hs1 h3 hin ?_
        have htok := @Lz77xTok.short ring pos (src.take s.i) _ _ h3 h66 h0 h256
          (by rw [List.length_take]; omega)
        rwa [Lz.copyBack_take h0 slen s.i hoff hin hrep] at htok
      · have hlit := hs.lit_le
        exact ⟨⟨⟨by simp only; omega, by simp only; omega, hs.stream,
          fun a p hp => Nat.lt_succ_of_lt (hht1 a p hp), hs.cap_le⟩, hht1⟩, by simp⟩
  · split
    · exact hs'.1.1.cap_le
    · exact hs'

/-- **What the encoder returns is a stream for the packet** over its ring. -/
theorem lz77xEncode_spec (hring : 0 < ring.size) (src : List UInt8) (pos prevSize cap : ℕ) :
    Exc.Post (fun out => Lz.Stream (Lz77xTok ring pos) out src ∧ out.length < src.length ∧ out.length ≤ cap)
      (fun out => out.length ≤ cap) (lz77xEncode src (some ring) pos prevSize cap) := by
  have hrun := @Loop.run_spec _ _ (fun s : Lz77State => decide (s.i + 3 ≤ src.length))
    (lz77xStep src ring pos (ringHashes ring pos prevSize) cap)
    (fun s => Lz77xInv ring pos src cap s ∧ ∀ h p, s.ht h = some p → p < s.i)
    (fun out => out.length ≤ cap) (fun s => src.length - s.i)
    (fun s _ hg => by
      have : s.i + 3 ≤ src.length := by simpa using hg
      omega)
    (fun s s' hs hg hb => by
      have hg' : s.i + 3 ≤ src.length := by simpa using hg
      have h := @lz77xStep_spec _ _ _ _ hring (ringHashes ring pos prevSize) _ hs hg'
      rw [hb] at h
      have := h.2
      exact ⟨h.1, by omega⟩)
    (fun s e hs hg hb => by
      have h := @lz77xStep_spec _ _ _ _ hring (ringHashes ring pos prevSize) _ hs (by simpa using hg)
      rwa [hb] at h)
    src.length { out := [], i := 0, litStart := 0, ht := fun _ => none }
    ⟨⟨Nat.le_refl _, Nat.zero_le _, by simpa using .nil, by simp, Nat.zero_le _⟩, by simp⟩ (by simp)
  simp only [lz77xEncode]
  rw [if_neg (by omega)]
  refine Exc.Post.bind (Loop.Ends.post hrun) fun s hs => ?_
  obtain ⟨hs, -⟩ := hs
  refine Exc.Post.bind (flushLits_spec (fun l o h0 h => Lz77xTok.lits l o h0 h) (Nat.le_refl src.length)
    (src.length - s.litStart) s.litStart s.out (Nat.le_refl _) (hs.lit_le.trans hs.i_le) hs.stream hs.cap_le)
    fun out hout => ?_
  obtain ⟨hst, hcap⟩ := hout
  rw [List.take_length] at hst
  split
  · next hlt => exact ⟨hst, hlt, hcap⟩
  · exact hcap

/-- The decoder gives the packet back. -/
theorem lz77x_roundtrip (hring : 0 < ring.size) {prevSize : ℕ} {out : List UInt8}
    (h : lz77xEncode src (some ring) pos prevSize cap = .ok out) :
    lz77xDecode out src.length (some ring) pos = .ok (src, .ok) := by
  have hspec := lz77xEncode_spec hring src pos prevSize cap
  rw [h] at hspec
  exact lz77xDecode_stream hspec.1

end Encode

/-- **Cross-packet LZ77 round trip.** Whatever the ring holds, wherever its next byte goes and however much of it is
searched: if the encoder returns a length, that is shorter than the packet, and the decoder gives the packet back
from the same ring. -/
theorem lz77x_encode_decode {ring : Block} (hring : 0 < ring.size) (src : List UInt8) (pos prevSize cap : ℕ) :
    (written (lz77xEncode src (some ring) pos prevSize cap)).length ≤ cap ∧
      ∀ out, lz77xEncode src (some ring) pos prevSize cap = .ok out →
        out.length < src.length ∧ lz77xDecode out src.length (some ring) pos = .ok (src, .ok) := by
  have hspec := lz77xEncode_spec hring src pos prevSize cap
  simp only [← and_assoc] at hspec
  refine ⟨length_written_le hspec, fun out hout => ?_⟩
  rw [hout] at hspec
  obtain ⟨⟨-, hlt⟩, -⟩ := hspec
  exact ⟨hlt, lz77x_roundtrip hring hout⟩

/-- A ring of the bytes 0 to 7 and a packet that stands in it. -/
theorem lz77x_encode_decode_ring :
    lz77xEncode [2, 3, 4, 5, 6, 7] (some ⟨8, fun i => UInt8.ofNat i⟩) 0 6 16 = .ok [0xC3, 5, 0] ∧
      lz77xDecode [0xC3, 5, 0] 6 (some ⟨8, fun i => UInt8.ofNat i⟩) 0 = .ok ([2, 3, 4, 5, 6, 7], .ok) := by
  have henc : lz77xEncode [2, 3, 4, 5, 6, 7] (some ⟨8, fun i => UInt8.ofNat i⟩) 0 6 16 = .ok [0xC3, 5, 0] := by
    decide +kernel
  exact ⟨henc, ((lz77x_encode_decode (by norm_num) _ _ _ _).2 _ henc).2⟩

end Netc
