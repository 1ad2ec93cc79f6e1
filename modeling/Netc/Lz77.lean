/-
# LZ77 within a packet

`lz77_encode` of `netc_compress.c` and `lz77_decode` of `netc_decompress.c`.
A token is a literal run (`len - 1`, then the bytes) or a back-reference
(`0x80 | (len - 3)`, `offset - 1`). The encoder writes to a buffer of `cap`
bytes; its result is what it wrote, as a success or as a failure, for what
stands in the buffer after a failed attempt is there to be seen by later code.

Key definitions: `lz77Encode`, `lz77Decode`.
Key theorems: `lz77Encode_spec`, `lz77Decode_stream`, `lz77Decode_safe`,
`lz77_roundtrip`.
-/
import Netc.Basic
import Netc.Lib.Lz

namespace Netc

/-! ### Encoder -/

/-- The FNV-1a hash of the three bytes of `src` at `i`, folded to `mask + 1`. -/
def hash3 (mask : UInt32) (b0 b1 b2 : UInt8) : ℕ :=
  let h : UInt32 := 2166136261
  let h := (h ^^^ b0.toUInt32) * 16777619
  let h := (h ^^^ b1.toUInt32) * 16777619
  let h := (h ^^^ b2.toUInt32) * 16777619
  (h &&& mask).toNat

/-- `lz77_hash3(src + i)` -/
def lz77Hash3 (src : List UInt8) (i : ℕ) : ℕ :=
  hash3 1023 (src.getD i 0) (src.getD (i + 1) 0) (src.getD (i + 2) 0)

/-- `LZ77_FLUSH_LITS`, at most `n` rounds: the bytes `[ls, le)` of `src` as
literal runs. -/
def flushLits (src : List UInt8) (cap : ℕ) : ℕ → ℕ → ℕ → List UInt8 → Except (List UInt8) (List UInt8)
  | 0, _, _, out => .ok out
  | n + 1, ls, le, out =>
    if ls < le then
      let ll := min (le - ls) 128
      if cap < out.length + 1 + ll then .error out
      else flushLits src cap n (ls + ll) le (out ++ UInt8.ofNat (ll - 1) :: (src.drop ls).take ll)
    else .ok out

/-- The state of the loop of `lz77_encode`; `ht` has `none` for `(size_t)-1`. -/
structure Lz77State where
  out : List UInt8
  i : ℕ
  litStart : ℕ
  ht : ℕ → Option ℕ

/-- The match at `i` with the candidate the hash table gave: length, 0 for
none, and offset. -/
def lz77Match (src : List UInt8) (i : ℕ) (cand : Option ℕ) : ℕ × ℕ :=
  match cand with
  | none => (0, 0)
  | some pos =>
    if i - pos ≤ 256 then
      let mlen := Lz.commonLen (src.drop pos) (src.drop i) (min (src.length - i) 130)
      if 3 ≤ mlen then (mlen, i - pos) else (0, 0)
    else (0, 0)

/-- The hash table after the positions a match of `len` bytes at `i` skipped
in a packet of `n` bytes. -/
def skipHashes (hash : ℕ → ℕ) (n i len : ℕ) (ht : ℕ → Option ℕ) : ℕ → Option ℕ :=
  ((List.range len).filter fun k => 1 ≤ k && i + k + 3 ≤ n).foldl
    (fun ht k => Function.update ht (hash (i + k)) (some (i + k))) ht

/-- A match: the pending literals and the back-reference are written. -/
def lz77Emit (src : List UInt8) (cap : ℕ) (s : Lz77State) (len off : ℕ) : Except (List UInt8) Lz77State := do
  let out ← flushLits src cap (s.i - s.litStart) s.litStart s.i s.out
  if src.length ≤ out.length then .error out
  else if cap < out.length + 2 then .error out
  else .ok {
    out := out ++ [0x80 ||| UInt8.ofNat (len - 3), UInt8.ofNat (off - 1)]
    i := s.i + len
    litStart := s.i + len
    ht := skipHashes (lz77Hash3 src) src.length s.i len s.ht }

/-- A match of at least three bytes is taken, else the byte waits as a literal. -/
def lz77Advance (src : List UInt8) (cap : ℕ) (s : Lz77State) (len off : ℕ) : Except (List UInt8) Lz77State :=
  if 3 ≤ len then lz77Emit src cap s len off else .ok { s with i := s.i + 1 }

/-- One round of the loop of `lz77_encode`. -/
def lz77Step (src : List UInt8) (cap : ℕ) (s : Lz77State) : Except (List UInt8) Lz77State := do
  let h := lz77Hash3 src s.i
  let best := lz77Match src s.i (s.ht h)
  let s := { s with ht := Function.update s.ht h (some s.i) }
  let s ← lz77Advance src cap s best.1 best.2
  if src.length ≤ s.out.length then .error s.out else .ok s

/-- `lz77_encode`: what was written, as a success or a failure. -/
def lz77Encode (src : List UInt8) (cap : ℕ) : Except (List UInt8) (List UInt8) := do
  let s ← Loop.run (fun s => decide (s.i + 3 ≤ src.length)) (lz77Step src cap) src.length
    { out := [], i := 0, litStart := 0, ht := fun _ => none }
  let out ← flushLits src cap (src.length - s.litStart) s.litStart src.length s.out
  if out.length < src.length then .ok out else .error out

/-- What an encoder left in its buffer. -/
def written : Except (List UInt8) (List UInt8) → List UInt8
  | .ok out => out
  | .error out => out

/-! ### Decoder -/

/-- An early return of a decoder: a fault, or the bytes written and the code. -/
abbrev Return := Chk (List UInt8 × Result)

/-- A load in a decoder's loop. -/
def fetch (l : List UInt8) (i : ℕ) : Except Return UInt8 :=
  match Chk.get l i with
  | .ok b => .ok b
  | .error e => .error (.error e)

/-- A literal run at `pos`, past its first byte. -/
def takeLits (lz : List UInt8) (origSize len : ℕ) (c : Lz.Cursor UInt8) : Except Return (Lz.Cursor UInt8) :=
  if lz.length < c.pos + len then .error (.ok (c.out, .errCorrupt))
  else if origSize < c.out.length + len then .error (.ok (c.out, .errCorrupt))
  else .ok ⟨c.pos + len, c.out ++ (lz.drop c.pos).take len⟩

/-- A back-reference at `pos`, past its first byte. -/
def takeRef (lz : List UInt8) (origSize len : ℕ) (c : Lz.Cursor UInt8) : Except Return (Lz.Cursor UInt8) :=
  if lz.length ≤ c.pos then .error (.ok (c.out, .errCorrupt))
  else do
    let b ← fetch lz c.pos
    let offset := b.toNat + 1
    if c.out.length < offset then .error (.ok (c.out, .errCorrupt))
    else if origSize < c.out.length + len then .error (.ok (c.out, .errCorrupt))
    else .ok ⟨c.pos + 1, Lz.copyBack offset len c.out⟩

/-- One round of the loop of `lz77_decode`. -/
def lz77DecodeStep (lz : List UInt8) (origSize : ℕ) (c : Lz.Cursor UInt8) :
    Except Return (Lz.Cursor UInt8) := do
  let tok ← fetch lz c.pos
  if tok &&& 0x80 ≠ 0 then takeRef lz origSize ((tok &&& 0x7F).toNat + 3) ⟨c.pos + 1, c.out⟩
  else takeLits lz origSize ((tok &&& 0x7F).toNat + 1) ⟨c.pos + 1, c.out⟩

/-- The end of a decoder: all bytes must have come out. -/
def decodeEnd (origSize : ℕ) : Except Return (Lz.Cursor UInt8) → Return
  | .error r => r
  | .ok c => if c.out.length ≠ origSize then .ok (c.out, .errCorrupt) else .ok (c.out, .ok)

/-- `lz77_decode`: the bytes written to `dst` and the code. -/
def lz77Decode (lz : List UInt8) (origSize : ℕ) : Return :=
  decodeEnd origSize (Loop.run (fun c => decide (c.pos < lz.length)) (lz77DecodeStep lz origSize) lz.length ⟨0, []⟩)

/-! ### Tokens -/

/-- The tokens of an LZ77 stream and what they do to the output. -/
inductive Lz77Tok : List UInt8 → List UInt8 → List UInt8 → Prop
  | lits (l o : List UInt8) (h0 : 0 < l.length) (h : l.length ≤ 128) :
      Lz77Tok (UInt8.ofNat (l.length - 1) :: l) o (o ++ l)
  | ref (o : List UInt8) {len off : ℕ} (h3 : 3 ≤ len) (h130 : len ≤ 130) (h0 : 0 < off) (h256 : off ≤ 256)
      (ho : off ≤ o.length) :
      Lz77Tok [0x80 ||| UInt8.ofNat (len - 3), UInt8.ofNat (off - 1)] o (Lz.copyBack off len o)

theorem Lz77Tok.grows {tok o o' : List UInt8} (h : Lz77Tok tok o o') :
    0 < tok.length ∧ o.length ≤ o'.length := by
  cases h with
  | lits l o h0 h => simp
  | ref o h3 h130 h0 h256 ho =>
    rw [Lz.length_copyBack h0 _ _ ho]
    simp

/-- The first byte of a back-reference. -/
theorem refByte {n : ℕ} (h : n < 128) :
    (0x80 ||| UInt8.ofNat n) &&& 0x80 ≠ 0 ∧ ((0x80 ||| UInt8.ofNat n) &&& 0x7F).toNat = n := by
  have : ∀ n < 128, (0x80 ||| UInt8.ofNat n) &&& 0x80 ≠ 0 ∧ ((0x80 ||| UInt8.ofNat n) &&& 0x7F).toNat = n := by
    decide
  exact this n h

section Decode

variable {lz : List UInt8} {origSize : ℕ}

theorem fetch_of_lt {l : List UInt8} {i : ℕ} (h : i < l.length) : fetch l i = .ok l[i] := by
  rw [fetch, Chk.get_of_lt h]

theorem fetch_append (a : List UInt8) (b : UInt8) (c : List UInt8) : fetch (a ++ b :: c) a.length = .ok b := by
  rw [fetch_of_lt (by simp)]
  simp

/-- A literal run whose bytes are there is appended. -/
theorem takeLits_append (s l rest o : List UInt8) (hlim : o.length + l.length ≤ origSize) :
    takeLits (s ++ (l ++ rest)) origSize l.length ⟨s.length, o⟩ = .ok ⟨s.length + l.length, o ++ l⟩ := by
  rw [takeLits, if_neg (by simp), if_neg (by simpa using hlim)]
  simp

/-- A back-reference whose offset byte is there is copied. -/
theorem takeRef_append (s rest o : List UInt8) {off len : ℕ} (h0 : 0 < off) (h256 : off ≤ 256)
    (ho : off ≤ o.length) (hlim : o.length + len ≤ origSize) :
    takeRef (s ++ (UInt8.ofNat (off - 1) :: rest)) origSize len ⟨s.length, o⟩
      = .ok ⟨s.length + 1, Lz.copyBack off len o⟩ := by
  have hoff : (UInt8.ofNat (off - 1)).toNat + 1 = off := by
    rw [UInt8.toNat_ofNat', Nat.mod_eq_of_lt (by omega)]
    omega
  rw [takeRef, if_neg (by simp), fetch_append, Exc.ok_bind]
  simp only [hoff]
  rw [if_neg (by omega), if_neg (by omega)]

/-- The decoder moves past a token. -/
theorem lz77DecodeStep_tok {s tok rest o o' : List UInt8} (hlz : lz = s ++ (tok ++ rest))
    (ht : Lz77Tok tok o o') (hlim : o'.length ≤ origSize) :
    lz77DecodeStep lz origSize ⟨s.length, o⟩ = .ok ⟨s.length + tok.length, o'⟩ := by
  subst hlz
  cases ht with
  | lits l o h0 h =>
    obtain ⟨h1, h2⟩ := lowByte (show l.length - 1 < 128 by omega)
    rw [List.length_append] at hlim
    have hl := takeLits_append (s ++ [UInt8.ofNat (l.length - 1)]) l rest o hlim
    rw [lz77DecodeStep, List.cons_append, fetch_append, Exc.ok_bind, if_neg (by simp [h1]), h2,
      show l.length - 1 + 1 = l.length by omega]
    simp only [List.append_assoc, List.singleton_append, List.length_append, List.length_singleton] at hl
    rw [hl, List.length_cons, Nat.add_assoc, Nat.add_comm 1]
  | @ref o len off h3 h130 h0 h256 ho =>
    obtain ⟨h1, h2⟩ := refByte (show len - 3 < 128 by omega)
    rw [Lz.length_copyBack h0 _ _ ho] at hlim
    have hr := @takeRef_append origSize (s ++ [0x80 ||| UInt8.ofNat (len - 3)]) rest o _ _ h0 h256 ho hlim
    rw [lz77DecodeStep, List.cons_append, List.singleton_append, fetch_append, Exc.ok_bind, if_pos h1, h2,
      show len - 3 + 3 = len by omega]
    simp only [List.append_assoc, List.singleton_append, List.length_append, List.length_singleton] at hr
    rw [hr]
    rfl

/-- **The decoder decodes streams of tokens.** -/
theorem lz77Decode_stream {out : List UInt8} (h : Lz.Stream Lz77Tok lz out) :
    lz77Decode lz out.length = .ok (out, .ok) := by
  obtain ⟨k, hk, hpath⟩ := @Lz.Stream.path _ _ _ _ lz out.length
    (lz77DecodeStep lz out.length) (fun _ _ _ => Lz77Tok.grows)
    (fun s tok rest o o' hlz ht hlim => lz77DecodeStep_tok hlz ht hlim) _ _ h [] (by simp) (Nat.le_refl _)
  rw [lz77Decode, Loop.run_of_path hpath (by simp) _ hk, decodeEnd]
  simp

/-! ### Hostile streams -/

/-- What holds of the decoder at any point of any stream. -/
def CursorOk (lz : List UInt8) (origSize : ℕ) (c : Lz.Cursor UInt8) : Prop :=
  c.pos ≤ lz.length ∧ c.out.length ≤ origSize

/-- An early return is a code with bytes that fit; it never is a fault. -/
def ReturnOk (origSize : ℕ) (r : Return) : Prop :=
  ∃ out, r = .ok (out, .errCorrupt) ∧ out.length ≤ origSize

/-- A round keeps `CursorOk` and moves on, or returns early. -/
def RoundOk (lz : List UInt8) (origSize : ℕ) (c : Lz.Cursor UInt8) : Except Return (Lz.Cursor UInt8) → Prop
  | .ok c' => CursorOk lz origSize c' ∧ c.pos ≤ c'.pos
  | .error r => ReturnOk origSize r

theorem takeLits_safe {c : Lz.Cursor UInt8} (hc : CursorOk lz origSize c) (len : ℕ) :
    RoundOk lz origSize c (takeLits lz origSize len c) := by
  rw [takeLits]
  split
  · exact ⟨_, rfl, hc.2⟩
  · split
    · exact ⟨_, rfl, hc.2⟩
    · refine ⟨⟨by simp only; omega, ?_⟩, Nat.le_add_right _ _⟩
      simp only [List.length_append, List.length_take, List.length_drop]
      omega

theorem takeRef_safe {c : Lz.Cursor UInt8} (hc : CursorOk lz origSize c) (len : ℕ) :
    RoundOk lz origSize c (takeRef lz origSize len c) := by
  rw [takeRef]
  split
  · exact ⟨_, rfl, hc.2⟩
  · next hlt =>
    rw [fetch_of_lt (by omega), Exc.ok_bind]
    simp only
    split
    · exact ⟨_, rfl, hc.2⟩
    · split
      · exact ⟨_, rfl, hc.2⟩
      · refine ⟨⟨by simp only; omega, ?_⟩, Nat.le_add_right _ _⟩
        simp only
        rw [Lz.length_copyBack (by omega) _ _ (by omega)]
        omega

theorem lz77DecodeStep_safe {c : Lz.Cursor UInt8} (hc : CursorOk lz origSize c) (hlt : c.pos < lz.length) :
    RoundOk lz origSize ⟨c.pos + 1, c.out⟩ (lz77DecodeStep lz origSize c) := by
  rw [lz77DecodeStep, fetch_of_lt hlt, Exc.ok_bind]
  have hc' : CursorOk lz origSize ⟨c.pos + 1, c.out⟩ := ⟨hlt, hc.2⟩
  split
  · exact takeRef_safe hc' _
  · exact takeLits_safe hc' _

/-- What a decoder returns on any stream: never a fault, never more than
`origSize` bytes, and all of them with the code for success. -/
def DecodeOk (origSize : ℕ) (r : Return) : Prop :=
  ∃ out code, r = .ok (out, code) ∧ out.length ≤ origSize ∧ (code = .ok → out.length = origSize)

/-- A token loop whose rounds are safe is safe. -/
theorem tokenLoop_safe {body : Lz.Cursor UInt8 → Except Return (Lz.Cursor UInt8)}
    (hbody : ∀ c, CursorOk lz origSize c → c.pos < lz.length →
      RoundOk lz origSize ⟨c.pos + 1, c.out⟩ (body c)) :
    DecodeOk origSize (decodeEnd origSize
      (Loop.run (fun c => decide (c.pos < lz.length)) body lz.length ⟨0, []⟩)) := by
  have h := @Loop.run_spec _ _ (fun c : Lz.Cursor UInt8 => decide (c.pos < lz.length)) body
    (CursorOk lz origSize) (ReturnOk origSize) (fun c => lz.length - c.pos)
    (fun c _ hg => by
      have : c.pos < lz.length := by simpa using hg
      omega)
    (fun c c' hc hg hb => by
      have hlt : c.pos < lz.length := by simpa using hg
      have hr := hbody c hc hlt
      rw [hb] at hr
      have hp : c.pos + 1 ≤ c'.pos := hr.2
      exact ⟨hr.1, by omega⟩)
    (fun c e hc hg hb => by
      have hr := hbody c hc (by simpa using hg)
      rwa [hb] at hr)
    lz.length ⟨0, []⟩ ⟨Nat.zero_le _, Nat.zero_le _⟩ (by simp)
  cases hrun : Loop.run (fun c : Lz.Cursor UInt8 => decide (c.pos < lz.length)) body lz.length ⟨0, []⟩ with
  | error r =>
    rw [hrun] at h
    obtain ⟨out, rfl, hlen⟩ := h
    exact ⟨out, _, rfl, hlen, by simp⟩
  | ok c =>
    rw [hrun] at h
    simp only [decodeEnd]
    split
    · exact ⟨_, _, rfl, h.1.2, by simp⟩
    · next heq => exact ⟨_, _, rfl, h.1.2, fun _ => by simpa using heq⟩

/-- The decoder reads and writes in bounds, whatever the stream. -/
theorem lz77Decode_safe (lz : List UInt8) (origSize : ℕ) : DecodeOk origSize (lz77Decode lz origSize) :=
  tokenLoop_safe fun _ hc hlt => lz77DecodeStep_safe hc hlt

end Decode

/-! ### The encoder emits tokens -/

section Encode

variable {src : List UInt8} {cap : ℕ} {Tok : List UInt8 → List UInt8 → List UInt8 → Prop}

/-- Flushing literals takes a stream for the bytes before `ls` to one for the
bytes before `le`. -/
theorem flushLits_spec (hlit : ∀ l o : List UInt8, 0 < l.length → l.length ≤ 128 →
      Tok (UInt8.ofNat (l.length - 1) :: l) o (o ++ l)) {le : ℕ} (hle : le ≤ src.length) :
    ∀ (n ls : ℕ) (out : List UInt8), le - ls ≤ n → ls ≤ le → Lz.Stream Tok out (src.take ls) →
    out.length ≤ cap → Exc.Post (fun out' => Lz.Stream Tok out' (src.take le) ∧ out'.length ≤ cap)
      (fun out' => out'.length ≤ cap) (flushLits src cap n ls le out)
  | 0, ls, out, hn, hls, hs, hcap => by
    obtain rfl : ls = le := by omega
    exact ⟨hs, hcap⟩
  | n + 1, ls, out, hn, hls, hs, hcap => by
    rw [flushLits]
    by_cases hlt : ls < le
    · rw [if_pos hlt]
      simp only
      by_cases hc : cap < out.length + 1 + min (le - ls) 128
      · rw [if_pos hc]
        exact hcap
      · rw [if_neg hc]
        have hlen : ((src.drop ls).take (min (le - ls) 128)).length = min (le - ls) 128 := by
          rw [List.length_take, List.length_drop]
          omega
        have htok := hlit ((src.drop ls).take (min (le - ls) 128)) (src.take ls) (by omega) (by omega)
        rw [hlen, ← List.take_add] at htok
        exact flushLits_spec hlit hle n _ _ (by omega) (by omega) (.snoc hs htok) (by simp [hlen]; omega)
    · rw [if_neg hlt]
      obtain rfl : ls = le := by omega
      exact ⟨hs, hcap⟩

/-- A match of at most `m` bytes with a position before `i` is a stretch of the packet seen before. -/
theorem match_spec {m i p len off : ℕ} (hp : p < i) (hi : i ≤ src.length) (hoff : i - p = off) (h256 : off ≤ 256)
    (hlen : Lz.commonLen (src.drop p) (src.drop i) (min (src.length - i) m) = len) :
    len ≤ m ∧ i + len ≤ src.length ∧ 0 < off ∧ off ≤ 256 ∧ off ≤ i ∧ ∀ k < len, src[i - off + k]? = src[i + k]? := by
  subst hlen hoff
  have hle := Lz.commonLen_le (src.drop p) (src.drop i) (min (src.length - i) m)
  refine ⟨by omega, by omega, by omega, h256, by omega, fun k hk => ?_⟩
  have heq := Lz.commonLen_spec _ _ _ k hk
  rw [List.getElem?_drop, List.getElem?_drop] at heq
  rwa [show i - (i - p) = p by omega]

theorem lz77Match_spec {i : ℕ} {cand : Option ℕ} (hcand : ∀ p, cand = some p → p < i) (hi : i ≤ src.length)
    {len off : ℕ} (h : lz77Match src i cand = (len, off)) (h3 : 3 ≤ len) :
    len ≤ 130 ∧ i + len ≤ src.length ∧ 0 < off ∧ off ≤ 256 ∧ off ≤ i ∧
      ∀ k < len, src[i - off + k]? = src[i + k]? := by
  unfold lz77Match at h
  dsimp only at h
  repeat' split at h
  all_goals rw [Prod.mk.injEq] at h
  case h_2.isTrue.isTrue p hwin _ => exact match_spec (hcand p rfl) hi h.2 (h.2 ▸ hwin) h.1
  all_goals omega

/-- What holds of the encoder at the top of its loop. -/
structure Lz77Inv (src : List UInt8) (cap : ℕ) (s : Lz77State) : Prop where
  lit_le : s.litStart ≤ s.i
  i_le : s.i ≤ src.length
  stream : Lz.Stream Lz77Tok s.out (src.take s.litStart)
  ht_lt : ∀ h p, s.ht h = some p → p < s.i
  cap_le : s.out.length ≤ cap

/-- Writing a position to the hash table keeps its positions below a bound above it. -/
theorem ht_update {ht : ℕ → Option ℕ} {i j : ℕ} (h : ∀ a p, ht a = some p → p < i) (hj : j < i) (b : ℕ) :
    ∀ a p, Function.update ht b (some j) a = some p → p < i := by
  intro a p hp
  by_cases hab : a = b
  · subst hab
    rw [Function.update_self] at hp
    cases hp
    exact hj
  · rw [Function.update_of_ne hab] at hp
    exact h a p hp

theorem skipHashes_lt {hash : ℕ → ℕ} {n i len : ℕ} {ht : ℕ → Option ℕ}
    (h : ∀ a p, ht a = some p → p < i + len) : ∀ a p, skipHashes hash n i len ht a = some p → p < i + len := by
  have key : ∀ (l : List ℕ) (ht : ℕ → Option ℕ), (∀ k ∈ l, k < len) → (∀ a p, ht a = some p → p < i + len) →
      ∀ a p, l.foldl (fun ht k => Function.update ht (hash (i + k)) (some (i + k))) ht a = some p →
      p < i + len := by
    intro l
    induction l with
    | nil => exact fun ht _ h => h
    | cons k l ih =>
      intro ht hl h
      have hk := hl k (by simp)
      exact ih _ (fun k' hk' => hl k' (by simp [hk'])) (ht_update h (by omega) _)
  exact key _ ht (fun k hk => List.mem_range.mp (List.mem_filter.mp hk).1) h

/-- One round keeps the invariant and moves on, or fails with what fits. -/
theorem lz77Step_spec {s : Lz77State} (hs : Lz77Inv src cap s) (hg : s.i + 3 ≤ src.length) :
    Exc.Post (fun s' => Lz77Inv src cap s' ∧ s.i < s'.i) (fun out => out.length ≤ cap) (lz77Step src cap s) := by
  obtain ⟨len, off, hm⟩ : ∃ len off, lz77Match src s.i (s.ht (lz77Hash3 src s.i)) = (len, off) := ⟨_, _, rfl⟩
  rw [lz77Step, hm]
  simp only
  have hht : ∀ a p, Function.update s.ht (lz77Hash3 src s.i) (some s.i) a = some p → p < s.i + 1 :=
    ht_update (fun a p hp => by have := hs.ht_lt a p hp; omega) (by omega) _
  -- the state the round ends with, before the last check
  refine Exc.Post.bind (P := fun s' => Lz77Inv src cap s' ∧ s.i < s'.i) ?_ fun s' hs' => ?_
  · rw [lz77Advance]
    by_cases h3 : 3 ≤ len
    · obtain ⟨h130, hin, h0, h256, hoff, hrep⟩ := lz77Match_spec (fun p hp => hs.ht_lt _ p hp) hs.i_le hm h3
      rw [if_pos h3, lz77Emit]
      refine Exc.Post.bind (flushLits_spec (fun l o h0 h => Lz77Tok.lits l o h0 h) hs.i_le (s.i - s.litStart)
        s.litStart s.out (Nat.le_refl _) hs.lit_le hs.stream hs.cap_le) fun out hout => ?_
      obtain ⟨hst, hcap⟩ := hout
      split
      · exact hcap
      · split
        · exact hcap
        · next hc =>
          have htok := Lz77Tok.ref (src.take s.i) h3 h130 h0 h256 (by rw [List.length_take]; omega)
          rw [Lz.copyBack_take h0 len s.i hoff hin hrep] at htok
          refine ⟨⟨Nat.le_refl _, hin, .snoc hst htok, ?_, by simp; omega⟩, by simp only; omega⟩
          exact skipHashes_lt fun a p hp => lt_of_lt_of_le (hht a p hp) (Nat.add_le_add_left (by omega) s.i)
    · rw [if_neg h3]
      exact ⟨⟨by have := hs.lit_le; simp only; omega, by simp only; omega, hs.stream, hht, hs.cap_le⟩, by simp⟩
  · split
    · exact hs'.1.cap_le
    · exact hs'

/-- **What the encoder returns is a stream for the packet**, shorter than it
and within the buffer; and it never writes past its buffer. -/
theorem lz77Encode_spec (src : List UInt8) (cap : ℕ) :
    Exc.Post (fun out => Lz.Stream Lz77Tok out src ∧ out.length < src.length ∧ out.length ≤ cap)
      (fun out => out.length ≤ cap) (lz77Encode src cap) := by
  have hrun := @Loop.run_spec _ _ (fun s : Lz77State => decide (s.i + 3 ≤ src.length))
    (lz77Step src cap) (Lz77Inv src cap) (fun out => out.length ≤ cap)
    (fun s => src.length - s.i)
    (fun s _ hg => by
      have : s.i + 3 ≤ src.length := by simpa using hg
      omega)
    (fun s s' hs hg hb => by
      have hg' : s.i + 3 ≤ src.length := by simpa using hg
      have h := lz77Step_spec hs hg'
      rw [hb] at h
      have := h.2
      exact ⟨h.1, by omega⟩)
    (fun s e hs hg hb => by
      have h := lz77Step_spec hs (by simpa using hg)
      rwa [hb] at h)
    src.length { out := [], i := 0, litStart := 0, ht := fun _ => none }
    ⟨Nat.le_refl _, Nat.zero_le _, by simpa using .nil, by simp, Nat.zero_le _⟩ (by simp)
  refine Exc.Post.bind (P := Lz77Inv src cap) (Loop.Ends.post hrun) fun s hs => ?_
  refine Exc.Post.bind (flushLits_spec (fun l o h0 h => Lz77Tok.lits l o h0 h) (Nat.le_refl src.length)
    (src.length - s.litStart) s.litStart s.out (Nat.le_refl _) (hs.lit_le.trans hs.i_le) hs.stream hs.cap_le)
    fun out hout => ?_
  obtain ⟨hst, hcap⟩ := hout
  rw [List.take_length] at hst
  split
  · next hlt => exact ⟨hst, hlt, hcap⟩
  · exact hcap

/-- The decoder gives the packet back. -/
theorem lz77_roundtrip {out : List UInt8} (h : lz77Encode src cap = .ok out) :
    lz77Decode out src.length = .ok (src, .ok) := by
  have hspec := lz77Encode_spec src cap
  rw [h] at hspec
  exact lz77Decode_stream hspec.1

/-- What the encoder left in its buffer fits, also when it gave up. -/
theorem length_written_le {Q : List UInt8 → Prop} {x : Except (List UInt8) (List UInt8)}
    (h : Exc.Post (fun out => Q out ∧ out.length ≤ cap) (fun out => out.length ≤ cap) x) :
    (written x).length ≤ cap := by
  cases x with
  | ok out => exact h.2
  | error out => exact h

end Encode

/-- **LZ77 round trip.** The encoder never writes past its buffer. If it returns a length, that is shorter than
the packet and within the buffer, and the decoder gives the packet back. -/
theorem lz77_encode_decode (src : List UInt8) (cap : ℕ) :
    (written (lz77Encode src cap)).length ≤ cap ∧ ∀ out, lz77Encode src cap = .ok out →
      out.length < src.length ∧ out.length ≤ cap ∧ lz77Decode out src.length = .ok (src, .ok) := by
  have hspec := lz77Encode_spec src cap
  simp only [← and_assoc] at hspec
  refine ⟨length_written_le hspec, fun out hout => ?_⟩
  rw [hout] at hspec
  obtain ⟨⟨-, hlt⟩, hcap⟩ := hspec
  exact ⟨hlt, hcap, lz77_roundtrip hout⟩

/-- Eight zeros: one literal and a back-reference. -/
example : lz77Encode (List.replicate 8 0) 16 = .ok [0, 0, 0x84, 0] := by decide +kernel

end Netc
