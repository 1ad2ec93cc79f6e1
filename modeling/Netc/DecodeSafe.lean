/-
# Decoding hostile payloads

What the decoders of `Decompress.lean` do on any payload. They make no access
out of range, and what they write to the caller's buffer is a list of writes
that does not depend on its contents, none of them behind `original_size`
(`decodePayload_spec`). When a decoder reports success these writes reach every
byte, except that a multi-region payload may leave regions out; `Writes.Covers`
says which bytes they reach.

Key definitions: `RegionListed`, `Listed`, `Logged`.
Key theorems: `decodeMreg_spec`, `decodePayload_spec`, `statelessPayload_spec`.
-/
import Netc.Decompress

namespace Netc

/-! ### Headers -/

/-- A header that is accepted leaves room for the packet and lies in the source. -/
theorem validateHeader_ok (src : List UInt8) (dstCap : ℕ) (compact : Bool) :
    ∃ r, validateHeader src dstCap compact = .ok r ∧
      Exc.Post (fun p => p.1.originalSize ≤ maxPacketSize ∧ p.1.originalSize ≤ dstCap ∧
        p.2 + p.1.compressedSize ≤ src.length) (· ≠ .ok) r := by
  rw [validateHeader]
  cases compact with
  | true =>
    obtain ⟨o, ho, hspec⟩ := hdrReadCompact_ok src
    simp only [if_true, ho, Exc.ok_bind]
    cases o with
    | none => exact ⟨_, rfl, by simp⟩
    | some p =>
      obtain ⟨hle, hlt⟩ := hspec p.1 p.2 rfl
      simp only
      split
      · exact ⟨_, rfl, by simp⟩
      · split
        · exact ⟨_, rfl, by simp⟩
        · refine ⟨_, rfl, ?_⟩
          have := Nat.mod_le (src.length - p.2) (2 ^ 16)
          rw [Exc.post_ok]
          exact ⟨by simp only; omega, by simp only; omega, by simp only; omega⟩
  | false =>
    simp only [Bool.false_eq_true, if_false]
    split
    · exact ⟨_, rfl, by simp⟩
    · next hlen =>
      obtain ⟨hdr, hrd, ho, hc⟩ := hdrRead_ok (not_lt.mp hlen)
      rw [hrd, Exc.ok_bind]
      split
      · exact ⟨_, rfl, by simp⟩
      · split
        · exact ⟨_, rfl, by simp⟩
        · split
          · exact ⟨_, rfl, by simp⟩
          · refine ⟨_, rfl, ?_⟩
            rw [Exc.post_ok]
            exact ⟨by simp only; omega, by simp only; omega, by simp only; omega⟩

/-! ### Single streams -/

theorem rleDecode_ok : ∀ (rle : List UInt8) (origSize : ℕ) (out : List UInt8), out.length ≤ origSize →
    DecodeOk origSize (.ok (rleDecode rle origSize out))
  | count :: sym :: rle, origSize, out, h => by
    rw [rleDecode]
    split
    · exact ⟨_, _, rfl, h, by simp⟩
    · exact rleDecode_ok rle origSize _ (by simp; omega)
  | [_], origSize, out, h => ⟨_, _, rfl, h, by simp⟩
  | [], origSize, out, h => by
    rw [rleDecode]
    split
    · exact ⟨_, _, rfl, h, by simp⟩
    · next heq => exact ⟨_, _, rfl, h, fun _ => by simpa using heq⟩

/-- A return of code `code` with nothing written. -/
theorem decodeOk_nil (n : ℕ) {code : Result} (h : code ≠ .ok) : DecodeOk n (.ok ([], code)) :=
  ⟨[], code, rfl, Nat.zero_le _, fun hc => absurd hc h⟩

/-- What the callers of a tANS decoder see of a decoder that stays in bounds. -/
theorem decodeOk_code {α : Type} {n : ℕ} {x : Chk (List UInt8 × Option α)}
    (h : ∃ bs o, x = .ok (bs, o) ∧ bs.length ≤ n ∧ (o.isSome → bs.length = n)) :
    DecodeOk n (x >>= fun out => pure (decodeCode out)) := by
  obtain ⟨bs, o, rfl, hle, hall⟩ := h
  rw [Exc.ok_bind]
  refine ⟨bs, _, rfl, hle, fun hc => hall ?_⟩
  cases o with
  | none => simp at hc
  | some a => rfl

section Streams

variable {d : Dict} {tables : ℕ → Table}

/-- The tables a decoder is given. -/
structure TablesOk (d : Dict) (tables : ℕ → Table) : Prop where
  dict : d.Sound
  full : ∀ b < ctxCount, FullTable (tables b)

theorem decompSelectTbl_ok (h : TablesOk d tables) {bucket : ℕ} (hb : bucket < ctxCount) (prev flags : UInt8) :
    ∃ t, decompSelectTbl d tables bucket prev flags = .ok t ∧ FullTable t := by
  rw [decompSelectTbl, Chk.index_of_lt hb, Exc.ok_bind]
  have hc := h.dict.class_lt prev
  cases PktFlag.has flags PktFlag.bigram with
  | true =>
    simp only [if_true, Chk.index_of_lt hc, Exc.ok_bind, (h.dict.bigram bucket hb _ hc).valid]
    exact ⟨_, rfl, h.dict.bigram bucket hb _ hc⟩
  | false => exact ⟨_, rfl, h.full bucket hb⟩

theorem tansDecodeWith_safe {P : TansParams} {t : Table} (ht : t.Sound P) {r : Bsr} (hr : r.Wf) (n X : ℕ) :
    ∃ bs o, tansDecodeWith P t r n X = .ok (bs, o) ∧ bs.length ≤ n ∧ (o.isSome → bs.length = n) := by
  rw [tansDecodeWith]
  split
  · exact ⟨[], none, rfl, Nat.zero_le _, by simp⟩
  · next h =>
    simp only [Bool.or_eq_true, Bool.not_eq_true', not_or, Bool.not_eq_false] at h
    exact decodeRun_safe (fun _ _ => ⟨some t, rfl, by rintro t' ⟨⟩; exact ht⟩) n 0 0 X r (stateOk_inRange h.2) hr

theorem decodeX2_safe {t : Table} (ht : t.Sound tans12) (payload : List UInt8) (orig : ℕ) (compact : Bool) :
    DecodeOk orig (decodeX2 t payload orig compact) := by
  rw [decodeX2]
  split
  · exact decodeOk_nil _ (by simp)
  · next hlen =>
    obtain ⟨X0, h0, -⟩ := @readState_ok compact payload 0 (by omega)
    obtain ⟨X1, h1, -⟩ := @readState_ok compact payload (stateSz compact) (by omega)
    obtain ⟨r, hr, hwf⟩ := bsrInit_wf (payload.drop (2 * stateSz compact))
    rw [h0, Exc.ok_bind, h1, Exc.ok_bind, hr, Exc.ok_bind]
    refine decodeOk_code ?_
    rw [tansDecodeX2]
    split
    · exact ⟨[], none, rfl, Nat.zero_le _, by simp⟩
    · next h =>
      simp only [Bool.or_eq_true, Bool.not_eq_true', decide_eq_true_eq, not_or, Bool.not_eq_false, not_lt] at h
      obtain ⟨⟨⟨-, h2⟩, hX0⟩, hX1⟩ := h
      split
      · next hodd =>
        obtain ⟨a, o, ha, hnext⟩ := decodeStep_safe ht (stateOk_inRange hX0) hwf
        rw [ha, Exc.ok_bind]
        cases o with
        | none => exact ⟨[a], none, rfl, by simp; omega, by simp⟩
        | some p =>
          obtain ⟨hp, hp'⟩ := hnext p.1 p.2 rfl
          obtain ⟨bs, o, hrun, hle, hall⟩ := decodeX2Run_safe ht (orig / 2) p.1 X1 p.2 hp (stateOk_inRange hX1) hp'
          simp only [hrun, Exc.ok_bind]
          exact ⟨a :: bs, o, rfl, by simp; omega, fun ho => by have := hall ho; simp; omega⟩
      · next heven =>
        obtain ⟨bs, o, hrun, hle, hall⟩ :=
          decodeX2Run_safe ht (orig / 2) X0 X1 r (stateOk_inRange hX0) (stateOk_inRange hX1) hwf
        exact ⟨bs, o, hrun, by omega, fun ho => by have := hall ho; omega⟩

theorem decodeOne_safe {t : Table} (ht : t.Sound tans12) (payload : List UInt8) (orig : ℕ) (compact : Bool) :
    DecodeOk orig (decodeOne t payload orig compact) := by
  rw [decodeOne]
  split
  · exact decodeOk_nil _ (by simp)
  · next hlen =>
    obtain ⟨X, hX, -⟩ := @readState_ok compact payload 0 (by omega)
    obtain ⟨r, hr, hwf⟩ := bsrInit_wf (payload.drop (stateSz compact))
    rw [hX, Exc.ok_bind]
    split
    · exact decodeOk_nil _ (by simp)
    · rw [hr, Exc.ok_bind]
      exact decodeOk_code (tansDecodeWith_safe ht hwf orig X)

theorem packetBucket_lt (algorithm : UInt8) : packetBucket algorithm < ctxCount := by
  simp only [packetBucket]
  split
  · simp [ctxCount]
  · omega

theorem decodeSingle_safe (h : TablesOk d tables) (hdr : PktHeader) (payload : List UInt8) (compact : Bool) :
    DecodeOk hdr.originalSize (decodeSingle d tables hdr payload compact) := by
  obtain ⟨t, ht, hfull⟩ := decompSelectTbl_ok h (packetBucket_lt hdr.algorithm) 0 hdr.flags
  rw [decodeSingle]
  simp only [ht, Exc.ok_bind]
  split
  · exact decodeOk_nil _ (by simp)
  · split
    · exact decodeX2_safe hfull.sound ..
    · exact decodeOne_safe hfull.sound ..

theorem pctxSelectChk_ok (h : TablesOk d tables) (i : ℕ) (prev : UInt8) :
    ∃ o, pctxSelectChk tables i prev = .ok o ∧ ∀ t, o = some t → t.Sound tans12 := by
  have hb := ctxBucket_lt i
  rw [pctxSelectChk, Chk.index_of_lt hb, Exc.ok_bind]
  refine ⟨_, rfl, fun t ht => ?_⟩
  simp only [pctxSelect, Table.ifValid, (h.full _ hb).valid, if_true, Option.some.injEq] at ht
  exact ht ▸ (h.full _ hb).sound

theorem bigramSelectChk_ok (h : TablesOk d tables) (i : ℕ) (prev : UInt8) :
    ∃ o, bigramSelectChk d.bigramTables tables d.bigramClass i prev = .ok o ∧ ∀ t, o = some t → t.Sound tans12 := by
  have hb := ctxBucket_lt i
  have hc := h.dict.class_lt prev
  have hf := h.dict.bigram _ hb _ hc
  rw [bigramSelectChk, Chk.index_of_lt hb, Exc.ok_bind, Chk.index_of_lt hc, Exc.ok_bind]
  refine ⟨_, rfl, fun t ht => ?_⟩
  simp only [bigramSelect, hf.valid, if_true, Option.some.injEq] at ht
  exact ht ▸ hf.sound

theorem decodePctx_safe (h : TablesOk d tables) (hdr : PktHeader) (payload : List UInt8) (compact : Bool) :
    DecodeOk hdr.originalSize (decodePctx d tables hdr payload compact) := by
  rw [decodePctx]
  split
  · exact decodeOk_nil _ (by simp)
  · next hlen =>
    obtain ⟨X, hX, -⟩ := @readState_ok compact payload 0 (by omega)
    obtain ⟨r, hr, hwf⟩ := bsrInit_wf (payload.drop (stateSz compact))
    rw [hX, Exc.ok_bind]
    split
    · exact decodeOk_nil _ (by simp)
    · next hok =>
      have hin := stateOk_inRange (P := tans12) (X := X) (by simpa using hok)
      rw [hr, Exc.ok_bind]
      refine decodeOk_code ?_
      rw [pctxStream]
      split
      · rw [tansDecodePctxBigram]
        split
        · exact ⟨[], none, rfl, Nat.zero_le _, by simp⟩
        · exact decodeRun_safe (bigramSelectChk_ok h) _ _ _ _ _ hin hwf
      · rw [tansDecodePctx]
        split
        · exact ⟨[], none, rfl, Nat.zero_le _, by simp⟩
        · exact decodeRun_safe (pctxSelectChk_ok h) _ _ _ _ _ hin hwf

theorem table10_sound {tbl12 t : Table} (h : table10 tbl12 = some t) : t.Sound tans10 := by
  obtain ⟨f, -, hf⟩ := Option.bind_eq_some_iff.mp h
  exact tansBuildWith_sound hf

theorem decode10_safe (tables : ℕ → Table) (hdr : PktHeader) (payload : List UInt8) :
    DecodeOk hdr.originalSize (decode10 tables hdr payload) := by
  rw [decode10]
  simp only [Chk.index_of_lt (packetBucket_lt _), Exc.ok_bind]
  split
  · exact decodeOk_nil _ (by simp)
  · split
    · exact decodeOk_nil _ (by simp)
    · next hlen =>
      obtain ⟨X, hX, -⟩ := readU16Le_lt (l := payload) (i := 0) (by omega)
      rw [hX, Exc.ok_bind]
      split
      · exact decodeOk_nil _ (by simp)
      · split
        · exact decodeOk_nil _ (by simp)
        · next t ht =>
          obtain ⟨r, hr, hwf⟩ := bsrInit_wf (payload.drop 2)
          rw [hr, Exc.ok_bind]
          exact decodeOk_code (tansDecodeWith_safe (table10_sound ht) hwf hdr.originalSize X)

theorem decodePassthru_safe (hdr : PktHeader) {payload : List UInt8} (h : payload.length = hdr.compressedSize) :
    DecodeOk hdr.originalSize (decodePassthru hdr payload) := by
  rw [decodePassthru]
  split
  · exact lz77Decode_safe ..
  · split
    · exact rleDecode_ok _ _ _ (Nat.zero_le _)
    · split
      · exact decodeOk_nil _ (by simp)
      · next heq => exact ⟨_, _, rfl, by omega, fun _ => by omega⟩

theorem decodeRegion_safe (h : TablesOk d tables) (flags : UInt8) (payload : List UInt8) {bucket : ℕ}
    (hb : bucket < ctxCount) (prev : UInt8) (off bsBytes len state : ℕ) :
    DecodeOk len (decodeRegion d tables flags payload bucket prev off bsBytes len state) := by
  rw [decodeRegion]
  split
  · exact decodeOk_nil _ (by simp)
  · split
    · exact decodeOk_nil _ (by simp)
    · next hlen =>
      obtain ⟨t, ht, hfull⟩ := decompSelectTbl_ok h hb prev flags
      rw [ht, Exc.ok_bind]
      split
      · exact decodeOk_nil _ (by simp)
      · obtain ⟨r, hr, hwf⟩ := bsrInit_wf ((payload.drop off).take bsBytes)
        rw [Chk.sub_of_le (by omega), Exc.ok_bind, hr, Exc.ok_bind]
        exact decodeOk_code (tansDecodeWith_safe hfull.sound hwf len state)

end Streams

/-! ### Buckets -/

theorem ctxBucket_spec {i : ℕ} (hi : i < 65536) :
    decompBucketStart (ctxBucket i) ≤ i ∧ i < decompBucketStart (ctxBucket i + 1) := by
  let P : ℕ → Prop := fun b => decompBucketStart b ≤ i ∧ i < decompBucketStart (b + 1)
  change P (ctxBucket i)
  unfold ctxBucket
  repeat' refine ite_of (P := P) (fun _ => ?_) (fun _ => ?_)
  all_goals
    simp only [P, decompBucketStart, List.getD_cons_zero, List.getD_cons_succ, List.getD_nil]
    omega

theorem decompBucketStart_mono : ∀ b < 17, ∀ a ≤ b, decompBucketStart a ≤ decompBucketStart b := by decide

/-- The bytes of a bucket. -/
theorem ctxBucket_eq_iff {r i : ℕ} (hr : r < ctxCount) (hi : i < 65536) :
    ctxBucket i = r ↔ decompBucketStart r ≤ i ∧ i < decompBucketStart (r + 1) := by
  have hr : r < 16 := hr
  have hc : ctxBucket i < 16 := ctxBucket_lt i
  obtain ⟨h1, h2⟩ := ctxBucket_spec hi
  refine ⟨fun h => h ▸ ⟨h1, h2⟩, fun h => ?_⟩
  rcases Nat.lt_trichotomy (ctxBucket i) r with hlt | heq | hlt
  · have := decompBucketStart_mono r (by omega) (ctxBucket i + 1) hlt
    omega
  · exact heq
  · have := decompBucketStart_mono (ctxBucket i) (by omega) (r + 1) hlt
    omega

/-! ### Multi-region payloads -/

/-- What a decoder does to the buffer: writes within `n` that do not depend on
it, which on success reach the bytes of `P`. -/
def Logged (n : ℕ) (P : ℕ → Prop) (f : Out → Chk (Out × Result)) : Prop :=
  ∃ (ws : Writes) (code : Result), (∀ dst, f dst = .ok (dst.applyWrites 0 ws, code)) ∧ ws.Within n ∧
    (code = .ok → ∀ i < n, ws.Covers i ↔ P i)

/-- Nothing is written and the code is an error. -/
theorem logged_error (n : ℕ) (P : ℕ → Prop) {code : Result} (h : code ≠ .ok) :
    Logged n P fun dst => .ok (dst, code) :=
  ⟨[], code, fun _ => rfl, Writes.within_nil n, fun hc => absurd hc h⟩

/-- A decoder of one stream writes from the front on. -/
theorem logged_commit {n : ℕ} {r : Return} (h : DecodeOk n r) : Logged n (fun _ => True) fun dst => dst.commit r := by
  obtain ⟨bs, code, rfl, hle, hall⟩ := h
  refine ⟨[(0, bs)], code, fun dst => ?_, by simpa [Writes.Within] using hle, fun hc i hi => ?_⟩
  · simp only [Out.commit, Exc.ok_bind, Exc.pure_eq, Out.applyWrites_cons, Out.applyWrites_nil, Nat.zero_add]
  · simp only [iff_true]
    exact ⟨(0, bs), by simp, Nat.zero_le _, by simp only; have := hall hc; omega⟩

/-- The `r`th descriptor is not the sentinel of an empty region. -/
def RegionListed (payload : List UInt8) (r : ℕ) : Prop :=
  ∃ state bsBytes, readU32Le payload (1 + r * 8) = .ok state ∧ readU32Le payload (1 + r * 8 + 4) = .ok bsBytes ∧
    ¬(state = 0 ∧ bsBytes = 0)

theorem Writes.covers_cons {w : ℕ × List UInt8} {ws : Writes} {i : ℕ} :
    Writes.Covers (w :: ws) i ↔ (w.1 ≤ i ∧ i < w.1 + w.2.length) ∨ ws.Covers i := by
  simp [Writes.Covers]

section Mreg

variable {d : Dict} {tables : ℕ → Table}

/-- One round of the region loop. -/
theorem decodeMreg_succ (d : Dict) (tables : ℕ → Table) (hdr : PktHeader) (payload : List UInt8) {n r off : ℕ}
    (prev : UInt8) (dst : Out) {state bsBytes start stop : ℕ} (hst : readU32Le payload (1 + r * 8) = .ok state)
    (hbs : readU32Le payload (1 + r * 8 + 4) = .ok bsBytes)
    (hstart : min (decompBucketStart r) hdr.originalSize = start)
    (hstop : min (decompBucketStart (r + 1)) hdr.originalSize = stop) :
    decodeMreg d tables hdr payload (n + 1) r off prev dst =
      if (state = 0 ∧ bsBytes = 0) ∨ stop - start = 0 then decodeMreg d tables hdr payload n (r + 1) off prev dst
      else decodeRegion d tables hdr.flags payload r prev off bsBytes (stop - start) state >>= fun p =>
        if p.2 ≠ .ok then .ok (dst.write start p.1, p.2)
        else decodeMreg d tables hdr payload n (r + 1) (off + bsBytes) ((dst.write start p.1).byte (stop - 1))
          (dst.write start p.1) := by
  rw [decodeMreg, hst, Exc.ok_bind, hbs, Exc.ok_bind]
  simp only [hstart, hstop, Exc.pure_eq]

theorem regionListed_iff {payload : List UInt8} {r state bsBytes : ℕ} (hst : readU32Le payload (1 + r * 8) = .ok state)
    (hbs : readU32Le payload (1 + r * 8 + 4) = .ok bsBytes) :
    RegionListed payload r ↔ ¬(state = 0 ∧ bsBytes = 0) := by
  unfold RegionListed
  rw [hst, hbs]
  simp

/-- The regions from `r` on without the `r`th, if that has no byte. -/
theorem regions_skip {L : ℕ → Prop} {c r k : ℕ} (h : c = r → ¬L r) :
    (r ≤ c ∧ c < r + (k + 1) ∧ L c) ↔ r + 1 ≤ c ∧ c < r + 1 + k ∧ L c := by
  constructor
  · rintro ⟨h1, h2, h3⟩
    have hne : c ≠ r := fun hc => h hc (hc ▸ h3)
    exact ⟨by omega, by omega, h3⟩
  · rintro ⟨h1, h2, h3⟩
    exact ⟨by omega, by omega, h3⟩

/-- The regions from `r` on, the `r`th being listed. -/
theorem regions_cons {L : ℕ → Prop} {c r k : ℕ} (h : L r) :
    (r ≤ c ∧ c < r + (k + 1) ∧ L c) ↔ c = r ∨ (r + 1 ≤ c ∧ c < r + 1 + k ∧ L c) := by
  constructor
  · rintro ⟨h1, h2, h3⟩
    by_cases hc : c = r
    · exact .inl hc
    · exact .inr ⟨by omega, by omega, h3⟩
  · rintro (rfl | ⟨h1, h2, h3⟩)
    · exact ⟨le_rfl, by omega, h⟩
    · exact ⟨by omega, by omega, h3⟩

/-- **The region loop** writes the regions that are listed, and nothing else. -/
theorem decodeMreg_spec (h : TablesOk d tables) {hdr : PktHeader} (horig : hdr.originalSize ≤ maxPacketSize)
    (payload : List UInt8) : ∀ (k r off : ℕ) (prev : UInt8), r + k ≤ ctxCount → 1 + (r + k) * 8 ≤ payload.length →
    Logged hdr.originalSize
      (fun i => r ≤ ctxBucket i ∧ ctxBucket i < r + k ∧ RegionListed payload (ctxBucket i))
      (decodeMreg d tables hdr payload k r off prev)
  | 0, r, off, prev, _, _ =>
    ⟨[], .ok, fun _ => rfl, Writes.within_nil _, fun _ i _ => by simp [Writes.Covers]; omega⟩
  | k + 1, r, off, prev, hr, hlen => by
    have h16 : maxPacketSize = 65535 := rfl
    obtain ⟨state, hst, -⟩ := readU32Le_lt (l := payload) (i := 1 + r * 8) (by omega)
    obtain ⟨bsBytes, hbs, -⟩ := readU32Le_lt (l := payload) (i := 1 + r * 8 + 4) (by omega)
    obtain ⟨start, hstart⟩ : ∃ start, min (decompBucketStart r) hdr.originalSize = start := ⟨_, rfl⟩
    obtain ⟨stop, hstop⟩ : ∃ stop, min (decompBucketStart (r + 1)) hdr.originalSize = stop := ⟨_, rfl⟩
    have hround := fun dst => @decodeMreg_succ d tables hdr payload k r off prev dst _ _ _ _ hst hbs hstart hstop
    have hlisted := regionListed_iff hst hbs
    have hbucket : ∀ i < hdr.originalSize, (ctxBucket i = r ↔ start ≤ i ∧ i < stop) := by
      intro i hi
      rw [ctxBucket_eq_iff (by omega) (by omega)]
      omega
    by_cases hskip : (state = 0 ∧ bsBytes = 0) ∨ stop - start = 0
    · -- nothing is written for this region, and none of its bytes is expected
      simp only [if_pos hskip] at hround
      obtain ⟨ws, code, hrun, hwithin, hcov⟩ := decodeMreg_spec h horig payload k (r + 1) off prev (by omega) (by omega)
      refine ⟨ws, code, fun dst => (hround dst).trans (hrun dst), hwithin, fun hc i hi => ?_⟩
      rw [hcov hc i hi]
      refine (regions_skip fun hi' => ?_).symm
      rw [hlisted, not_not]
      have := (hbucket i hi).mp hi'
      exact hskip.resolve_right (by omega)
    · simp only [if_neg hskip] at hround
      rw [not_or] at hskip
      obtain ⟨bs, code, hreg, hle, hall⟩ := @decodeRegion_safe _ _ h hdr.flags payload r (by omega) prev off
        bsBytes (stop - start) state
      simp only [hreg, Exc.ok_bind] at hround
      have hin : start + bs.length ≤ hdr.originalSize := by omega
      by_cases hcode : code = .ok
      · have hfull := hall hcode
        obtain ⟨ws, code', hrun, hwithin, hcov⟩ := decodeMreg_spec h horig payload k (r + 1) (off + bsBytes)
          (bs.getD (stop - start - 1) 0) (by omega) (by omega)
        refine ⟨(start, bs) :: ws, code', fun dst => ?_, Writes.within_cons.mpr ⟨hin, hwithin⟩, fun hc i hi => ?_⟩
        · have hprev : (dst.write start bs).byte (stop - 1) = bs.getD (stop - start - 1) 0 := by
            rw [Out.write_byte, ByteMem.write_of_mem (by omega) (by omega), Nat.sub_right_comm]
          rw [hround, if_neg (not_not.mpr hcode), hprev, hrun]
          simp
        · rw [Writes.covers_cons, hcov hc i hi]
          simp only
          rw [regions_cons (hlisted.mpr hskip.1), hbucket i hi, show start + bs.length = stop by omega]
      · refine ⟨[(start, bs)], code, fun dst => ?_, by simpa [Writes.Within] using hin, fun hc => absurd hc hcode⟩
        rw [hround, if_pos hcode]
        simp

/-- A multi-region payload lists the region of byte `i`. -/
def MregLists (payload : List UInt8) (i : ℕ) : Prop :=
  ∃ n, Chk.get payload 0 = .ok n ∧ ctxBucket i < n.toNat ∧ RegionListed payload (ctxBucket i)

/-- The bytes that a tANS payload accounts for: all, or those whose region is listed. -/
def TansLists (hdr : PktHeader) (payload : List UInt8) (i : ℕ) : Prop :=
  PktFlag.has hdr.flags PktFlag.mreg = true → MregLists payload i

theorem Logged.congr {n : ℕ} {P Q : ℕ → Prop} {f : Out → Chk (Out × Result)} (h : Logged n P f)
    (hPQ : ∀ i < n, P i ↔ Q i) : Logged n Q f := by
  obtain ⟨ws, code, h1, h2, h3⟩ := h
  exact ⟨ws, code, h1, h2, fun hc i hi => (h3 hc i hi).trans (hPQ i hi)⟩

theorem decodeTans_spec (h : TablesOk d tables) {hdr : PktHeader} (horig : hdr.originalSize ≤ maxPacketSize)
    (payload : List UInt8) (compact : Bool) :
    Logged hdr.originalSize (TansLists hdr payload) fun dst => decodeTans d tables hdr payload dst compact := by
  cases hm : PktFlag.has hdr.flags PktFlag.mreg with
  | false =>
    simp only [decodeTans, hm, Bool.false_eq_true, if_false]
    exact (logged_commit (decodeSingle_safe h hdr payload compact)).congr fun i _ => by simp [TansLists, hm]
  | true =>
    simp only [decodeTans, hm, if_true]
    by_cases h1 : payload.length < 1
    · simp only [if_pos h1]
      exact logged_error _ _ (by simp)
    · have hget := Chk.get_of_lt (show 0 < payload.length by omega)
      simp only [if_neg h1, hget, Exc.ok_bind]
      split
      · exact logged_error _ _ (by simp)
      · next hn =>
        split
        · exact logged_error _ _ (by simp)
        · next hlen =>
          simp only [not_or, not_lt] at hn
          refine (decodeMreg_spec h horig payload payload[0].toNat 0 _ 0 (by omega) (by omega)).congr fun i _ => ?_
          simp only [TansLists, hm, MregLists, hget, Except.ok.injEq, forall_const]
          constructor
          · rintro ⟨-, h2, h3⟩
            exact ⟨payload[0], rfl, by omega, h3⟩
          · rintro ⟨n, rfl, h2, h3⟩
            exact ⟨Nat.zero_le _, by omega, h3⟩

end Mreg

/-! ### Packets -/

/-- The bytes that a packet's payload accounts for. -/
def Listed (hdr : PktHeader) (payload : List UInt8) (i : ℕ) : Prop :=
  algId hdr.algorithm = Alg.tans ∨ algId hdr.algorithm = Alg.lzp → TansLists hdr payload i

theorem Ctx.Wf.tablesOk {ctx : Ctx} (h : ctx.Wf) {d : Dict} (hd : ctx.dict = some d) :
    TablesOk d (ctx.getTables d) := ⟨h.dict d hd, fun _ hb => h.getTables hd hb⟩

/-- A payload without regions accounts for all bytes. -/
theorem Logged.listed {hdr : PktHeader} {payload : List UInt8} {f : Out → Chk (Out × Result)}
    (htans : algId hdr.algorithm ≠ Alg.tans) (hlzp : algId hdr.algorithm ≠ Alg.lzp)
    (hf : Logged hdr.originalSize (fun _ => True) f) : Logged hdr.originalSize (Listed hdr payload) f :=
  hf.congr fun i _ => by simp [Listed, htans, hlzp]

/-- The entropy-coded branches, the same on both paths, before what is done with the other algorithms. -/
theorem logged_coded {d : Dict} {tables : ℕ → Table} (ht : TablesOk d tables) (lzp : Option LzpTable) {hdr : PktHeader}
    (horig : hdr.originalSize ≤ maxPacketSize) (payload : List UInt8) (compact : Bool) {g : Out → Chk (Out × Result)}
    (hg : Logged hdr.originalSize (Listed hdr payload) g) :
    Logged hdr.originalSize (Listed hdr payload) fun dst =>
      if algId hdr.algorithm = Alg.tans then decodeTans d tables hdr payload dst compact
      else if algId hdr.algorithm = Alg.tansPctx then dst.commit (decodePctx d tables hdr payload compact)
      else if algId hdr.algorithm = Alg.lzp then
        match lzp with
        | none => .ok (dst, .errDictInvalid)
        | some _ => decodeTans d tables hdr payload dst compact
      else if algId hdr.algorithm = Alg.tans10 then dst.commit (decode10 tables hdr payload)
      else g dst := by
  have htans := decodeTans_spec ht horig payload compact
  by_cases h1 : algId hdr.algorithm = Alg.tans
  · simp only [if_pos h1]
    exact htans.congr fun i _ => by simp [Listed, h1]
  simp only [if_neg h1]
  by_cases h4 : algId hdr.algorithm = Alg.tansPctx
  · simp only [if_pos h4]
    exact (logged_commit (decodePctx_safe ht ..)).listed h1 (by rw [h4]; decide)
  simp only [if_neg h4]
  by_cases h5 : algId hdr.algorithm = Alg.lzp
  · simp only [if_pos h5]
    split
    · exact logged_error _ _ (by simp)
    · exact htans.congr fun i _ => by simp [Listed, h5]
  simp only [if_neg h5]
  split
  · exact (logged_commit (decode10_safe ..)).listed h1 h5
  · exact hg

/-- **What decoding a payload does.** -/
theorem decodePayload_spec {ctx : Ctx} (h : ctx.Wf) {hdr : PktHeader} (horig : hdr.originalSize ≤ maxPacketSize)
    {payload : List UInt8} (hlen : payload.length = hdr.compressedSize) :
    Logged hdr.originalSize (Listed hdr payload) (decodePayload ctx hdr payload) := by
  unfold decodePayload
  simp only
  by_cases hp : algId hdr.algorithm = Alg.passthru
  · simp only [if_pos hp]
    exact (logged_commit (decodePassthru_safe hdr hlen)).listed (by rw [hp]; decide) (by rw [hp]; decide)
  simp only [if_neg hp]
  by_cases hx : algId hdr.algorithm = Alg.lz77x
  · simp only [if_pos hx]
    split
    · exact logged_error _ _ (by simp)
    · exact (logged_commit (lz77xDecode_safe ..)).listed (by rw [hx]; decide) (by rw [hx]; decide)
  simp only [if_neg hx]
  split
  · exact logged_error _ _ (by simp)
  · rcases hd : ctx.dict with _ | d
    · exact logged_error _ _ (by split <;> simp)
    · exact logged_coded (h.tablesOk hd) ctx.getLzpTable horig payload _ (logged_error _ _ (by simp))

/-- What decoding a payload does on the stateless path. -/
theorem statelessPayload_spec {d : Dict} (h : d.Sound) {hdr : PktHeader} (horig : hdr.originalSize ≤ maxPacketSize)
    {payload : List UInt8} (hlen : payload.length = hdr.compressedSize) :
    Logged hdr.originalSize (Listed hdr payload) (statelessPayload d hdr payload) := by
  unfold statelessPayload
  simp only
  by_cases hp : algId hdr.algorithm = Alg.passthru
  · simp only [if_pos hp]
    exact (logged_commit (decodePassthru_safe hdr hlen)).listed (by rw [hp]; decide) (by rw [hp]; decide)
  · simp only [if_neg hp]
    refine logged_coded ⟨h, h.table⟩ d.lzpTable horig payload false ?_
    split
    · exact logged_error _ _ (by simp)
    · exact logged_error _ _ (by simp)

end Netc
