/-
# tANS payloads decode

The two halves of the tANS formats meet at `Coded`: a payload that
`try_tans_compress` ends with was made by one of three encoders, with a table
the decoder can find again (`tryTansCompress_coded`), and from such a payload
the decoders restore the bytes (`decodeSingle_coded`, `decodePctx_coded`,
`decode10_coded`). A payload with two states is one of an even number of bytes,
or else its decoder takes the bytes in another order.

Key definitions: `Coded`, `Opens`, `X2Keeps`.
Key theorems: `tryTansCompress_coded`, `decodeSingle_coded`, `decodePctx_coded`,
`decode10_coded`.
-/
import Netc.TansCompress
import Netc.DecodeSafe
import Netc.Tans.Roundtrip

namespace Netc

/-! ### How a payload was made -/

section Coded

variable {d : Dict} {tables : ℕ → Table} {src : List UInt8} {ctxFlags : UInt32} {compact : Bool}

/-- How `try_tans_compress` came to its payload: one table, which the bucket of
its header names, or one per position. -/
inductive Coded (d : Dict) (tables : ℕ → Table) (src : List UInt8) (ctxFlags : UInt32) (compact : Bool) :
    List UInt8 → TansInfo → Prop
  | single {cap idx : ℕ} {p : List UInt8} {x2 : Bool} (hidx : idx < ctxCount)
      (hshort : ctxBucket (src.length - 1) = 0 ∨ CfgFlag.has ctxFlags CfgFlag.skipSr = false)
      (h : (tansSingleWithTable (selectTansTable d tables idx 0 ctxFlags) src cap ctxFlags compact).result
        = some (p, x2)) : Coded d tables src ctxFlags compact p ⟨0, x2, idx⟩
  | pctx {cap : ℕ} {p : List UInt8} (h : (pctxAttempt tables src cap compact).result = some (p, ())) :
      Coded d tables src ctxFlags compact p ⟨2, false, 0⟩
  | pctxBigram {cap : ℕ} {p : List UInt8} (hbigram : CfgFlag.has ctxFlags CfgFlag.bigram = true)
      (hvalid : (d.bigramTables 0 0).valid = true)
      (h : (pctxBigramAttempt d tables src cap compact).result = some (p, ())) :
      Coded d tables src ctxFlags compact p ⟨3, false, 0⟩

/-- The scan ends with the table of a bucket, if with any. -/
theorem scanBuckets_lt {best : ℕ × ℕ} (h : scanBuckets tables src ctxFlags compact = some best) :
    best.2 < ctxCount := by
  have key : ∀ (bs : List ℕ) (o : Option (ℕ × ℕ)), (∀ b ∈ bs, b < ctxCount) → (∀ p, o = some p → p.2 < ctxCount) →
      ∀ p, bs.foldl (scanBucket tables src ctxFlags compact) o = some p → p.2 < ctxCount := by
    intro bs
    induction bs with
    | nil => exact fun o _ ho p hp => ho p hp
    | cons b bs ih =>
      intro o hb ho p hp
      refine ih _ (fun x hx => hb x (by simp [hx])) (fun q hq => ?_) p hp
      have hb := hb b (by simp)
      simp only [scanBucket] at hq
      split at hq
      · exact ho q hq
      · split at hq
        · rw [← Option.some.inj hq]
          exact hb
        · split at hq
          · rw [← Option.some.inj hq]
            exact hb
          · rw [← Option.some.inj hq]
            exact ho _ rfl
  have hbucket := ctxBucket_lt (src.length - 1)
  exact key _ none (fun b hb => by have := List.mem_range.mp hb; omega) (by simp) best h

theorem singleRegionTable_eq {tbl : Table} {idx : ℕ}
    (h : singleRegionTable d tables src ctxFlags compact = some (tbl, idx)) :
    idx < ctxCount ∧ tbl = selectTansTable d tables idx 0 ctxFlags := by
  rw [singleRegionTable] at h
  split at h
  · next hc =>
    obtain ⟨best, hbest, heq⟩ := Option.map_eq_some_iff.mp h
    obtain ⟨rfl, rfl⟩ := Prod.mk.inj heq
    simp only [Bool.and_eq_true, Bool.not_eq_true'] at hc
    exact ⟨scanBuckets_lt hbest, by rw [selectTansTable, if_neg (by simp [hc.1.1])]⟩
  · obtain ⟨rfl, rfl⟩ := Prod.mk.inj (Option.some.inj h)
    exact ⟨by simp [ctxCount], rfl⟩

theorem tansSingleRegion_coded {cap : ℕ} {p : List UInt8} {info : TansInfo}
    (hshort : ctxBucket (src.length - 1) = 0 ∨ CfgFlag.has ctxFlags CfgFlag.skipSr = false)
    (h : (tansSingleRegion d tables src cap ctxFlags compact).result = some (p, info)) :
    Coded d tables src ctxFlags compact p info := by
  rw [tansSingleRegion] at h
  split at h
  · cases h
  · next tbl idx htbl =>
    obtain ⟨hidx, rfl⟩ := singleRegionTable_eq htbl
    obtain ⟨⟨q, x2⟩, hq, heq⟩ := Option.map_eq_some_iff.mp h
    obtain ⟨rfl, rfl⟩ := Prod.mk.inj heq
    exact .single hidx hshort hq

theorem pctxBest_coded {cap : ℕ} {p : List UInt8} (h : (pctxAttempt tables src cap compact).result = some (p, ())) :
    Coded d tables src ctxFlags compact (pctxBest d tables src cap ctxFlags compact p).1
      ⟨(pctxBest d tables src cap ctxFlags compact p).2, false, 0⟩ := by
  have hp : Coded d tables src ctxFlags compact p ⟨2, false, 0⟩ := .pctx h
  rw [pctxBest]
  split
  · next hc =>
    rw [Bool.and_eq_true] at hc
    split
    · next q _ hq =>
      split
      · exact .pctxBigram hc.1 hc.2 hq
      · exact hp
    · exact hp
  · exact hp

/-- **A payload of `try_tans_compress` was made by one of three encoders.** -/
theorem tryTansCompress_coded {cap : ℕ} {p : List UInt8} {info : TansInfo}
    (h : (tryTansCompress d tables src cap ctxFlags compact).result = some (p, info)) :
    Coded d tables src ctxFlags compact p info ∧ src.length ≠ 0 := by
  rw [tryTansCompress] at h
  split at h
  · cases h
  · next hne =>
    refine ⟨?_, hne⟩
    split at h
    · next hshort => exact tansSingleRegion_coded (.inl hshort) h
    · split at h
      · cases h
      · simp only at h
        split at h
        · next q _ hq =>
          -- the payload of the per-position trial, or a single table's if that is shorter
          have hq : (pctxAttempt tables src cap compact).result = some (q, ()) := by
            split at hq
            · exact hq
            · cases hq
          have hbest := @pctxBest_coded d _ _ ctxFlags _ _ _ hq
          rw [pctxOrSingle] at h
          split at h
          · next q' info' hsr =>
            split at hsr
            · next hc =>
              simp only [comparesSingle, Bool.and_eq_true, Bool.not_eq_true'] at hc
              have hs := tansSingleRegion_coded (.inr hc.2) hsr
              split at h
              · obtain ⟨rfl, rfl⟩ := Prod.mk.inj (Option.some.inj h)
                exact hs
              · obtain ⟨rfl, rfl⟩ := Prod.mk.inj (Option.some.inj h)
                exact hbest
            · cases hsr
          · obtain ⟨rfl, rfl⟩ := Prod.mk.inj (Option.some.inj h)
            exact hbest
        · split at h
          · cases h
          · next hskip => exact tansSingleRegion_coded (.inr (by simpa using hskip)) h

end Coded

/-! ### Streams with one state -/

/-- A decoder that opens the payload reads `src` from it: the state in front, then the bits. -/
def Opens (P : TansParams) (selC : ℕ → UInt8 → Chk (Option Table)) (compact : Bool) (payload src : List UInt8) :
    Prop :=
  stateSz compact ≤ payload.length ∧ ∃ X r, readState compact payload 0 = .ok X ∧ stateOk P X = true ∧
    bsrInit (payload.drop (stateSz compact)) = .ok r ∧
    ∃ next, decodeRun P selC src.length 0 0 X r = .ok (src, some next)

theorem TansParams.InRange.lt_word {P : TansParams} {X : ℕ} (h : P.InRange X) : X < 2 ^ 16 := by
  have := P.size_le
  have := h.2
  omega

section Streams

variable {P : TansParams} {check compact : Bool} {sel : ℕ → UInt8 → Option Table}
  {selC : ℕ → UInt8 → Chk (Option Table)} {src p : List UInt8}

/-- **What an encoder with one state closed, its decoder opens.** -/
theorem closeStream_opens (hs : SelOk P check sel selC) {cap : ℕ} {r : ℕ × Bsw}
    (hr : r = encodeReturn (encodeRun check sel 0 0 src P.size (bswInit cap)))
    (h : (closeStream compact r).result = some (p, ())) : Opens P selC compact p src := by
  rw [closeStream] at h
  split at h
  · cases h
  · next hX =>
    cases hrun : encodeRun check sel 0 0 src P.size (bswInit cap) with
    | error w => simp [hr, hrun, encodeReturn] at hX
    | ok q =>
      obtain ⟨X, w⟩ := q
      rw [hrun, encodeReturn] at hr
      subst hr
      obtain ⟨hin, -, T, V, hholds, hdec⟩ :=
        encodeRun_decodeRun hs P.inRange_size (bswInit_holds cap) src 0 0 X w hrun
      simp only at h
      split at h
      · cases h
      · next w' hflush =>
        obtain ⟨rfl, -⟩ := Prod.mk.inj (Option.some.inj h)
        obtain ⟨r, hinit, hshows⟩ := bswFlush_opens hholds hflush
        obtain ⟨r', hd, -⟩ := hdec r hshows
        have hread := readState_writeState compact [] w'.out hin.lt_word
        refine ⟨by simp, X, r, hread, stateOk_of_inRange hin, ?_, _, hd⟩
        rw [List.drop_left' (length_writeState compact X)]
        exact hinit

/-- The selection of a single table. -/
theorem selOk_single {t : Table} (ht : t.Sound P) (hf : check = false → ∀ s : UInt8, 0 < (t.encode s.toNat).freq) :
    SelOk P check (fun _ _ => some t) (fun _ _ => .ok (some t)) where
  same _ _ := rfl
  sound := by
    rintro _ _ _ ⟨⟩
    exact ht
  full := by
    rintro hc _ _ _ ⟨⟩
    exact hf hc

theorem tansEncodeWith_eq {t : Table} (hv : t.valid = true) (hne : src.length ≠ 0) (w : Bsw) :
    tansEncodeWith P check t src w P.size
      = encodeReturn (encodeRun check (fun _ _ => some t) 0 0 src P.size w) := by
  have hne' : src.isEmpty = false := by
    cases src with
    | nil => simp at hne
    | cons => rfl
  rw [tansEncodeWith, hv, hne', if_neg (by simp), startState_size]

/-- A decoder with one table, on a payload it opens. -/
theorem tansDecodeWith_opens {t : Table} (hv : t.valid = true) (hne : src.length ≠ 0) {X : ℕ} {r : Bsr}
    {next : ℕ × Bsr} (hX : stateOk P X = true)
    (h : decodeRun P (fun _ _ => .ok (some t)) src.length 0 0 X r = .ok (src, some next)) :
    tansDecodeWith P t r src.length X = .ok (src, some next) := by
  rw [tansDecodeWith, if_neg (by simp [hv, hne, hX]), h]

theorem decodeCode_some {α : Type} (l : List UInt8) (a : α) : decodeCode (l, some a) = (l, .ok) := rfl

theorem decodeOne_opens {t : Table} (hv : t.valid = true) (hne : src.length ≠ 0)
    (h : Opens tans12 (fun _ _ => .ok (some t)) compact p src) :
    decodeOne t p src.length compact = .ok (src, .ok) := by
  obtain ⟨hlen, X, r, hread, hX, hinit, next, hd⟩ := h
  rw [decodeOne, if_neg (by omega), hread, Exc.ok_bind]
  simp only [hX, Bool.not_true, Bool.false_eq_true, if_false, hinit, Exc.ok_bind, tansDecode,
    tansDecodeWith_opens hv hne hX hd, Exc.pure_eq, decodeCode_some]

/-! ### Two states -/

/-- Bytes the decoder with two states gives back: an even number of them, or pairs of equal ones after the first. -/
def X2Keeps (src : List UInt8) : Prop := src.length % 2 = 0 ∨ PairsEqual src.tail

/-- Such bytes come back, if all symbols occur in the table. -/
theorem x2RoundTrips_keeps {t : Table} (ht : t.Sound tans12) (hf : ∀ s : UInt8, 0 < (t.encode s.toNat).freq)
    (hlen : 2 ≤ src.length) (hkeep : X2Keeps src) : X2RoundTrips t src := by
  by_cases heven : src.length % 2 = 0
  · exact x2RoundTrips_even ht hlen (fun b _ => hf b) heven
  · rcases src with _ | ⟨a, l⟩
    · simp at hlen
    · exact x2RoundTrips_pairs ht hlen (fun b _ => hf b) (by simp only [List.length_cons] at heven; omega)
        (hkeep.resolve_left heven)

/-- The decoder finds the two states and the bits. -/
theorem decodeX2_opens {t : Table} (ht : t.Sound tans12) (hf : ∀ s : UInt8, 0 < (t.encode s.toNat).freq) {cap : ℕ}
    (h : (tansX2Attempt t src cap compact).result = some (p, ())) :
    2 ≤ src.length ∧ ∃ c X0 X1 w w' r, tansEncodeX2 t src (bswInit c) = .ok (X0, X1, w) ∧ bswFlush w = .ok w' ∧
      bsrInit w'.out = .ok r ∧ ∀ n, decodeX2 t p n compact = do
        let out ← tansDecodeX2 t r n X0 X1
        return decodeCode out := by
  rw [tansX2Attempt] at h
  split at h
  · cases h
  · next X0 X1 w henc =>
    split at h
    · cases h
    · next w' hflush =>
      obtain ⟨rfl, -⟩ := Prod.mk.inj (Option.some.inj h)
      have henc' := henc
      rw [tansEncodeX2] at henc'
      split at henc'
      · cases henc'
      · next hlen =>
        simp only [ht.valid, Bool.not_true, Bool.false_or, decide_eq_true_eq] at hlen
        obtain ⟨hin0, hin1, ⟨T, V, hholds⟩, -⟩ :=
          encodeX2Run_symbol ht (bswInit_holds _) src X0 X1 w (fun b _ => hf b) henc'
        obtain ⟨r, hinit, -⟩ := bswFlush_opens hholds hflush
        refine ⟨by omega, _, X0, X1, w, w', r, henc, hflush, hinit, fun n => ?_⟩
        have hread0 := readState_writeState compact [] (writeState compact X1 ++ w'.out) hin0.lt_word
        have hread1 := readState_writeState compact (writeState compact X0) w'.out hin1.lt_word
        rw [List.nil_append, List.length_nil] at hread0
        rw [length_writeState] at hread1
        have hdrop : (writeState compact X0 ++ (writeState compact X1 ++ w'.out)).drop (2 * stateSz compact)
            = w'.out := by
          rw [← List.append_assoc, List.drop_left' (by simp only [List.length_append, length_writeState]; omega)]
        rw [decodeX2, if_neg (by simp only [List.length_append, length_writeState]; omega), hread0, Exc.ok_bind,
          hread1, Exc.ok_bind, hdrop, hinit, Exc.ok_bind]

theorem decodeX2_attempt {t : Table} (ht : t.Sound tans12) (hf : ∀ s : UInt8, 0 < (t.encode s.toNat).freq)
    (hkeep : X2Keeps src) {cap : ℕ} (h : (tansX2Attempt t src cap compact).result = some (p, ())) :
    decodeX2 t p src.length compact = .ok (src, .ok) := by
  obtain ⟨hlen, c, X0, X1, w, w', r, henc, hflush, hinit, hdec⟩ := decodeX2_opens ht hf h
  obtain ⟨r', next, hinit', hrun⟩ := x2RoundTrips_keeps ht hf hlen hkeep c X0 X1 w w' henc hflush
  obtain rfl : r = r' := by rwa [hinit, Except.ok.injEq] at hinit'
  rw [hdec, hrun, Exc.ok_bind]
  rfl

/-- From an odd number of bytes the decoder gives the third one in the second's place. -/
theorem decodeX2_swapped {t : Table} (ht : t.Sound tans12) (hf : ∀ s : UInt8, 0 < (t.encode s.toNat).freq)
    {a b c : UInt8} {l : List UInt8} (hodd : l.length % 2 = 0) {cap : ℕ}
    (h : (tansX2Attempt t (a :: b :: c :: l) cap compact).result = some (p, ())) {bs : List UInt8} {code : Result}
    (hdec : decodeX2 t p (a :: b :: c :: l).length compact = .ok (bs, code)) : ∃ rest, bs = a :: c :: rest := by
  obtain ⟨-, _, X0, X1, w, w', r, henc, hflush, hinit, hrun⟩ := decodeX2_opens ht hf h
  rw [hrun] at hdec
  obtain ⟨⟨bs', o⟩, hd, hcode⟩ := Exc.bind_eq_ok hdec
  obtain ⟨rest, hrest⟩ := tansDecodeX2_swapped ht (fun x _ => hf x) hodd henc hflush hinit hd
  refine ⟨rest, ?_⟩
  rw [← (Prod.mk.inj (Except.ok.inj hcode)).1]
  exact hrest

end Streams

/-! ### The decoders of the packet formats -/

section Formats

variable {d : Dict} {tables : ℕ → Table} {src p : List UInt8} {ctxFlags : UInt32} {compact : Bool}

theorem selectTansTable_full (h : TablesOk d tables) {idx : ℕ} (hidx : idx < ctxCount) (prev : UInt8)
    (ctxFlags : UInt32) : FullTable (selectTansTable d tables idx prev ctxFlags) := by
  have hc := h.dict.class_lt prev
  simp only [selectTansTable]
  split
  · split
    · exact h.dict.bigram idx hidx _ hc
    · exact h.full idx hidx
  · exact h.full idx hidx

/-- The decoder finds the table the encoder used. -/
theorem decompSelectTbl_eq (h : TablesOk d tables) {idx : ℕ} (hidx : idx < ctxCount) {flags : UInt8}
    (hflags : PktFlag.has flags PktFlag.bigram = CfgFlag.has ctxFlags CfgFlag.bigram) (prev : UInt8) :
    decompSelectTbl d tables idx prev flags = .ok (selectTansTable d tables idx prev ctxFlags) := by
  have hc := h.dict.class_lt prev
  rw [decompSelectTbl, Chk.index_of_lt hidx, Exc.ok_bind, selectTansTable, hflags]
  cases CfgFlag.has ctxFlags CfgFlag.bigram with
  | true => simp only [if_true, Chk.index_of_lt hc, Exc.ok_bind, Exc.pure_eq]
  | false => simp only [Bool.false_eq_true, if_false, Exc.pure_eq]

/-- A payload with two states is one of the dual-state encoder. -/
theorem tansSingleWithTable_x2 {t : Table} {cap : ℕ}
    (h : (tansSingleWithTable t src cap ctxFlags compact).result = some (p, true)) :
    wantsX2 src.length cap ctxFlags compact = true ∧ (tansX2Attempt t src cap compact).result = some (p, ()) := by
  rw [tansSingleWithTable] at h
  split at h
  · cases h
  · simp only at h
    split at h
    · next q _ hq =>
      obtain ⟨rfl, -⟩ := Prod.mk.inj (Option.some.inj h)
      split at hq
      · next hw => exact ⟨hw, hq⟩
      · cases hq
    · obtain ⟨q, -, heq⟩ := Option.map_eq_some_iff.mp h
      cases (Prod.mk.inj heq).2

/-- **One table.** The decoder gets the packet back, if a payload with two states
is one of bytes it keeps. -/
theorem decodeSingle_coded (h : TablesOk d tables) {idx cap : ℕ} {x2 : Bool} (hne : src.length ≠ 0)
    (hidx : idx < ctxCount)
    (hp : (tansSingleWithTable (selectTansTable d tables idx 0 ctxFlags) src cap ctxFlags compact).result
      = some (p, x2)) {hdr : PktHeader} (hsize : hdr.originalSize = src.length)
    (hbucket : packetBucket hdr.algorithm = idx)
    (hbigram : PktFlag.has hdr.flags PktFlag.bigram = CfgFlag.has ctxFlags CfgFlag.bigram)
    (hx2 : PktFlag.has hdr.flags PktFlag.x2 = x2) (hkeep : x2 = true → X2Keeps src) :
    decodeSingle d tables hdr p compact = .ok (src, .ok) := by
  have hfull := selectTansTable_full h hidx 0 ctxFlags
  have hv := hfull.valid
  rw [decodeSingle, hbucket, decompSelectTbl_eq h hidx hbigram, Exc.ok_bind]
  simp only [hv, Bool.not_true, Bool.false_eq_true, if_false, hsize, hx2]
  rw [tansSingleWithTable] at hp
  simp only [hv, Bool.not_true, Bool.false_eq_true, if_false] at hp
  split at hp
  · next q _ hq =>
    obtain ⟨rfl, rfl⟩ := Prod.mk.inj (Option.some.inj hp)
    split at hq
    · simp only [if_true]
      exact decodeX2_attempt hfull.sound hfull.freq_pos (hkeep rfl) hq
    · cases hq
  · obtain ⟨⟨q, _⟩, hq, heq⟩ := Option.map_eq_some_iff.mp hp
    obtain ⟨rfl, rfl⟩ := Prod.mk.inj heq
    rw [tansOneAttempt] at hq
    split at hq
    · cases hq
    · simp only [Bool.false_eq_true, if_false]
      refine decodeOne_opens hv hne ?_
      exact closeStream_opens (selOk_single hfull.sound fun _ => hfull.freq_pos)
        (tansEncodeWith_eq hv hne _) hq

theorem selOk_pctx (h : TablesOk d tables) : SelOk tans12 true (pctxSelect tables) (pctxSelectChk tables) where
  same i prev := by rw [pctxSelectChk, Chk.index_of_lt (ctxBucket_lt i), Exc.ok_bind, Exc.pure_eq]
  sound i prev t ht := by
    have hf := h.full _ (ctxBucket_lt i)
    simp only [pctxSelect, Table.ifValid, hf.valid, if_true, Option.some.injEq] at ht
    exact ht ▸ hf.sound
  full := by simp

theorem selOk_bigram (h : TablesOk d tables) : SelOk tans12 true (bigramSelect d.bigramTables tables d.bigramClass)
    (bigramSelectChk d.bigramTables tables d.bigramClass) where
  same i prev := by
    rw [bigramSelectChk, Chk.index_of_lt (ctxBucket_lt i), Exc.ok_bind, Chk.index_of_lt (h.dict.class_lt prev),
      Exc.ok_bind, Exc.pure_eq]
  sound i prev t ht := by
    have hf := h.dict.bigram _ (ctxBucket_lt i) _ (h.dict.class_lt prev)
    simp only [bigramSelect, hf.valid, if_true, Option.some.injEq] at ht
    exact ht ▸ hf.sound
  full := by simp

/-- **One table per position.** -/
theorem decodePctx_coded (h : TablesOk d tables) (hne : src.length ≠ 0) {cap : ℕ}
    (hp : (pctxAttempt tables src cap compact).result = some (p, ())) {hdr : PktHeader}
    (hsize : hdr.originalSize = src.length) (hbigram : PktFlag.has hdr.flags PktFlag.bigram = false) :
    decodePctx d tables hdr p compact = .ok (src, .ok) := by
  have hne' : src.isEmpty = false := by
    cases src with
    | nil => simp at hne
    | cons => rfl
  obtain ⟨hlen, X, r, hread, hX, hinit, next, hd⟩ := closeStream_opens (selOk_pctx h) (by
    rw [tansEncodePctx, hne', if_neg (by simp), startState_size]) hp
  rw [decodePctx, if_neg (by omega), hread, Exc.ok_bind]
  simp only [hX, Bool.not_true, Bool.false_eq_true, if_false, hinit, Exc.ok_bind, pctxStream, hbigram,
    Bool.false_and, tansDecodePctx, hsize, hd]
  rw [if_neg (by simp [hne])]
  rfl

/-- **One table per position and class.** -/
theorem decodePctx_coded_bigram (h : TablesOk d tables) (hne : src.length ≠ 0) {cap : ℕ}
    (hvalid : (d.bigramTables 0 0).valid = true)
    (hp : (pctxBigramAttempt d tables src cap compact).result = some (p, ())) {hdr : PktHeader}
    (hsize : hdr.originalSize = src.length) (hbigram : PktFlag.has hdr.flags PktFlag.bigram = true) :
    decodePctx d tables hdr p compact = .ok (src, .ok) := by
  have hne' : src.isEmpty = false := by
    cases src with
    | nil => simp at hne
    | cons => rfl
  obtain ⟨hlen, X, r, hread, hX, hinit, next, hd⟩ := closeStream_opens (selOk_bigram h) (by
    rw [tansEncodePctxBigram, hne', if_neg (by simp), startState_size]) hp
  rw [decodePctx, if_neg (by omega), hread, Exc.ok_bind]
  simp only [hX, Bool.not_true, Bool.false_eq_true, if_false, hinit, Exc.ok_bind, pctxStream, hbigram,
    hvalid, Bool.and_self, if_true, tansDecodePctxBigram, hsize, hd]
  rw [if_neg (by simp [hne])]
  rfl

/-- **A 10-bit table.** -/
theorem decode10_coded (h : TablesOk d tables) (hne : src.length ≠ 0) {idx cap : ℕ} (hidx : idx < ctxCount)
    {t10 : Table} (ht10 : table10 (tables idx) = some t10)
    (hp : (tans10bitWithTable t10 src cap).result = some (p, ())) {hdr : PktHeader}
    (hsize : hdr.originalSize = src.length) (hbucket : packetBucket hdr.algorithm = idx) :
    decode10 tables hdr p = .ok (src, .ok) := by
  rw [tans10bitWithTable] at hp
  have hv : t10.valid = true := by
    cases hv : t10.valid with
    | true => rfl
    | false => simp only [hv, Bool.not_false, if_true, reduceCtorEq] at hp
  simp only [hv, Bool.not_true, Bool.false_eq_true, if_false] at hp
  split at hp
  · cases hp
  · obtain ⟨hlen, X, r, hread, hX, hinit, next, hd⟩ := closeStream_opens
      (@selOk_single _ true _ (table10_sound ht10) (by simp)) (tansEncodeWith_eq hv hne _) hp
    simp only [stateSz, if_true] at hlen hinit
    rw [readState, if_pos rfl] at hread
    rw [decode10]
    simp only [hbucket, Chk.index_of_lt hidx, Exc.ok_bind, (h.full idx hidx).valid, Bool.not_true,
      Bool.false_eq_true, if_false, if_neg (show ¬p.length < 2 by omega), hread, hX, ht10, hinit, tansDecode10,
      hsize, tansDecodeWith_opens hv hne hX hd, Exc.pure_eq, decodeCode_some]

end Formats

end Netc
