/-
# Decoders that fail at their first byte

When the decoder of a stream returns an error with nothing written (`FailsClean`). Each decoder looks at
a few things before it writes: the first token of an LZ77, LZ77X or RLE stream, the
states, the size and the first table of a tANS stream. If these are in order a byte is
written, and what fails later fails with something written.

Key definitions: `FailsClean`, `Lz77Stuck`, `Lz77xStuck`, `RleStuck`, `StateStuck`, `SingleStuck`, `Tans10Stuck`.
Key theorems: `failsClean_lz77Decode`, `failsClean_lz77xDecode`, `failsClean_rleDecode`, `failsClean_decodeSingle`,
`failsClean_decodePctx`, `failsClean_decode10`.
-/
import Netc.DecodeSafe

namespace Netc

/-- A decoder returns an error before it has written a byte. -/
def FailsClean (r : Return) : Prop := ∃ code, code ≠ .ok ∧ r = .ok ([], code)

theorem failsClean_nil {code : Result} (h : code ≠ .ok) : FailsClean (.ok ([], code)) := ⟨code, h, rfl⟩

theorem failsClean_iff {F : Prop} {code : Result} (h : code ≠ .ok) (hF : F) : FailsClean (.ok ([], code)) ↔ F :=
  iff_of_true (failsClean_nil h) hF

theorem not_failsClean_of_ne {bs : List UInt8} {code : Result} (h : bs ≠ []) : ¬FailsClean (.ok (bs, code)) := by
  rintro ⟨code', -, heq⟩
  rw [Except.ok.injEq, Prod.mk.injEq] at heq
  exact h heq.1

/-! ### LZ77, LZ77X and RLE -/

section Tokens

variable {lz : List UInt8} {origSize : ℕ}

/-- The decoder has written something. -/
def Wrote (c : Lz.Cursor UInt8) : Prop := c.out ≠ []

/-- An early return with something written, or a fault. -/
def ReturnWrote (r : Return) : Prop := ∀ out code, r = .ok (out, code) → out ≠ []

theorem returnWrote_ok {out : List UInt8} (h : out ≠ []) (code : Result) : ReturnWrote (.ok (out, code)) := by
  intro out' code' heq
  rw [Except.ok.injEq, Prod.mk.injEq] at heq
  exact heq.1 ▸ h

theorem returnWrote_error (e : Fault) : ReturnWrote (.error e) := fun _ _ h => by cases h

theorem takeLits_wrote {c : Lz.Cursor UInt8} (hc : Wrote c) (len : ℕ) :
    Exc.Post Wrote ReturnWrote (takeLits lz origSize len c) := by
  unfold takeLits
  split
  · exact returnWrote_ok hc _
  · split
    · exact returnWrote_ok hc _
    · exact List.append_ne_nil_of_left_ne_nil hc _

theorem fetch_wrote (lz : List UInt8) (i : ℕ) : Exc.Post (fun _ => True) ReturnWrote (fetch lz i) := by
  unfold fetch
  split
  · trivial
  · exact returnWrote_error _

theorem takeRef_wrote {c : Lz.Cursor UInt8} (hc : Wrote c) (len : ℕ) :
    Exc.Post Wrote ReturnWrote (takeRef lz origSize len c) := by
  unfold takeRef
  split
  · exact returnWrote_ok hc _
  · refine Exc.Post.bind (fetch_wrote lz _) fun b _ => ?_
    simp only
    split
    · exact returnWrote_ok hc _
    · next hoff =>
      split
      · exact returnWrote_ok hc _
      · intro hnil
        have hlen := congrArg List.length hnil
        simp only at hlen
        rw [Lz.length_copyBack (by omega) _ _ (by omega), List.length_nil] at hlen
        exact hc (List.length_eq_zero_iff.mp (by omega))

theorem takeRing_wrote {ring : Option Block} {ringPos : ℕ} {c : Lz.Cursor UInt8} (hc : Wrote c) (len : ℕ) :
    Exc.Post Wrote ReturnWrote (takeRing lz origSize ring ringPos len c) := by
  unfold takeRing
  split
  · exact returnWrote_ok hc _
  · refine Exc.Post.bind (fetch_wrote lz _) fun b0 _ => Exc.Post.bind (fetch_wrote lz _) fun b1 _ => ?_
    simp only
    split
    · exact returnWrote_ok hc _
    · split
      · exact returnWrote_ok hc _
      · split
        · exact returnWrote_ok hc _
        · split
          · exact returnWrote_ok hc _
          · split
            · exact returnWrote_error _
            · exact List.append_ne_nil_of_left_ne_nil hc _

theorem lz77DecodeStep_wrote {c : Lz.Cursor UInt8} (hc : Wrote c) :
    Exc.Post Wrote ReturnWrote (lz77DecodeStep lz origSize c) := by
  have hnext : Wrote ⟨c.pos + 1, c.out⟩ := hc
  unfold lz77DecodeStep
  refine Exc.Post.bind (fetch_wrote lz _) fun tok _ => ?_
  split
  · exact takeRef_wrote hnext _
  · exact takeLits_wrote hnext _

theorem lz77xDecodeStep_wrote {ring : Option Block} {ringPos : ℕ} {c : Lz.Cursor UInt8} (hc : Wrote c) :
    Exc.Post Wrote ReturnWrote (lz77xDecodeStep lz origSize ring ringPos c) := by
  have hnext : Wrote ⟨c.pos + 1, c.out⟩ := hc
  unfold lz77xDecodeStep
  refine Exc.Post.bind (fetch_wrote lz _) fun tok _ => ?_
  split
  · exact takeLits_wrote hnext _
  · split
    · exact takeRef_wrote hnext _
    · exact takeRing_wrote hnext _

/-- A token loop that wrote something at its first token fails with something written. -/
theorem tokenLoop_wrote {guard : Lz.Cursor UInt8 → Bool} {body : Lz.Cursor UInt8 → Except Return (Lz.Cursor UInt8)}
    (hbody : ∀ c, Wrote c → Exc.Post Wrote ReturnWrote (body c)) (n : ℕ) {c : Lz.Cursor UInt8} (hc : Wrote c) :
    ¬FailsClean (decodeEnd origSize (Loop.run guard body n c)) := by
  have hrun := @Loop.run_post _ _ guard body _ _ (fun c hc _ => hbody c hc) n c hc
  rintro ⟨code, hne, hclean⟩
  cases hres : Loop.run guard body n c with
  | error r =>
    rw [hres] at hrun hclean
    exact hrun _ _ hclean rfl
  | ok c' =>
    rw [hres] at hrun hclean
    unfold decodeEnd at hclean
    simp only at hclean
    split at hclean
    · exact not_failsClean_of_ne hrun ⟨code, hne, hclean⟩
    · exact not_failsClean_of_ne hrun ⟨code, hne, hclean⟩

/-- A token loop fails with nothing written if there is no token and bytes are missing, or at its first token. -/
theorem tokenLoop_failsClean {body : Lz.Cursor UInt8 → Except Return (Lz.Cursor UInt8)} {F : Prop}
    (hbody : ∀ c, Wrote c → Exc.Post Wrote ReturnWrote (body c)) (hnil : lz = [] → (F ↔ origSize ≠ 0))
    (hstuck : lz ≠ [] → F → body ⟨0, []⟩ = .error (.ok ([], .errCorrupt)))
    (hfree : lz ≠ [] → ¬F → ∃ c, body ⟨0, []⟩ = .ok c ∧ Wrote c) :
    FailsClean (decodeEnd origSize (Loop.run (fun c => decide (c.pos < lz.length)) body lz.length ⟨0, []⟩)) ↔ F := by
  by_cases hlz : lz = []
  · rw [hnil hlz]
    subst hlz
    simp only [List.length_nil, Loop.run, decodeEnd]
    by_cases h0 : origSize = 0
    · subst h0
      simp [FailsClean]
    · rw [if_pos (Ne.symm h0)]
      exact failsClean_iff (by simp) h0
  · obtain ⟨n, hn⟩ := Nat.exists_eq_succ_of_ne_zero (fun h => hlz (List.length_eq_zero_iff.mp h))
    have hg : decide ((⟨0, []⟩ : Lz.Cursor UInt8).pos < lz.length) = true := by
      simp only [decide_eq_true_eq]
      omega
    generalize hguard : (fun c : Lz.Cursor UInt8 => decide (c.pos < lz.length)) = guard
    replace hg : guard ⟨0, []⟩ = true := by rw [← hguard]; exact hg
    by_cases hF : F
    · rw [hn, Loop.run_error n hg (hstuck hlz hF)]
      exact failsClean_iff (by simp) hF
    · obtain ⟨c, hc, hw⟩ := hfree hlz hF
      rw [hn, Loop.run_succ n hg hc]
      exact ⟨fun h => absurd h (tokenLoop_wrote hbody n hw), fun h => absurd h hF⟩

/-- A back-reference into an empty output is an error. -/
theorem takeRef_nil (lz : List UInt8) (origSize len pos : ℕ) :
    takeRef lz origSize len ⟨pos, []⟩ = .error (.ok ([], .errCorrupt)) := by
  unfold takeRef
  split
  · rfl
  · next hlt =>
    rw [fetch_of_lt (not_le.mp hlt), Exc.ok_bind]
    exact if_pos (Nat.succ_pos _)

/-- A literal run at the start fails just if the stream or the packet is shorter. -/
theorem takeLits_nil {len pos : ℕ} (h0 : 0 < len) (hpos : pos ≤ lz.length) :
    (lz.length - pos < len ∨ origSize < len →
      takeLits lz origSize len ⟨pos, []⟩ = .error (.ok ([], .errCorrupt))) ∧
    (¬(lz.length - pos < len ∨ origSize < len) → ∃ c, takeLits lz origSize len ⟨pos, []⟩ = .ok c ∧ Wrote c) := by
  unfold takeLits
  simp only [List.length_nil, Nat.zero_add, List.nil_append]
  constructor
  · intro h
    split
    · rfl
    · rw [if_pos (by omega)]
  · intro h
    rw [if_neg (by omega), if_neg (by omega)]
    refine ⟨_, rfl, fun hnil => ?_⟩
    have hlen := congrArg List.length hnil
    simp only [List.length_take, List.length_drop, List.length_nil] at hlen
    omega

/-- An LZ77 stream fails before its first byte: it has no token and bytes are missing, or it starts with a
back-reference, or with more literals than it or the packet holds. -/
def Lz77Stuck : List UInt8 → ℕ → Prop
  | [], origSize => origSize ≠ 0
  | tok :: lz, origSize =>
    tok &&& 0x80 ≠ 0 ∨ lz.length < (tok &&& 0x7F).toNat + 1 ∨ origSize < (tok &&& 0x7F).toNat + 1

theorem failsClean_lz77Decode (lz : List UInt8) (origSize : ℕ) :
    FailsClean (lz77Decode lz origSize) ↔ Lz77Stuck lz origSize := by
  unfold lz77Decode
  apply tokenLoop_failsClean fun c hc => lz77DecodeStep_wrote hc
  · rintro rfl
    rfl
  · intro hne hF
    obtain ⟨tok, rest, rfl⟩ := List.exists_cons_of_ne_nil hne
    have hfetch : fetch (tok :: rest) 0 = .ok tok := rfl
    rw [lz77DecodeStep, hfetch, Exc.ok_bind]
    split
    · exact takeRef_nil _ _ _ _
    · next htok =>
      refine (takeLits_nil (Nat.succ_pos _) (by simp)).1 ?_
      simpa using hF.resolve_left htok
  · intro hne hF
    obtain ⟨tok, rest, rfl⟩ := List.exists_cons_of_ne_nil hne
    have hfetch : fetch (tok :: rest) 0 = .ok tok := rfl
    obtain ⟨htok, hlen⟩ := not_or.mp hF
    rw [lz77DecodeStep, hfetch, Exc.ok_bind, if_neg htok]
    exact (takeLits_nil (Nat.succ_pos _) (by simp)).2 (by simpa using hlen)

/-- A long back-reference at the start of a packet fails: it is cut short, or there is no ring that reaches
so far back, or it is longer than the packet. -/
def RingStuck (lz : List UInt8) (origSize : ℕ) (ring : Option Block) (len : ℕ) : Prop :=
  lz.length < 2 ∨ origSize < len ∨
    ∀ b, ring = some b → b.size < ((lz.getD 0 0).toNat ||| (lz.getD 1 0).toNat <<< 8) + 1

theorem takeRing_nil {ring : Option Block} {ringPos len : ℕ} {tok : UInt8} (h0 : 0 < len) :
    (RingStuck lz origSize ring len →
      takeRing (tok :: lz) origSize ring ringPos len ⟨1, []⟩ = .error (.ok ([], .errCorrupt))) ∧
    (¬RingStuck lz origSize ring len →
      ∃ c, takeRing (tok :: lz) origSize ring ringPos len ⟨1, []⟩ = .ok c ∧ Wrote c) := by
  unfold takeRing
  rcases lz with _ | ⟨b0, _ | ⟨b1, lz⟩⟩
  · exact ⟨fun _ => rfl, fun h => absurd (Or.inl (by decide)) h⟩
  · exact ⟨fun _ => rfl, fun h => absurd (Or.inl (by simp)) h⟩
  · have hf0 : fetch (tok :: b0 :: b1 :: lz) 1 = .ok b0 := rfl
    have hf1 : fetch (tok :: b0 :: b1 :: lz) 2 = .ok b1 := rfl
    rw [if_neg (by simp), hf0, Exc.ok_bind, hf1, Exc.ok_bind]
    simp only [RingStuck, List.length_cons, List.getD_cons_zero, List.getD_cons_succ, List.length_nil, Nat.zero_add,
      List.nil_append]
    cases ring with
    | none => exact ⟨fun _ => rfl, fun h => absurd (Or.inr (Or.inr fun _ hb => by cases hb)) h⟩
    | some b =>
      have hring : (∀ b', some b = some b' → b'.size < (b0.toNat ||| b1.toNat <<< 8) + 1) ↔
          b.size < (b0.toNat ||| b1.toNat <<< 8) + 1 := by simp
      rw [hring]
      constructor
      · intro h
        simp only
        split
        · rfl
        · split
          · rfl
          · rw [if_pos (by omega)]
      · intro h
        simp only
        rw [if_neg (by omega), if_neg (by omega), if_neg (by omega), ringCopy_ok (by omega)]
        refine ⟨_, rfl, fun hnil => ?_⟩
        have hlen := congrArg List.length hnil
        simp at hlen
        omega

/-- An LZ77X stream fails before its first byte. -/
def Lz77xStuck (ring : Option Block) : List UInt8 → ℕ → Prop
  | [], origSize => origSize ≠ 0
  | tok :: lz, origSize =>
    if tok &&& 0x80 = 0 then lz.length < (tok &&& 0x7F).toNat + 1 ∨ origSize < (tok &&& 0x7F).toNat + 1
    else tok &&& 0x40 = 0 ∨ RingStuck lz origSize ring ((tok &&& 0x3F).toNat + 3)

theorem failsClean_lz77xDecode (lz : List UInt8) (origSize : ℕ) (ring : Option Block) (ringPos : ℕ) :
    FailsClean (lz77xDecode lz origSize ring ringPos) ↔ Lz77xStuck ring lz origSize := by
  unfold lz77xDecode
  apply tokenLoop_failsClean fun c hc => lz77xDecodeStep_wrote hc
  · rintro rfl
    rfl
  · intro hne hF
    obtain ⟨tok, rest, rfl⟩ := List.exists_cons_of_ne_nil hne
    have hfetch : fetch (tok :: rest) 0 = .ok tok := rfl
    rw [lz77xDecodeStep, hfetch, Exc.ok_bind]
    rw [Lz77xStuck] at hF
    split
    · next htok =>
      rw [if_pos htok] at hF
      exact (takeLits_nil (Nat.succ_pos _) (by simp)).1 (by simpa using hF)
    · next htok =>
      rw [if_neg htok] at hF
      split
      · exact takeRef_nil _ _ _ _
      · next hlong => exact (takeRing_nil (Nat.succ_pos _)).1 (hF.resolve_left hlong)
  · intro hne hF
    obtain ⟨tok, rest, rfl⟩ := List.exists_cons_of_ne_nil hne
    have hfetch : fetch (tok :: rest) 0 = .ok tok := rfl
    rw [lz77xDecodeStep, hfetch, Exc.ok_bind]
    rw [Lz77xStuck] at hF
    split
    · next htok =>
      rw [if_pos htok] at hF
      exact (takeLits_nil (Nat.succ_pos _) (by simp)).2 (by simpa using hF)
    · next htok =>
      rw [if_neg htok, not_or] at hF
      rw [if_neg hF.1]
      exact (takeRing_nil (Nat.succ_pos _)).2 hF.2

/-- An RLE stream fails before its first byte: it has no pair and bytes are missing, or half a pair, or a
first run of no bytes or more than the packet holds. -/
def RleStuck : List UInt8 → ℕ → Prop
  | [], origSize => origSize ≠ 0
  | [_], _ => True
  | count :: _ :: _, origSize => count = 0 ∨ origSize < count.toNat

theorem rleDecode_ne_nil : ∀ (rle : List UInt8) (origSize : ℕ) {out : List UInt8}, out ≠ [] →
    (rleDecode rle origSize out).1 ≠ []
  | count :: sym :: rle, origSize, out, h => by
    rw [rleDecode]
    split
    · exact h
    · exact rleDecode_ne_nil rle origSize (List.append_ne_nil_of_left_ne_nil h _)
  | [_], _, _, h => h
  | [], _, _, h => by
    rw [rleDecode]
    split <;> exact h

theorem failsClean_rleDecode (rle : List UInt8) (origSize : ℕ) :
    FailsClean (.ok (rleDecode rle origSize [])) ↔ RleStuck rle origSize := by
  rcases rle with _ | ⟨count, _ | ⟨sym, rle⟩⟩
  · rw [rleDecode]
    by_cases h0 : origSize = 0
    · subst h0
      simp [FailsClean, RleStuck]
    · rw [if_pos (by simpa using Ne.symm h0)]
      exact failsClean_iff (by simp) h0
  · exact failsClean_iff (by simp) trivial
  · rw [rleDecode, List.length_nil, Nat.zero_add]
    split
    · next h => exact failsClean_iff (by simp) h
    · next h =>
      refine ⟨fun hclean => absurd hclean ?_, fun hF => absurd hF h⟩
      refine not_failsClean_of_ne (rleDecode_ne_nil rle origSize ?_)
      have hcount : count.toNat ≠ 0 := fun hz => h (Or.inl (UInt8.toNat_inj.mp hz))
      simp [hcount]

end Tokens

/-! ### tANS streams -/

section Streams

variable {P : TansParams} {tbl : Table} {payload : List UInt8} {compact : Bool}

/-- A tANS decoder that fails with nothing written. -/
theorem failsClean_decodeCode {α : Type} {x : Chk (List UInt8 × Option α)} :
    FailsClean (x >>= fun out => pure (decodeCode out)) ↔ x = .ok ([], none) := by
  rcases x with e | ⟨bs, o⟩
  · exact ⟨fun ⟨_, _, h⟩ => by simp at h, fun h => by cases h⟩
  · rw [Exc.ok_bind, Exc.pure_eq]
    cases o with
    | some a => simp [FailsClean, decodeCode]
    | none => simp [FailsClean, decodeCode]

/-- A decoder that has a byte to decode and a table for it writes it. -/
theorem decodeRun_eq_nil {sel : ℕ → UInt8 → Chk (Option Table)} {n i : ℕ} {prev : UInt8} {X : ℕ} {r : Bsr}
    {o : Option (ℕ × Bsr)} : decodeRun P sel (n + 1) i prev X r = .ok ([], o) ↔ sel i prev = .ok none ∧ o = none := by
  rw [decodeRun]
  rcases hsel : sel i prev with e | _ | t
  · simp
  · simp [eq_comm]
  · simp only [Exc.ok_bind, Except.ok.injEq, reduceCtorEq, false_and, iff_false]
    intro h
    obtain ⟨⟨b, next⟩, -, h⟩ := Exc.bind_eq_ok h
    rcases next with _ | ⟨X', r'⟩
    · simp at h
    · obtain ⟨⟨bs, last⟩, -, h⟩ := Exc.bind_eq_ok h
      simp at h

theorem decodeRun_nil {sel : ℕ → UInt8 → Chk (Option Table)} {n i : ℕ} {prev : UInt8} {X : ℕ} {r : Bsr} :
    decodeRun P sel (n + 1) i prev X r = .ok ([], none) ↔ sel i prev = .ok none := by
  rw [decodeRun_eq_nil, and_iff_left rfl]

/-- A decoder that succeeds on some bytes wrote some. -/
theorem tansDecodeWith_ne {r : Bsr} {n X : ℕ} (hn : n ≠ 0) (a : ℕ × Bsr) :
    tansDecodeWith P tbl r n X ≠ .ok ([], some a) := by
  obtain ⟨m, rfl⟩ := Nat.exists_eq_succ_of_ne_zero hn
  unfold tansDecodeWith
  split
  · simp
  · intro h
    exact absurd (decodeRun_eq_nil.mp h).2 (by simp)

theorem tansDecodeWith_nil {r : Bsr} {n X : ℕ} : tansDecodeWith P tbl r n X = .ok ([], none) ↔
    tbl.valid = false ∨ n = 0 ∨ stateOk P X = false := by
  unfold tansDecodeWith
  cases n with
  | zero => simp
  | succ n =>
    by_cases h : tbl.valid = false ∨ stateOk P X = false
    · rw [if_pos (by rcases h with h | h <;> simp [h])]
      simpa using h
    · rw [not_or, Bool.not_eq_false, Bool.not_eq_false] at h
      rw [if_neg (by simp [h.1, h.2]), decodeRun_nil]
      simp [h.1, h.2]

/-- The per-position decoders, with their table for the first byte. -/
theorem decodeFrom_nil {sel : ℕ → UInt8 → Chk (Option Table)} {r : Bsr} {n X : ℕ} :
    (if n == 0 || !stateOk P X then .ok ([], none) else decodeRun P sel n 0 0 X r) = .ok ([], none) ↔
      n = 0 ∨ stateOk P X = false ∨ sel 0 0 = .ok none := by
  cases n with
  | zero => simp
  | succ n =>
    cases hX : stateOk P X with
    | false => simp
    | true => simp [decodeRun_nil]

theorem decodeX2Run_ne {n X0 X1 : ℕ} {r : Bsr} : decodeX2Run tbl (n + 1) X0 X1 r ≠ .ok ([], none) := by
  intro h
  rw [decodeX2Run] at h
  obtain ⟨⟨a, next0⟩, -, h⟩ := Exc.bind_eq_ok h
  obtain ⟨u, -, h⟩ := Exc.bind_eq_ok h
  rcases next0 with _ | ⟨Y0, r0⟩
  · simp at h
  · obtain ⟨⟨b, next1⟩, -, h⟩ := Exc.bind_eq_ok h
    rcases next1 with _ | ⟨Y1, r1⟩
    · simp at h
    · obtain ⟨⟨bs, last⟩, -, h⟩ := Exc.bind_eq_ok h
      simp at h

theorem tansDecodeX2_nil {r : Bsr} {n X0 X1 : ℕ} : tansDecodeX2 tbl r n X0 X1 = .ok ([], none) ↔
    tbl.valid = false ∨ n < 2 ∨ stateOk tans12 X0 = false ∨ stateOk tans12 X1 = false := by
  unfold tansDecodeX2
  by_cases hF : tbl.valid = false ∨ n < 2 ∨ stateOk tans12 X0 = false ∨ stateOk tans12 X1 = false
  · rw [if_pos (by rcases hF with h | h | h | h <;> simp [h])]
    simpa using hF
  · have hpass := hF
    simp only [not_or, Bool.not_eq_false, not_lt] at hpass
    have hskip : ¬(!tbl.valid || decide (n < 2) || !stateOk tans12 X0 || !stateOk tans12 X1) = true := by
      simp only [hpass.1, hpass.2.2.1, hpass.2.2.2, Bool.not_true, Bool.or_false, Bool.false_or, decide_eq_true_eq]
      omega
    rw [if_neg hskip, iff_false_right hF]
    obtain ⟨m, hm⟩ : ∃ m, n / 2 = m + 1 := ⟨n / 2 - 1, by omega⟩
    split
    · intro h
      obtain ⟨⟨a, next⟩, -, h⟩ := Exc.bind_eq_ok h
      rcases next with _ | ⟨Y0, r0⟩
      · simp at h
      · obtain ⟨⟨bs, last⟩, -, h⟩ := Exc.bind_eq_ok h
        simp at h
    · rw [hm]
      exact decodeX2Run_ne

/-- The state at `off` is missing or not one a stream can start from. -/
def StateStuck (P : TansParams) (compact : Bool) (payload : List UInt8) (off : ℕ) : Prop :=
  payload.length < off + stateSz compact ∨ ∃ X, readState compact payload off = .ok X ∧ stateOk P X = false

theorem stateStuck_iff {off X : ℕ} (h : off + stateSz compact ≤ payload.length)
    (hX : readState compact payload off = .ok X) : StateStuck P compact payload off ↔ stateOk P X = false := by
  unfold StateStuck
  rw [hX]
  simp only [Except.ok.injEq, exists_eq_left', or_iff_right_iff_imp]
  intro hlt
  omega

/-- A stream with one state fails before its first byte. -/
theorem failsClean_decodeOne (hv : tbl.valid = true) (payload : List UInt8) (orig : ℕ) (compact : Bool) :
    FailsClean (decodeOne tbl payload orig compact) ↔ orig = 0 ∨ StateStuck tans12 compact payload 0 := by
  unfold decodeOne
  by_cases hlen : payload.length < stateSz compact
  · rw [if_pos hlen]
    exact failsClean_iff (by simp) (Or.inr (Or.inl (by omega)))
  · obtain ⟨X, hX, -⟩ := @readState_ok compact payload 0 (by omega)
    obtain ⟨r, hr, -⟩ := bsrInit_wf (payload.drop (stateSz compact))
    rw [if_neg hlen, hX, Exc.ok_bind, stateStuck_iff (by omega) hX]
    cases hs : stateOk tans12 X with
    | false => exact failsClean_iff (by simp) (Or.inr rfl)
    | true =>
      simp only [Bool.not_true, Bool.false_eq_true, if_false, hr, Exc.ok_bind]
      rw [failsClean_decodeCode, tansDecode, tansDecodeWith_nil, hv, hs]
      simp

/-- A stream with two states fails before its first byte. -/
theorem failsClean_decodeX2 (hv : tbl.valid = true) (payload : List UInt8) (orig : ℕ) (compact : Bool) :
    FailsClean (decodeX2 tbl payload orig compact) ↔
      orig < 2 ∨ StateStuck tans12 compact payload 0 ∨ StateStuck tans12 compact payload (stateSz compact) := by
  unfold decodeX2
  by_cases hlen : payload.length < 2 * stateSz compact
  · rw [if_pos hlen]
    exact failsClean_iff (by simp) (Or.inr (Or.inr (Or.inl (by omega))))
  · obtain ⟨X0, h0, -⟩ := @readState_ok compact payload 0 (by omega)
    obtain ⟨X1, h1, -⟩ := @readState_ok compact payload (stateSz compact) (by omega)
    obtain ⟨r, hr, -⟩ := bsrInit_wf (payload.drop (2 * stateSz compact))
    rw [if_neg hlen, h0, Exc.ok_bind, h1, Exc.ok_bind, hr, Exc.ok_bind, failsClean_decodeCode, tansDecodeX2_nil,
      stateStuck_iff (by omega) h0, stateStuck_iff (by omega) h1, hv]
    simp

/-- A single-region payload fails before its first byte: its table is not valid, or a state is not, or there are not
enough bytes for its states. -/
def SingleStuck (d : Dict) (tables : ℕ → Table) (hdr : PktHeader) (payload : List UInt8) (compact : Bool) : Prop :=
  ∃ tbl, decompSelectTbl d tables (packetBucket hdr.algorithm) 0 hdr.flags = .ok tbl ∧
    (tbl.valid = false ∨
      if PktFlag.has hdr.flags PktFlag.x2 then hdr.originalSize < 2 ∨ StateStuck tans12 compact payload 0 ∨
        StateStuck tans12 compact payload (stateSz compact)
      else hdr.originalSize = 0 ∨ StateStuck tans12 compact payload 0)

theorem failsClean_decodeSingle (d : Dict) (tables : ℕ → Table) (hdr : PktHeader) (payload : List UInt8)
    (compact : Bool) :
    FailsClean (decodeSingle d tables hdr payload compact) ↔ SingleStuck d tables hdr payload compact := by
  unfold decodeSingle SingleStuck
  cases hsel : decompSelectTbl d tables (packetBucket hdr.algorithm) 0 hdr.flags with
  | error e => simp [FailsClean]
  | ok t =>
    simp only [Exc.ok_bind, Except.ok.injEq, exists_eq_left']
    cases hv : t.valid with
    | false => exact failsClean_iff (by simp) (Or.inl rfl)
    | true =>
      simp only [Bool.not_true, Bool.false_eq_true, if_false, reduceCtorEq, false_or]
      split
      · exact failsClean_decodeX2 hv _ _ _
      · exact failsClean_decodeOne hv _ _ _

/-- The first byte of a per-position payload has no valid table. -/
def PctxUnset (d : Dict) (tables : ℕ → Table) (flags : UInt8) : Prop :=
  if PktFlag.has flags PktFlag.bigram && (d.bigramTables 0 0).valid then
    bigramSelectChk d.bigramTables tables d.bigramClass 0 0 = .ok none
  else pctxSelectChk tables 0 0 = .ok none

theorem failsClean_decodePctx (d : Dict) (tables : ℕ → Table) (hdr : PktHeader) (payload : List UInt8)
    (compact : Bool) : FailsClean (decodePctx d tables hdr payload compact) ↔
      hdr.originalSize = 0 ∨ StateStuck tans12 compact payload 0 ∨ PctxUnset d tables hdr.flags := by
  unfold decodePctx
  by_cases hlen : payload.length < stateSz compact
  · rw [if_pos hlen]
    exact failsClean_iff (by simp) (Or.inr (Or.inl (Or.inl (by omega))))
  · obtain ⟨X, hX, -⟩ := @readState_ok compact payload 0 (by omega)
    obtain ⟨r, hr, -⟩ := bsrInit_wf (payload.drop (stateSz compact))
    rw [if_neg hlen, hX, Exc.ok_bind, stateStuck_iff (by omega) hX]
    cases hs : stateOk tans12 X with
    | false => exact failsClean_iff (by simp) (Or.inr (Or.inl rfl))
    | true =>
      simp only [Bool.not_true, Bool.false_eq_true, if_false, hr, Exc.ok_bind]
      rw [failsClean_decodeCode, pctxStream, PctxUnset]
      split
      · rw [tansDecodePctxBigram, decodeFrom_nil, hs]
      · rw [tansDecodePctx, decodeFrom_nil, hs]

/-- A 10-bit payload fails before its first byte. -/
def Tans10Stuck (tables : ℕ → Table) (hdr : PktHeader) (payload : List UInt8) : Prop :=
  (tables (packetBucket hdr.algorithm)).valid = false ∨ hdr.originalSize = 0 ∨ StateStuck tans10 true payload 0 ∨
    table10 (tables (packetBucket hdr.algorithm)) = none

theorem table10_valid {t t' : Table} (h : table10 t = some t') : t'.valid = true := by
  obtain ⟨f, -, hf⟩ := Option.bind_eq_some_iff.mp h
  obtain ⟨-, rfl⟩ := tansBuildWith_eq_some hf
  rfl

theorem failsClean_decode10 (tables : ℕ → Table) (hdr : PktHeader) (payload : List UInt8) :
    FailsClean (decode10 tables hdr payload) ↔ Tans10Stuck tables hdr payload := by
  have hvalid := fun t => @table10_valid (tables (packetBucket hdr.algorithm)) t
  unfold decode10 Tans10Stuck
  simp only [Chk.index_of_lt (packetBucket_lt hdr.algorithm), Exc.ok_bind]
  generalize table10 (tables (packetBucket hdr.algorithm)) = small at hvalid ⊢
  cases hv : (tables (packetBucket hdr.algorithm)).valid with
  | false => exact failsClean_iff (by simp) (Or.inl rfl)
  | true =>
    simp only [Bool.not_true, Bool.false_eq_true, if_false, reduceCtorEq, false_or]
    by_cases hlen : payload.length < 2
    · rw [if_pos hlen]
      exact failsClean_iff (by simp) (Or.inr (Or.inl (Or.inl hlen)))
    · obtain ⟨X, hX, -⟩ := @readState_ok true payload 0 (not_lt.mp hlen)
      obtain ⟨r, hr, -⟩ := bsrInit_wf (payload.drop 2)
      rw [if_neg hlen, stateStuck_iff (not_lt.mp hlen) hX, show readU16Le payload 0 = .ok X from hX, Exc.ok_bind]
      cases hs : stateOk tans10 X with
      | false => exact failsClean_iff (by simp) (Or.inr (Or.inl rfl))
      | true =>
        simp only [Bool.not_true, Bool.false_eq_true, if_false]
        cases small with
        | none => exact failsClean_iff (by simp) (Or.inr (Or.inr rfl))
        | some t =>
          simp only [hr, Exc.ok_bind]
          rw [failsClean_decodeCode, tansDecode10, tansDecodeWith_nil, hvalid t rfl, hs]
          simp

end Streams

end Netc
