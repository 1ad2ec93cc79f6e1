/-
# Sessions

A sender and a receiver, packet after packet. Both take in the same bytes
after each one, so that they stay in step; and a context in step with the
sender's gives each packet back (`wire_received`). With the eight-byte header
only the format with two states can lose a packet. The type byte of the compact
header stands for flags and algorithm, and there are packets it does not carry:
residuals of order 2 that leave by LZ77 or with a single table.

Key definitions: `InStep`, `Transfer`, `Delivers`, `Sendable`.
Key theorems: `transfer_inStep`, `delivers_of_sendable`.
-/
import Netc.Delivery

namespace Netc

/-! ### In step -/

/-- Sender and receiver agree, and expect the same sequence number. -/
structure InStep (enc dec : Ctx) : Prop extends Agree enc dec where
  contextSeq : dec.contextSeq = enc.contextSeq

section InStep

variable {enc dec : Ctx} {data : List UInt8}

theorem Agree.updatePrev (h : Agree enc dec) (data : List UInt8) :
    Agree (enc.updatePrev data) (dec.updatePrev data) := by
  obtain ⟨h1, h2, h3, h4, h5, h6, h7, h8, h9, h10, h11⟩ := h
  simp only [Ctx.updatePrev, h5, h6, h7]
  rcases enc.prevPkt with _ | prev
  · exact ⟨h1, h2, h3, h4, h5, h6, h7, h8, h9, h10, h11⟩
  · rcases hp2 : enc.prev2Pkt with _ | prev2
    · exact ⟨h1, h2, h3, h4, rfl, rfl, h7, h8, h9, h10, h11⟩
    · exact ⟨h1, h2, h3, h4, rfl, rfl, rfl, rfl, h9, h10, h11⟩

theorem Agree.appendRing (h : Agree enc dec) (data : List UInt8) :
    Agree (enc.appendRing data) (dec.appendRing data) := by
  obtain ⟨h1, h2, h3, h4, h5, h6, h7, h8, h9, h10, h11⟩ := h
  simp only [Ctx.appendRing, h3, h4]
  rcases enc.ring with _ | ring
  · exact ⟨h1, h2, h3, h4, h5, h6, h7, h8, h9, h10, h11⟩
  · exact ⟨h1, h2, rfl, rfl, h5, h6, h7, h8, h9, h10, h11⟩

/-- The statistics are not part of it, nor are the arena and the sequence number. -/
theorem Agree.tally (h : Agree enc dec) (f g : Stats → Stats) : Agree (enc.tally f) (dec.tally g) := by
  obtain ⟨h1, h2, h3, h4, h5, h6, h7, h8, h9, h10, h11⟩ := h
  simp only [Ctx.tally]
  split <;> split <;> exact ⟨h1, h2, h3, h4, h5, h6, h7, h8, h9, h10, h11⟩

theorem Agree.withSeq (h : Agree enc dec) (seq seq' : UInt8) (arena arena' : Block) :
    Agree { enc with contextSeq := seq, arena := arena } { dec with contextSeq := seq', arena := arena' } := by
  obtain ⟨h1, h2, h3, h4, h5, h6, h7, h8, h9, h10, h11⟩ := h
  exact ⟨h1, h2, h3, h4, h5, h6, h7, h8, h9, h10, h11⟩

theorem Agree.rebuildTables (h : Agree enc dec) (a : Adapt) : dec.rebuildTables a = enc.rebuildTables a := by
  simp only [Ctx.rebuildTables, h.dict]

theorem Agree.learn (h : Agree enc dec) (data : List UInt8) : Agree (enc.learn data) (dec.learn data) := by
  have hre := h.rebuildTables
  obtain ⟨h1, h2, h3, h4, h5, h6, h7, h8, h9, h10, h11⟩ := h
  simp only [Ctx.learn, Ctx.adaptiveUpdate, h9, h11]
  rcases ha : enc.adapt with _ | a
  · exact ⟨h1, h2, h3, h4, h5, h6, h7, h8, h9, by simp only [h10], h11⟩
  · simp only [hre]
    split <;> exact ⟨h1, h2, h3, h4, h5, h6, h7, h8, rfl, by simp only [h10], rfl⟩

/-- **Both sides take a packet in the same way.** -/
theorem Agree.taken (h : Agree enc dec) (src : List UInt8) (arena : Block) (n m : ℕ) (passthru : Bool)
    (hdr : PktHeader) : Agree (sentCtx enc src arena n passthru) (decompFinish dec hdr m src) := by
  rw [sentCtx, takenIn, ← updatePrev_appendRing, decompFinish]
  refine Agree.learn ?_ src
  have h' := (((h.withSeq (enc.contextSeq + 1) dec.contextSeq arena dec.arena).updatePrev src).appendRing src).tally
    (countCompressed src.length n passthru) fun s => { s with
      packetsDecompressed := (s.packetsDecompressed + 1) % 2 ^ 64
      bytesIn := (s.bytesIn + m) % 2 ^ 64
      bytesOut := (s.bytesOut + src.length) % 2 ^ 64
      passthroughCount :=
        if algId hdr.algorithm = Alg.passthru then (s.passthroughCount + 1) % 2 ^ 64 else s.passthroughCount }
  obtain ⟨h1, h2, h3, h4, h5, h6, h7, h8, h9, h10, h11⟩ := h'
  exact ⟨h1, h2, h3, h4, h5, h6, h7, h8, h9, h10, h11⟩

theorem sentCtx_contextSeq (ctx : Ctx) (src : List UInt8) (arena : Block) (n : ℕ) (passthru : Bool) :
    (sentCtx ctx src arena n passthru).contextSeq = ctx.contextSeq + 1 := by
  simp only [sentCtx, takenIn, Ctx.learn_contextSeq, Ctx.tally_contextSeq, Ctx.updatePrev_contextSeq,
    Ctx.appendRing_contextSeq]

theorem decompFinish_contextSeq (ctx : Ctx) (hdr : PktHeader) (n : ℕ) (data : List UInt8) :
    (decompFinish ctx hdr n data).contextSeq = hdr.contextSeq + 1 := by
  simp only [decompFinish, Ctx.learn_contextSeq]

theorem InStep.taken (h : InStep enc dec) (src : List UInt8) (arena : Block) (n m : ℕ) (passthru : Bool)
    {hdr : PktHeader} (hseq : hdr.contextSeq = enc.contextSeq) :
    InStep (sentCtx enc src arena n passthru) (decompFinish dec hdr m src) :=
  ⟨h.toAgree.taken src arena n m passthru hdr, by rw [sentCtx_contextSeq, decompFinish_contextSeq, hseq]⟩

end InStep

/-! ### Transfers -/

/-- A packet, with the buffers of the call that sends it and of the call that receives it. -/
structure Transfer where
  src : List UInt8
  dst : Out
  dstCap : ℕ
  dstSize : ℕ
  out : Out
  outCap : ℕ
  outSize : ℕ

/-- The call that sends the packet. -/
def Transfer.send (t : Transfer) (enc : Ctx) : CompressRet := compress enc t.src t.dst t.dstCap t.dstSize

/-- The packet on the wire. -/
def Transfer.sent (t : Transfer) (enc : Ctx) : List UInt8 := (t.send enc).dst.read (t.send enc).dstSize

/-- The call that receives it. -/
def Transfer.receive (t : Transfer) (enc dec : Ctx) : Chk DecompressRet :=
  decompress dec (t.sent enc) t.out t.outCap t.outSize

/-- A packet of at most 65535 bytes, with room for it on both sides. -/
def Transfer.Fits (t : Transfer) : Prop :=
  t.src.length ≤ maxPacketSize ∧ t.src.length + headerSize ≤ t.dstCap ∧ t.src.length ≤ t.outCap

/-- The packets on the wire, as `netc_compress` emits them one after another. -/
def emitted : Ctx → List Transfer → List (List UInt8)
  | _, [] => []
  | enc, t :: ts => t.sent enc :: emitted (t.send enc).ctx ts

/-- Every call returns `NETC_OK`, every packet arrives, and sender and receiver are in step after each. -/
def Delivers : Ctx → Ctx → List Transfer → Prop
  | _, _, [] => True
  | enc, dec, t :: ts => (t.send enc).code = .ok ∧ ∃ r, t.receive enc dec = .ok r ∧ r.code = .ok ∧
      r.dstSize = t.src.length ∧ r.dst.read r.dstSize = t.src ∧ InStep (t.send enc).ctx r.ctx ∧
      Delivers (t.send enc).ctx r.ctx ts

/-- Every call returns `NETC_OK` and every packet arrives. -/
def Arrives : Ctx → Ctx → List Transfer → Prop
  | _, _, [] => True
  | enc, dec, t :: ts => (t.send enc).code = .ok ∧ ∃ r, t.receive enc dec = .ok r ∧ r.code = .ok ∧
      r.dstSize = t.src.length ∧ r.dst.read r.dstSize = t.src ∧ Arrives (t.send enc).ctx r.ctx ts

theorem Delivers.arrives : ∀ {ts : List Transfer} {enc dec : Ctx}, Delivers enc dec ts → Arrives enc dec ts
  | [], _, _, _ => trivial
  | _ :: _, _, _, ⟨hok, r, hr, hcode, hsize, hread, _, hrest⟩ =>
    ⟨hok, r, hr, hcode, hsize, hread, hrest.arrives⟩

/-- A condition on the sender's context, the packet and the capacity holds before every call. -/
def Throughout (P : Ctx → List UInt8 → ℕ → Prop) : Ctx → List Transfer → Prop
  | _, [] => True
  | enc, t :: ts => P enc t.src t.dstCap ∧ Throughout P (t.send enc).ctx ts

/-- The packet leaves in a format that keeps it: two states are given bytes they keep, and the compact header
carries flags and algorithm. -/
def Sendable (enc : Ctx) (src : List UInt8) (dstCap : ℕ) : Prop :=
  ∀ p, plan enc src dstCap = some p → (PktFlag.has p.flags PktFlag.x2 = true → X2Safe enc src) ∧
    (enc.compactMode = true → Carried p.flags p.algorithm)

section Transfers

variable {enc dec : Ctx} {t : Transfer}

theorem hdrSz_le (compact : Bool) (n : ℕ) : hdrSz compact n ≤ headerSize := by
  rw [hdrSz]
  split
  · split <;> decide
  · exact Nat.le_refl _

/-- With room for the packet and an eight-byte header, the packet is sent. -/
theorem Transfer.Fits.sent (h : t.Fits) (enc : Ctx) : Sent enc t.src t.dstCap (t.send enc) := by
  obtain ⟨h1, h2, -⟩ := h
  have h8 : headerSize = 8 := rfl
  have hmin : compactHdrMin = 2 := rfl
  have hle := hdrSz_le enc.compactMode t.src.length
  rcases compress_cases enc t.src t.dst t.dstCap t.dstSize with ⟨hentry, -⟩ | ⟨-, -, hcap, -⟩ | ⟨-, -, hsent⟩
  · omega
  · omega
  · exact hsent

theorem Transfer.Fits.sent_eq (h : t.Fits) (enc : Ctx) : t.sent enc = wire enc t.src (plan enc t.src t.dstCap) :=
  (h.sent enc).bytes

/-- **One packet.** Sender and receiver in step, it arrives and they stay in step. -/
theorem transfer_inStep (hwf : enc.Wf) (hwf' : dec.Wf) (h : InStep enc dec) (hfits : t.Fits)
    (hs : Sendable enc t.src t.dstCap) :
    ∃ r, t.receive enc dec = .ok r ∧ r.code = .ok ∧ r.dstSize = t.src.length ∧ r.dst.read r.dstSize = t.src ∧
      InStep (t.send enc).ctx r.ctx ∧ (t.send enc).ctx.Wf ∧ r.ctx.Wf := by
  have hsent := hfits.sent enc
  obtain ⟨dst', hrun, hread⟩ := @wire_received enc dec t.src t.dstCap t.outCap hwf hwf' h.toAgree hfits.1 hfits.2.2
    (fun p hp => (hs p hp).1) (fun hm => ⟨h.contextSeq, fun p hp => (hs p hp).2 hm⟩) t.out t.outSize
  rw [← hfits.sent_eq enc] at hrun
  obtain ⟨arena, -, hctx⟩ := hsent.ctx
  refine ⟨_, hrun, rfl, rfl, hread, ?_, compress_wf hwf .., decompFinish_wf hwf' _ _ hfits.1⟩
  rw [hctx]
  exact h.taken _ _ _ _ _ wireHeader_contextSeq

end Transfers

/-- **Whole sessions.** Sender and receiver in step, every packet arrives if each leaves in a format that keeps it. -/
theorem delivers_of_sendable : ∀ (ts : List Transfer) {enc dec : Ctx}, enc.Wf → dec.Wf → InStep enc dec →
    (∀ t ∈ ts, t.Fits) → Throughout Sendable enc ts → Delivers enc dec ts
  | [], _, _, _, _, _, _, _ => trivial
  | t :: ts, enc, dec, hwf, hwf', h, hfits, hs => by
    have hfit := hfits t (by simp)
    obtain ⟨r, hr, hcode, hsize, hread, hstep, hwf₁, hwf₁'⟩ := transfer_inStep hwf hwf' h hfit hs.1
    exact ⟨(hfit.sent enc).code, r, hr, hcode, hsize, hread, hstep,
      delivers_of_sendable ts hwf₁ hwf₁' hstep (fun u hu => hfits u (by simp [hu])) hs.2⟩

/-! ### The eight-byte header -/

/-- Two contexts with one dictionary, the same ring size and the same adaptivity start in step. -/
theorem ctxCreate_inStep {pf pf' : Platform} {dict : Option Dict} {cfg cfg' : Cfg} {junk junk' : ℕ → UInt8}
    {enc dec : Ctx} (h : ctxCreate pf dict cfg junk = some enc) (h' : ctxCreate pf' dict cfg' junk' = some dec)
    (hs : CfgFlag.has cfg'.flags CfgFlag.stateful = CfgFlag.has cfg.flags CfgFlag.stateful)
    (hc : CfgFlag.has cfg'.flags CfgFlag.compactHdr = CfgFlag.has cfg.flags CfgFlag.compactHdr)
    (ha : CfgFlag.has cfg'.flags CfgFlag.adaptive = CfgFlag.has cfg.flags CfgFlag.adaptive)
    (hr : cfg'.ringBufferSize = cfg.ringBufferSize) : InStep enc dec := by
  simp only [ctxCreate] at h h'
  rw [hs, ha, hr] at h'
  split at h
  · cases h
  · next hok =>
    rw [if_neg hok] at h'
    obtain rfl := Option.some.inj h
    obtain rfl := Option.some.inj h'
    exact ⟨⟨rfl, hc, rfl, rfl, rfl, rfl, rfl, rfl, rfl, rfl, rfl⟩, rfl⟩

theorem ctxCreate_flags {pf : Platform} {dict : Option Dict} {cfg : Cfg} {junk : ℕ → UInt8} {ctx : Ctx}
    (h : ctxCreate pf dict cfg junk = some ctx) : ctx.flags = cfg.flags := by
  simp only [ctxCreate] at h
  split at h
  · cases h
  · rw [← Option.some.inj h]

theorem Transfer.send_compactMode (t : Transfer) (enc : Ctx) : (t.send enc).ctx.compactMode = enc.compactMode :=
  congrArg (CfgFlag.has · CfgFlag.compactHdr) (kin_compress enc t.src t.dst t.dstCap t.dstSize).flags

/-- An eight-byte header on the wire reads back. -/
theorem hdrRead_wire {enc : Ctx} (hwf : enc.Wf) (hm : enc.compactMode = false) {src : List UInt8}
    (hlen : src.length ≤ maxPacketSize) (dstCap : ℕ) :
    hdrRead (wire enc src (plan enc src dstCap)) = .ok (wireHeader enc src (plan enc src dstCap)) := by
  obtain ⟨o, hp⟩ : ∃ o, plan enc src dstCap = o := ⟨_, rfl⟩
  have hle := (length_wirePayload_le hwf hp).trans hlen
  rw [hp, wire_eq, hm]
  refine hdrRead_hdrWrite _ _ ?_ ?_
  · rw [wireHeader_originalSize hlen]
    exact lt_of_le_of_lt hlen maxPacketSize_lt
  · rw [wireHeader_compressedSize hwf hlen hp]
    exact lt_of_le_of_lt hle maxPacketSize_lt

/-- An even number of bytes is kept by two states. -/
theorem x2Safe_even {enc : Ctx} {src : List UInt8} (h : src.length % 2 = 0) : X2Safe enc src :=
  fun _ hs _ _ => .inl (by rw [hs.length, h])

/-- With the eight-byte header, packets of two states of an even size are all a session needs. -/
theorem throughout_of_even : ∀ (ts : List Transfer) {enc : Ctx}, enc.Wf → enc.compactMode = false →
    (∀ t ∈ ts, t.Fits) → (∀ pkt ∈ emitted enc ts, ∀ hdr, hdrRead pkt = .ok hdr →
      PktFlag.has hdr.flags PktFlag.x2 = true → hdr.originalSize % 2 = 0) → Throughout Sendable enc ts
  | [], _, _, _, _, _ => trivial
  | t :: ts, enc, hwf, hm, hfits, heven => by
    have hfit := hfits t (by simp)
    refine ⟨fun p hp => ⟨fun hx2 => x2Safe_even ?_, fun hc => by rw [hm] at hc; cases hc⟩,
      throughout_of_even ts (compress_wf hwf ..) ((t.send_compactMode enc).trans hm)
        (fun u hu => hfits u (by simp [hu]))
        fun pkt hpkt => heven pkt (by simp [emitted, hpkt])⟩
    have hread := hdrRead_wire hwf hm hfit.1 t.dstCap
    rw [← hfit.sent_eq enc] at hread
    have := heven _ (by simp [emitted]) _ hread (by rw [hp]; exact hx2)
    rwa [wireHeader_originalSize hfit.1] at this

/-- **Sessions with the eight-byte header.** One dictionary or none, the same ring size and adaptivity on both
sides, all else as it may be: as long as packets of two states have an even size,
every packet comes back as it was and both sides are in step after each one. -/
theorem session_roundtrip {pf pf' : Platform} {dict : Option Dict} {cfg cfg' : Cfg} {junk junk' : ℕ → UInt8}
    {enc dec : Ctx} (hd : ∀ d, dict = some d → Trained d) (henc : ctxCreate pf dict cfg junk = some enc)
    (hdec : ctxCreate pf' dict cfg' junk' = some dec)
    (hs : CfgFlag.has cfg.flags CfgFlag.stateful = true) (hs' : CfgFlag.has cfg'.flags CfgFlag.stateful = true)
    (hc : CfgFlag.has cfg.flags CfgFlag.compactHdr = false) (hc' : CfgFlag.has cfg'.flags CfgFlag.compactHdr = false)
    (ha : CfgFlag.has cfg.flags CfgFlag.adaptive = CfgFlag.has cfg'.flags CfgFlag.adaptive)
    (hr : cfg.ringBufferSize = cfg'.ringBufferSize) (ts : List Transfer) (hfits : ∀ t ∈ ts, t.Fits)
    (heven : ∀ pkt ∈ emitted enc ts, ∀ hdr, hdrRead pkt = .ok hdr → PktFlag.has hdr.flags PktFlag.x2 = true →
      hdr.originalSize % 2 = 0) : Delivers enc dec ts := by
  have hwf := ctxCreate_wf (fun d h => (hd d h).sound) henc
  have hwf' := ctxCreate_wf (fun d h => (hd d h).sound) hdec
  have hm : enc.compactMode = false := by rw [Ctx.compactMode, ctxCreate_flags henc, hc]
  exact delivers_of_sendable ts hwf hwf'
    (ctxCreate_inStep henc hdec (hs'.trans hs.symm) (hc'.trans hc.symm) ha.symm hr.symm) hfits
    (throughout_of_even ts hwf hm hfits heven)

/-- Two states are a matter of the dictionary's tables. -/
theorem Format.x2_dict {ctx : Ctx} {src : List UInt8} {dstCap : ℕ} {p : Packet} (h : Format ctx src dstCap p)
    (hx2 : PktFlag.has p.flags PktFlag.x2 = true) : ctx.dict.isSome = true := by
  cases h with
  | lz77 hs hl horder h =>
    obtain ⟨-, -, -, -, hno⟩ := lz77Flags_has _ hs.pktFlags_mem
    exact absurd (hno.symm.trans hx2) (by decide)
  | lz77x passthru hring hsize h =>
    have hno : PktFlag.has PktFlag.dictId PktFlag.x2 = false := by decide
    exact absurd (hno.symm.trans hx2) (by decide)
  | tans hd hs hm hfirst => rw [hd, Option.isSome_some]

/-- The packet `src`, with buffers of 64 bytes. -/
def smallTransfer (src : List UInt8) : Transfer := ⟨src, .empty, 64, 0, .empty, 64, 0⟩

theorem smallTransfer_fits {src : List UInt8} (h : src.length ≤ 56) : (smallTransfer src).Fits := by
  have hmax : maxPacketSize = 65535 := rfl
  have h8 : headerSize = 8 := rfl
  exact ⟨by simp only [smallTransfer]; omega, by simp only [smallTransfer]; omega, by simp only [smallTransfer]; omega⟩

/-- Packets of an even size leave with an even size in their headers. -/
theorem emitted_even : ∀ (ts : List Transfer) {enc : Ctx}, enc.Wf → enc.compactMode = false → (∀ t ∈ ts, t.Fits) →
    (∀ t ∈ ts, t.src.length % 2 = 0) → ∀ pkt ∈ emitted enc ts, ∀ hdr, hdrRead pkt = .ok hdr → hdr.originalSize % 2 = 0
  | [], _, _, _, _, _, pkt, hpkt, _, _ => absurd hpkt List.not_mem_nil
  | t :: ts, enc, hwf, hm, hfits, heven, pkt, hpkt, hdr, hread => by
    have hfit := hfits t (by simp)
    rcases List.mem_cons.mp hpkt with rfl | hpkt
    · rw [hfit.sent_eq, hdrRead_wire hwf hm hfit.1, Except.ok.injEq] at hread
      rw [← hread, wireHeader_originalSize hfit.1]
      exact heven t (by simp)
    · exact emitted_even ts (compress_wf hwf ..) ((t.send_compactMode enc).trans hm)
        (fun u hu => hfits u (by simp [hu])) (fun u hu => heven u (by simp [hu])) pkt hpkt hdr hread

/-- Three packets of eight bytes, over a dictionary trained on two packets, with residuals and an adaptive model on
both sides. -/
theorem session_roundtrip_trained : ∃ d, dictTrain [[1, 2, 3, 1, 2, 3, 1, 2], [1, 2, 9]] 1 = .ok d ∧
    Delivers (newCtx (some d) (CfgFlag.stateful ||| CfgFlag.delta ||| CfgFlag.adaptive))
      (newCtx (some d) (CfgFlag.stateful ||| CfgFlag.delta ||| CfgFlag.adaptive ||| CfgFlag.bigram))
      [smallTransfer [1, 2, 3, 1, 2, 3, 1, 2], smallTransfer [1, 2, 3, 1, 2, 3, 1, 3],
        smallTransfer [1, 2, 9, 1, 2, 3, 1, 4]] := by
  obtain ⟨d, hd⟩ := @dictTrain_ok [[1, 2, 3, 1, 2, 3, 1, 2], [1, 2, 9]] 1 (by decide)
  have hdict : ∀ d', some d = some d' → Trained d' := fun _ h => Option.some.inj h ▸ ⟨_, _, hd⟩
  have henc := newCtx_create (some d)
    (show CfgFlag.has (CfgFlag.stateful ||| CfgFlag.delta ||| CfgFlag.adaptive) CfgFlag.stateful = true by decide)
  have hdec := newCtx_create (some d)
    (show CfgFlag.has (CfgFlag.stateful ||| CfgFlag.delta ||| CfgFlag.adaptive ||| CfgFlag.bigram)
      CfgFlag.stateful = true by decide)
  have hfits : ∀ t ∈ [smallTransfer [1, 2, 3, 1, 2, 3, 1, 2], smallTransfer [1, 2, 3, 1, 2, 3, 1, 3],
      smallTransfer [1, 2, 9, 1, 2, 3, 1, 4]], t.Fits := by
    simp only [List.forall_mem_cons, List.not_mem_nil, false_imp_iff, implies_true, and_true]
    exact ⟨smallTransfer_fits (by decide), smallTransfer_fits (by decide), smallTransfer_fits (by decide)⟩
  refine ⟨d, hd, session_roundtrip hdict henc hdec (by decide) (by decide) (by decide) (by decide)
    (by decide) rfl _ hfits ?_⟩
  intro pkt hpkt hdr hread _
  have hm : CfgFlag.has (CfgFlag.stateful ||| CfgFlag.delta ||| CfgFlag.adaptive) CfgFlag.compactHdr = false := by
    decide
  exact emitted_even _ (ctxCreate_wf (fun d' h => (hdict d' h).sound) henc) hm hfits (by simp [smallTransfer]) pkt hpkt
    hdr hread

end Netc
