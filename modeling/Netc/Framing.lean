/-
# Packets that say where they end

The eight-byte header has the size of the payload. A decoder that is handed a packet with other bytes behind
it does what it does with the packet alone, and counts the bytes it was handed; of the room in the caller's
buffer it asks only whether it holds the announced size. A packet that is cut short is refused, and nothing
has changed then. So no packet is the beginning of another, and packets sent one after another without gaps
can be told apart again (`packets_framed`). With the compact header none of this holds: the size of the
payload is that of what the decoder is handed.

Key definitions: `Whole`, `Ctx.withStats`, `Emitted`.
Key theorems: `decompress_trailing`, `decompress_cut`, `Emitted.whole`, `packets_framed`.
-/
import Netc.Lib.Prefix
import Netc.Datagram
import Netc.StatelessRoundtrip

namespace Netc

/-! ### Headers with bytes behind them -/

section Header

variable {pkt trailing : List UInt8} {hdr : PktHeader}

theorem get_append {i : ℕ} (h : i < pkt.length) (trailing : List UInt8) :
    Chk.get (pkt ++ trailing) i = Chk.get pkt i := by
  unfold Chk.get
  rw [List.getElem?_append_left h]

theorem hdrRead_append (h : headerSize ≤ pkt.length) (trailing : List UInt8) :
    hdrRead (pkt ++ trailing) = hdrRead pkt := by
  have h8 : headerSize = 8 := rfl
  unfold hdrRead readU16Le
  simp only [get_append (show 0 < pkt.length by omega), get_append (show 0 + 1 < pkt.length by omega),
    get_append (show 2 < pkt.length by omega), get_append (show 2 + 1 < pkt.length by omega),
    get_append (show 4 < pkt.length by omega), get_append (show 5 < pkt.length by omega),
    get_append (show 6 < pkt.length by omega), get_append (show 7 < pkt.length by omega)]

/-- The bytes hold a header and the payload it announces. -/
structure Whole (pkt : List UInt8) (hdr : PktHeader) : Prop where
  read : hdrRead pkt = .ok hdr
  fits : headerSize + hdr.compressedSize ≤ pkt.length

theorem Whole.append (h : Whole pkt hdr) (trailing : List UInt8) : Whole (pkt ++ trailing) hdr := by
  have hlen := h.fits
  refine ⟨?_, ?_⟩
  · rw [hdrRead_append (by omega), h.read]
  · rw [List.length_append]
    omega

theorem Whole.payload_append (h : Whole pkt hdr) (trailing : List UInt8) :
    Chk.sub (pkt ++ trailing) headerSize hdr.compressedSize = Chk.sub pkt headerSize hdr.compressedSize := by
  have hlen := h.fits
  rw [Chk.sub_of_le hlen, Chk.sub_of_le (h.append trailing).fits, List.drop_append_of_le_length (by omega),
    List.take_append_of_le_length (by rw [List.length_drop]; omega)]

/-- What the header check makes of a whole packet: it asks for room, and for nothing else. -/
theorem Whole.validateHeader (h : Whole pkt hdr) (dstCap : ℕ) : validateHeader pkt dstCap false
    = .ok (if dstCap < hdr.originalSize then .error .errBufSmall else .ok (hdr, headerSize)) := by
  have hlen := h.fits
  obtain ⟨hdr', hread, ho, -⟩ := @hdrRead_ok pkt (by omega)
  rw [Except.ok.inj (hread.symm.trans h.read)] at ho
  have hmax : ¬maxPacketSize < hdr.originalSize := by
    have : maxPacketSize = 65535 := rfl
    omega
  rw [Netc.validateHeader, if_neg (by simp), if_neg (by omega), h.read, Exc.ok_bind, if_neg hmax]
  split
  · rfl
  · rw [if_neg (by omega)]
    rfl

end Header

/-! ### Decoding with bytes behind the packet -/

/-- The context with other statistics. -/
def Ctx.withStats (ctx : Ctx) (s : Stats) : Ctx := { ctx with stats := s }

section Trailing

variable {ctx : Ctx} {pkt : List UInt8} {hdr : PktHeader}

theorem Ctx.withStats_learn (s : Stats) (data : List UInt8) :
    (ctx.withStats s).learn data = (ctx.learn data).withStats s := by
  rcases ctx with ⟨dict, _, _, _, _, _, _, _, _, _, _, _, _ | adapt, _, count⟩
  · rfl
  · simp only [Ctx.withStats, Ctx.learn, Ctx.adaptiveUpdate, Ctx.rebuildTables]
    split <;> rfl

theorem learn_eq_withStats (ctx : Ctx) (s s' : Stats) (seq : UInt8) (data : List UInt8) :
    { ctx with stats := s', contextSeq := seq }.learn data
      = ({ ctx with stats := s, contextSeq := seq }.learn data).withStats s' := by
  rw [← Ctx.withStats_learn]
  rfl

/-- The size of what was handed over shows in the statistics alone. -/
theorem decompFinish_size (ctx : Ctx) (hdr : PktHeader) (n m : ℕ) (data : List UInt8) :
    ∃ s, decompFinish ctx hdr m data = (decompFinish ctx hdr n data).withStats s := by
  simp only [decompFinish, Ctx.tally]
  split
  · exact ⟨_, learn_eq_withStats _ _ _ _ _⟩
  · exact ⟨_, learn_eq_withStats _ _ _ _ _⟩

/-- What a call has left, but for its statistics. -/
def DecompressRet.withStats (r : DecompressRet) (s : Stats) : DecompressRet := { r with ctx := r.ctx.withStats s }

theorem decompressBody_trailing (h : Whole pkt hdr) (trailing : List UInt8) (dst : Out) (dstSize : ℕ)
    {r : DecompressRet} (hr : decompressBody ctx pkt hdr headerSize dst dstSize = .ok r) :
    ∃ s, decompressBody ctx (pkt ++ trailing) hdr headerSize dst dstSize = .ok (r.withStats s) := by
  unfold decompressBody at hr ⊢
  rw [h.payload_append]
  by_cases hmis : modelMismatch ctx hdr = true
  · rw [if_pos hmis] at hr ⊢
    rw [← Except.ok.inj hr]
    exact ⟨ctx.stats, rfl⟩
  · rw [if_neg hmis] at hr ⊢
    obtain ⟨payload, hpay, hr⟩ := Exc.bind_eq_ok hr
    obtain ⟨⟨dst₁, code⟩, hdec, hr⟩ := Exc.bind_eq_ok hr
    rw [hpay, Exc.ok_bind, hdec, Exc.ok_bind]
    by_cases hcode : code ≠ .ok
    · simp only [if_pos hcode] at hr ⊢
      rw [← Except.ok.inj hr]
      exact ⟨ctx.stats, rfl⟩
    · simp only [if_neg hcode] at hr ⊢
      obtain ⟨dst₂, hundo, hr⟩ := Exc.bind_eq_ok hr
      obtain ⟨u, hhist, hr⟩ := Exc.bind_eq_ok hr
      rw [hundo, Exc.ok_bind, hhist, Exc.ok_bind]
      obtain ⟨s, hs⟩ := decompFinish_size ctx hdr pkt.length (pkt ++ trailing).length (dst₂.read hdr.originalSize)
      refine ⟨s, ?_⟩
      rw [← Except.ok.inj hr, hs]
      rfl

/-- **Bytes behind a packet do not matter**, nor does more room than it asks for. -/
theorem decompress_trailing (hwf : ctx.Wf) (hm : ctx.compactMode = false) (h : Whole pkt hdr)
    (trailing : List UInt8) (dst : Out) {dstCap dstCap' : ℕ} (hcap : hdr.originalSize ≤ dstCap)
    (hcap' : hdr.originalSize ≤ dstCap') (dstSize : ℕ) :
    ∃ r s, decompress ctx pkt dst dstCap dstSize = .ok r ∧
      decompress ctx (pkt ++ trailing) dst dstCap' dstSize = .ok (r.withStats s) := by
  obtain ⟨r, hr, -⟩ := decompress_wf hwf pkt dst dstCap dstSize
  have hbody : decompressBody ctx pkt hdr headerSize dst dstSize = .ok r := by
    rw [decompress, hm, h.validateHeader, if_neg (not_lt.mpr hcap), Exc.ok_bind] at hr
    simpa only [fillHeader, hm, Bool.false_eq_true, if_false] using hr
  obtain ⟨s, hs⟩ := decompressBody_trailing h trailing dst dstSize hbody
  refine ⟨r, s, hr, ?_⟩
  rw [decompress, hm, (h.append trailing).validateHeader, if_neg (not_lt.mpr hcap'), Exc.ok_bind]
  simpa only [fillHeader, hm, Bool.false_eq_true, if_false] using hs

/-- The stateless decoder has no statistics. -/
theorem decompressStateless_trailing (d : Dict) (h : Whole pkt hdr) (trailing : List UInt8) (dst : Out)
    {dstCap dstCap' : ℕ} (hcap : hdr.originalSize ≤ dstCap) (hcap' : hdr.originalSize ≤ dstCap') (dstSize : ℕ) :
    decompressStateless d (pkt ++ trailing) dst dstCap' dstSize = decompressStateless d pkt dst dstCap dstSize := by
  rw [decompressStateless, decompressStateless, h.validateHeader, (h.append trailing).validateHeader,
    if_neg (not_lt.mpr hcap), if_neg (not_lt.mpr hcap'), Exc.ok_bind, Exc.ok_bind]
  simp only [statelessBody, h.payload_append]

/-- Bytes that hold no whole packet are refused at the header. -/
theorem validateHeader_cut (h : ∀ hdr, ¬Whole pkt hdr) (dstCap : ℕ) :
    ∃ code, code ≠ .ok ∧ validateHeader pkt dstCap false = .ok (.error code) := by
  obtain ⟨v, hv, hpost⟩ := validateHeader_ok pkt dstCap false
  rcases v with code | ⟨hdr, n⟩
  · exact ⟨code, hpost, hv⟩
  · have hread := hdrRead_of_valid hv
    have hn : n = headerSize := by
      rw [validateHeader, if_neg (by simp)] at hv
      split at hv
      · cases hv
      · rw [hread, Exc.ok_bind] at hv
        repeat' split at hv
        all_goals simp only [Exc.pure_eq, Except.ok.injEq, reduceCtorEq, Prod.mk.injEq] at hv
        exact hv.2.symm
    exact absurd ⟨hread, hn ▸ hpost.2.2⟩ (h hdr)

end Trailing

/-! ### What is sent -/

/-- A packet with the eight-byte header that a context or `netc_compress_stateless` gives out. -/
inductive Emitted : List UInt8 → Prop
  | context {ctx : Ctx} {src : List UInt8} {dst : Out} {dstCap dstSize : ℕ} (hreach : Reachable ctx)
    (hm : ctx.compactMode = false) (hcode : (compress ctx src dst dstCap dstSize).code = .ok) :
    Emitted ((compress ctx src dst dstCap dstSize).dst.read (compress ctx src dst dstCap dstSize).dstSize)
  | stateless {d : Dict} {src : List UInt8} {dst : Out} {dstCap dstSize : ℕ}
    (hlen : src.length ≤ maxPacketSize) (hcap : src.length + headerSize ≤ dstCap) :
    Emitted ((compressStateless d src dst dstCap dstSize).dst.read (compressStateless d src dst dstCap dstSize).dstSize)

section Emit

variable {p q : List UInt8} {hdr hdr' : PktHeader}

/-- A header that announces the payload behind it makes a whole packet and no more. -/
theorem whole_hdrWrite {payload : List UInt8} (ho : hdr.originalSize < 2 ^ 16)
    (hc : hdr.compressedSize = payload.length) (hc16 : payload.length < 2 ^ 16) :
    Whole (hdrWrite hdr ++ payload) hdr ∧ headerSize + hdr.compressedSize = (hdrWrite hdr ++ payload).length := by
  have hlen : headerSize + hdr.compressedSize = (hdrWrite hdr ++ payload).length := by
    rw [List.length_append, length_hdrWrite, hc]
    rfl
  exact ⟨⟨hdrRead_hdrWrite hdr payload ho (hc ▸ hc16), hlen.le⟩, hlen⟩

/-- **What is sent is whole, and no more.** -/
theorem Emitted.whole (h : Emitted p) : ∃ hdr, Whole p hdr ∧ headerSize + hdr.compressedSize = p.length := by
  cases h with
  | @context ctx src dst dstCap dstSize hreach hm hcode =>
    have hlen := length_le_of_ok hcode
    have hwf := hreach.wf
    have hle := (length_wirePayload_le hwf (rfl : plan ctx src dstCap = _)).trans hlen
    have hsent : Sent ctx src dstCap (compress ctx src dst dstCap dstSize) := by
      rcases compress_cases ctx src dst dstCap dstSize with ⟨-, code, hne, hr⟩ | ⟨-, -, -, hsmall, -⟩ | ⟨-, -, hsent⟩
      · rw [hr] at hcode
        exact absurd hcode hne
      · rw [hsmall] at hcode
        cases hcode
      · exact hsent
    rw [hsent.bytes, wire_eq, hm]
    refine ⟨_, whole_hdrWrite ?_ (wireHeader_compressedSize hwf hlen rfl) (lt_of_le_of_lt hle maxPacketSize_lt)⟩
    rw [wireHeader_originalSize hlen]
    exact lt_of_le_of_lt hlen maxPacketSize_lt
  | @stateless d src dst dstCap dstSize hlen hcap =>
    obtain ⟨-, hwire⟩ := @compressStateless_sent d src dstCap hlen hcap dst dstSize
    obtain ⟨hsize, hc, hc16, -⟩ := @statelessWireHeader_fields d src dstCap hlen _ rfl
    rw [hwire, statelessWire_eq]
    exact ⟨_, whole_hdrWrite (hsize ▸ lt_of_le_of_lt hlen maxPacketSize_lt) hc hc16⟩

/-- A packet that is cut short is not whole. -/
theorem Emitted.not_whole_take (h : Emitted p) {n : ℕ} (hn : n < p.length) (hdr : PktHeader) :
    ¬Whole (p.take n) hdr := by
  intro hcut
  obtain ⟨hdr₀, hwhole, hlen⟩ := h.whole
  have hall := hcut.append (p.drop n)
  rw [List.take_append_drop] at hall
  have hsame : hdr = hdr₀ := Except.ok.inj (hall.read.symm.trans hwhole.read)
  have hfits := hcut.fits
  rw [List.length_take, hsame] at hfits
  omega

/-- No packet is the beginning of another. -/
theorem Emitted.prefix_eq (hp : Emitted p) (hq : Emitted q) (h : p <+: q) : p = q := by
  by_contra hne
  obtain ⟨hdr, hwhole, -⟩ := hp.whole
  have hlt : p.length < q.length := lt_of_le_of_ne h.length_le fun he => hne (h.eq_of_length he)
  exact hq.not_whole_take hlt hdr (List.prefix_iff_eq_take.mp h ▸ hwhole)

theorem not_emitted_nil : ¬Emitted [] := by
  intro h
  obtain ⟨hdr, -, hlen⟩ := h.whole
  have h8 : headerSize = 8 := rfl
  rw [List.length_nil] at hlen
  omega

end Emit

/-- **Packets frame themselves.** For every packet that is sent with the eight-byte header, by a context
after any calls or without one, and every context that receives it with this header, after any calls: with
whatever bytes behind it and in any buffer with room for it, it is decoded as it is alone, the statistics
apart; in a smaller buffer it is refused for this reason; and any part of it from its beginning is refused.
A refusal changes neither the context nor the buffer. And packets written one after another can be cut in one
way only. -/
theorem packets_framed :
    (∀ p dec, Emitted p → Reachable dec → dec.compactMode = false → ∃ size ≤ maxPacketSize,
      (∀ dst dstCap dstCap' dstSize trailing, size ≤ dstCap → size ≤ dstCap' →
        ∃ r s, decompress dec p dst dstCap dstSize = .ok r ∧
          decompress dec (p ++ trailing) dst dstCap' dstSize = .ok (r.withStats s) ∧
          ∀ d, decompressStateless d (p ++ trailing) dst dstCap' dstSize
            = decompressStateless d p dst dstCap dstSize) ∧
      (∀ dst dstCap dstSize trailing, dstCap < size →
        decompress dec (p ++ trailing) dst dstCap dstSize = .ok ⟨.errBufSmall, dst, dstSize, dec⟩) ∧
      ∀ dst dstCap dstSize n, n < p.length → ∃ code, code ≠ .ok ∧
        decompress dec (p.take n) dst dstCap dstSize = .ok ⟨code, dst, dstSize, dec⟩) ∧
    InformationTheory.UniquelyDecodable {p | Emitted p} := by
  refine ⟨fun p dec hp hdec hm => ?_, Prefix.uniquelyDecodable not_emitted_nil fun p hp q hq => hp.prefix_eq hq⟩
  obtain ⟨hdr, hwhole, hlen⟩ := hp.whole
  obtain ⟨hdr', hread, hsize, -⟩ := @hdrRead_ok p (by omega)
  rw [Except.ok.inj (hread.symm.trans hwhole.read)] at hsize
  have hmax : hdr.originalSize ≤ maxPacketSize := Nat.le_of_lt_succ hsize
  refine ⟨hdr.originalSize, hmax, fun dst dstCap dstCap' dstSize trailing hcap hcap' => ?_,
    fun dst dstCap dstSize trailing hcap => ?_, fun dst dstCap dstSize n hn => ?_⟩
  · obtain ⟨r, s, hr, hs⟩ := decompress_trailing hdec.wf hm hwhole trailing dst hcap hcap' dstSize
    exact ⟨r, s, hr, hs, fun d => decompressStateless_trailing d hwhole trailing dst hcap hcap' dstSize⟩
  · rw [decompress, hm, (hwhole.append trailing).validateHeader, if_pos hcap, Exc.ok_bind]
    rfl
  · obtain ⟨code, hcode, hv⟩ := validateHeader_cut (hp.not_whole_take hn) dstCap
    refine ⟨code, hcode, ?_⟩
    rw [decompress, hm, hv, Exc.ok_bind]
    rfl

/-- A packet with two bytes behind it. -/
theorem packets_framed_plain : ∃ p r s, Emitted p ∧
    decompress (newCtx none CfgFlag.stateful) p .empty 65535 0 = .ok r ∧
    decompress (newCtx none CfgFlag.stateful) (p ++ [9, 9]) .empty 65535 0 = .ok (r.withStats s) := by
  have hreach := @plain_reachable CfgFlag.stateful (by decide)
  have hcode : (compress (newCtx none CfgFlag.stateful) [1, 2, 3] .empty 64 0).code = .ok :=
    ((@smallTransfer_fits [1, 2, 3] (by decide)).sent _).code
  have hp := Emitted.context hreach rfl hcode
  obtain ⟨size, hsize, hroom, -⟩ := packets_framed.1 _ _ hp hreach rfl
  obtain ⟨r, s, hr, hs, -⟩ := hroom .empty 65535 65535 0 [9, 9] hsize hsize
  exact ⟨_, r, s, hp, hr, hs⟩

end Netc
