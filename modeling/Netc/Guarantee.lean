/-
# The passthrough guarantee

Whatever the packet and the history, the output of `netc_compress` and of
`netc_compress_stateless` is at most a header longer than the packet, if the buffer has
room for that much, and only a plain passthrough is as long. The sizes in
its header are the true ones.

Key definitions: `PlainPassthrough`, `SizesTrue`, `Guaranteed`.
Key theorems: `compress_guarantee`.
-/
import Netc.Stateless

namespace Netc

/-! ### The passthrough guarantee -/

/-- The output is a plain passthrough: a header and the packet. -/
def PlainPassthrough (compact : Bool) (src out : List UInt8) : Prop :=
  ∃ modelId seq, out = hdrEmit (passthruHeader modelId seq src.length) compact ++ src

/-- The sizes in the header of the output are the true ones. -/
def SizesTrue (compact : Bool) (src out : List UInt8) : Prop :=
  if compact then
    ∃ hdr, hdrReadCompact out = .ok (some (hdr, hdrSz true src.length)) ∧ hdr.originalSize = src.length
  else
    ∃ hdr, hdrRead out = .ok hdr ∧ hdr.originalSize = src.length ∧ headerSize + hdr.compressedSize = out.length

/-- The output is at most a header longer than the packet, and shorter than that
unless it is a passthrough; its header has the true sizes. -/
structure Guaranteed (compact : Bool) (src out : List UInt8) : Prop where
  le : out.length ≤ src.length + hdrSz compact src.length
  strict : ¬PlainPassthrough compact src out → out.length < src.length + hdrSz compact src.length
  sizes : SizesTrue compact src out

theorem sizesTrue_hdrEmit {compact : Bool} {src payload : List UInt8} {h : PktHeader}
    (hlen : src.length ≤ maxPacketSize) (hpay : payload.length ≤ maxPacketSize)
    (ho : h.originalSize = src.length % 2 ^ 16) (hc : h.compressedSize = payload.length % 2 ^ 16)
    (ht : TypeValid (compactTypeEncode h.flags h.algorithm)) :
    SizesTrue compact src (hdrEmit h compact ++ payload) := by
  have hmax : maxPacketSize = 65535 := rfl
  rw [Nat.mod_eq_of_lt (by omega)] at ho hc
  cases compact with
  | true =>
    have hread := hdrReadCompact_hdrWriteCompact (n := src.length) payload (by omega) ht
    simp only [SizesTrue, if_true, hdrEmit, ho]
    exact ⟨_, hread, rfl⟩
  | false =>
    simp only [SizesTrue, Bool.false_eq_true, if_false, hdrEmit]
    exact ⟨h, hdrRead_hdrWrite h payload (by omega) (by omega), ho, by simp [headerSize, hc]⟩

theorem wire_guaranteed {ctx : Ctx} {src : List UInt8} {dstCap : ℕ} (hlen : src.length ≤ maxPacketSize)
    {p : Option Packet} (hp : ∀ q, p = some q → Format ctx src dstCap q) :
    Guaranteed ctx.compactMode src (wire ctx src p) := by
  cases p with
  | none =>
    have hhdr := length_passthruHeader ctx.modelId ctx.contextSeq hlen ctx.compactMode
    refine ⟨?_, fun h => absurd ⟨_, _, rfl⟩ h, sizesTrue_hdrEmit hlen hlen rfl rfl passthru_typeValid⟩
    rw [wire, List.length_append, hhdr, Nat.add_comm]
  | some q =>
    have hf := hp q rfl
    have hlt := hf.lt
    have hhdr := length_exitHeader ctx q.exit hlen
    have hstrict : (wire ctx src (some q)).length < src.length + hdrSz ctx.compactMode src.length := by
      rw [wire, List.length_append, hhdr]
      omega
    exact ⟨hstrict.le, fun _ => hstrict, sizesTrue_hdrEmit hlen (by omega) rfl rfl hf.typeValid⟩

theorem compress_guarantee_of_wf {ctx : Ctx} (h : ctx.Wf) {src : List UInt8} (hlen : src.length ≤ maxPacketSize)
    (dst : Out) {dstCap : ℕ} (hcap : src.length + hdrSz ctx.compactMode src.length ≤ dstCap) (dstSize : ℕ) :
    (compress ctx src dst dstCap dstSize).code = .ok ∧ Guaranteed ctx.compactMode src
      ((compress ctx src dst dstCap dstSize).dst.read (compress ctx src dst dstCap dstSize).dstSize) := by
  have hmin : compactHdrMin ≤ hdrSz ctx.compactMode src.length := by
    simp only [hdrSz, compactHdrMin, compactHdrMax, headerSize]
    split
    · split <;> omega
    · omega
  rcases compress_cases ctx src dst dstCap dstSize with ⟨he, -⟩ | ⟨-, -, hs, -⟩ | ⟨-, -, hsent⟩
  · omega
  · omega
  · refine ⟨hsent.code, ?_⟩
    rw [hsent.bytes]
    exact wire_guaranteed hlen fun q hq => plan_format h hq

theorem compressStateless_guarantee {d : Dict} {src : List UInt8} (hlen : src.length ≤ maxPacketSize) (dst : Out)
    {dstCap : ℕ} (hcap : src.length + headerSize ≤ dstCap) (dstSize : ℕ) :
    (compressStateless d src dst dstCap dstSize).code = .ok ∧ Guaranteed false src
      ((compressStateless d src dst dstCap dstSize).dst.read (compressStateless d src dst dstCap dstSize).dstSize) := by
  obtain ⟨hcode, hbytes⟩ := compressStateless_sent (d := d) hlen hcap dst dstSize
  refine ⟨hcode, ?_⟩
  rw [hbytes]
  have h8 : hdrSz false src.length = 8 := rfl
  have htrue : ∀ {h : PktHeader} {payload : List UInt8}, payload.length ≤ maxPacketSize →
      h.originalSize = src.length % 2 ^ 16 → h.compressedSize = payload.length % 2 ^ 16 →
      SizesTrue false src (hdrWrite h ++ payload) := by
    intro h payload hpay ho hc
    have hmax : maxPacketSize = 65535 := rfl
    rw [Nat.mod_eq_of_lt (by omega)] at ho hc
    exact ⟨h, hdrRead_hdrWrite h payload (by omega) (by omega), ho, by simp [headerSize, hc]⟩
  cases hp : statelessPlan d src dstCap with
  | none =>
    refine ⟨?_, fun h => absurd ⟨_, _, rfl⟩ h, htrue hlen rfl rfl⟩
    rw [statelessWire, List.length_append, length_hdrWrite, h8, Nat.add_comm]
  | some p =>
    have hlt := (statelessPlan_format hp).lt
    have hstrict : (statelessWire d src (some p)).length < src.length + hdrSz false src.length := by
      rw [statelessWire, List.length_append, length_hdrWrite, h8]
      omega
    exact ⟨hstrict.le, fun _ => hstrict, htrue (by omega) rfl rfl⟩

/-- **The passthrough guarantee.** With room for the packet and a header of `h` bytes, compression
succeeds with an output of at most that size, a smaller one unless it is a plain passthrough, and with
the true sizes in its header; `h` is 8, or 2 or 4 in compact mode. -/
theorem compress_guarantee :
    (∀ ctx, Reachable ctx → ∀ src : List UInt8, src.length ≤ maxPacketSize → ∀ dst dstCap dstSize,
      src.length + (if ctx.compactMode then if src.length ≤ 127 then 2 else 4 else 8) ≤ dstCap →
      (compress ctx src dst dstCap dstSize).code = .ok ∧ Guaranteed ctx.compactMode src
        ((compress ctx src dst dstCap dstSize).dst.read (compress ctx src dst dstCap dstSize).dstSize)) ∧
    (∀ d, Trained d → ∀ src : List UInt8, src.length ≤ maxPacketSize → ∀ dst dstCap dstSize,
      src.length + 8 ≤ dstCap →
      (compressStateless d src dst dstCap dstSize).code = .ok ∧ Guaranteed false src
        ((compressStateless d src dst dstCap dstSize).dst.read
          (compressStateless d src dst dstCap dstSize).dstSize)) :=
  ⟨fun _ h _ hlen dst _ dstSize hcap => compress_guarantee_of_wf h.wf hlen dst hcap dstSize,
    fun _ _ _ hlen dst _ dstSize hcap => compressStateless_guarantee hlen dst hcap dstSize⟩

theorem compress_guarantee_plain :
    ((compress (newCtx none (CfgFlag.stateful ||| CfgFlag.compactHdr)) [1, 2, 3] .empty 5 0).code = .ok ∧
      Guaranteed true [1, 2, 3]
        ((compress (newCtx none (CfgFlag.stateful ||| CfgFlag.compactHdr)) [1, 2, 3] .empty 5 0).dst.read
        (compress (newCtx none (CfgFlag.stateful ||| CfgFlag.compactHdr)) [1, 2, 3] .empty 5 0).dstSize)) ∧
    ∃ d, dictTrain [] 1 = .ok d ∧ (compressStateless d [1, 2, 3] .empty 11 0).code = .ok ∧
      Guaranteed false [1, 2, 3]
        ((compressStateless d [1, 2, 3] .empty 11 0).dst.read (compressStateless d [1, 2, 3] .empty 11 0).dstSize) := by
  obtain ⟨d, hd⟩ := @dictTrain_ok [] 1 (by decide)
  exact ⟨compress_guarantee.1 _ (plain_reachable (by decide)) [1, 2, 3] (by decide) _ _ _ (by decide),
    d, hd, compress_guarantee.2 d ⟨[], 1, hd⟩ [1, 2, 3] (by decide) _ _ _ (by decide)⟩

end Netc
