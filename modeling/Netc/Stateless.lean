/-
# The stateless compressor

What `netc_compress_stateless` decides, without its buffer, and that its output is
that packet (`compressStateless_sent`). There is no history: the packet is filtered if it
is short enough, coded with tANS, and the result competes with LZ77.

Key definitions: `statelessPlan`, `statelessWire`, `StatelessFormat`.
Key theorems: `statelessBlocks_plan`, `compressStateless_sent`, `statelessPlan_format`.
-/
import Netc.CompressSpec

namespace Netc

/-! ### The plan -/

/-- A stateless packet in the LZ77 format. -/
def statelessLz77Packet (lz : List UInt8) : Packet := ⟨statelessLz77Flags, Alg.passthru, lz, true⟩

/-- A stateless packet in a tANS format. -/
def statelessTansPacket (didLzp : Bool) (payload : List UInt8) (info : TansInfo) : Packet :=
  ⟨statelessTansFlags info, statelessAlgorithm didLzp info, payload, false⟩

/-- The packet that leaves, if it is not sent as it is. -/
def statelessPlan (d : Dict) (src : List UInt8) (dstCap : ℕ) : Option Packet :=
  if 0 < src.length then
    match statelessTans d src dstCap with
    | some (payload, info) =>
      match statelessLz77 src dstCap payload.length with
      | some lz => some (statelessLz77Packet lz)
      | none => some (statelessTansPacket (statelessLzp d src.length).isSome payload info)
    | none =>
      match lz77Encode src (dstCap - headerSize) with
      | .ok lz => if headerSize + lz.length ≤ dstCap then some (statelessLz77Packet lz) else none
      | .error _ => none
  else none

/-- The header of a stateless packet. -/
def statelessHeader (d : Dict) (n : ℕ) (p : Packet) : PktHeader :=
  ⟨n % 2 ^ 16, p.payload.length % 2 ^ 16, p.flags, p.algorithm, d.modelId, 0⟩

/-- The packet on the wire. -/
def statelessWire (d : Dict) (src : List UInt8) : Option Packet → List UInt8
  | some p => hdrWrite (statelessHeader d src.length p) ++ p.payload
  | none => hdrWrite (passthruHeader d.modelId 0 src.length) ++ src

/-- The return that sends packet `p` from buffer `dst`. -/
def statelessReturn (d : Dict) (n : ℕ) (dst : Out) (p : Packet) : StatelessRet :=
  statelessFinish d n dst p.flags p.algorithm p.payload.length

section Plan

variable {d : Dict} {src : List UInt8} {dstCap : ℕ}

theorem statelessTans_eq {payload : List UInt8} {info : TansInfo}
    (h : statelessTans d src dstCap = some (payload, info)) :
    (tryTansCompress d d.tables (statelessSrc d src) (dstCap - headerSize) 0 false).result = some (payload, info) ∧
      payload.length < src.length := by
  rw [statelessTans] at h
  split at h
  · next q info' hq =>
    split at h
    · next hlt =>
      obtain ⟨rfl, rfl⟩ := Prod.mk.inj (Option.some.inj h)
      exact ⟨hq, hlt⟩
    · cases h
  · cases h

/-- **The blocks of the stateless compressor go as planned.** -/
theorem statelessBlocks_plan (h0 : 0 < src.length) (dst : Out) :
    match statelessPlan d src dstCap with
    | some p => ∃ dst', ByteMem.slice dst'.byte headerSize p.payload.length = p.payload ∧
        (statelessBlocks d src dst dstCap).2 = some (statelessReturn d src.length dst' p)
    | none => (statelessBlocks d src dst dstCap).2 = none := by
  simp only [statelessPlan, if_pos h0, statelessBlocks]
  rcases ht : statelessTans d src dstCap with _ | ⟨payload, info⟩
  · simp only
    cases hr : lz77Encode src (dstCap - headerSize) with
    | error e => rfl
    | ok lz =>
      simp only
      by_cases hfit : headerSize + lz.length ≤ dstCap
      · simp only [if_pos hfit]
        exact ⟨_, ByteMem.slice_write_self _ _ _, rfl⟩
      · simp only [if_neg hfit]
  · obtain ⟨hres, -⟩ := statelessTans_eq ht
    simp only
    cases statelessLz77 src dstCap payload.length with
    | some lz => exact ⟨_, ByteMem.slice_write_self _ _ _, rfl⟩
    | none =>
      refine ⟨_, ?_, rfl⟩
      simp only [statelessTansPacket, Out.apply, hres]
      exact ByteMem.slice_write_self _ _ _

/-- **The stateless compressor sends the planned packet**, or the packet as it is if there is room for that. -/
theorem compressStateless_sent (hlen : src.length ≤ maxPacketSize) (hcap : src.length + headerSize ≤ dstCap) (dst : Out)
    (dstSize : ℕ) : (compressStateless d src dst dstCap dstSize).code = .ok ∧
      (compressStateless d src dst dstCap dstSize).dst.read (compressStateless d src dst dstCap dstSize).dstSize
        = statelessWire d src (statelessPlan d src dstCap) := by
  have h8 : headerSize = 8 := rfl
  simp only [compressStateless, if_neg (not_lt.mpr hlen), if_neg (show ¬dstCap < headerSize by omega)]
  have hpass : ∀ dst : Out, (statelessEnd d src dstCap dstSize (dst, none)).code = .ok ∧
      (statelessEnd d src dstCap dstSize (dst, none)).dst.read (statelessEnd d src dstCap dstSize (dst, none)).dstSize
        = statelessWire d src none := by
    intro dst
    have hhdr : (hdrEmit (passthruHeader d.modelId 0 src.length) false).length = headerSize :=
      length_passthruHeader d.modelId 0 hlen false
    simp only [statelessEnd, emitPassthrough, hhdr, if_neg (show ¬dstCap < headerSize + src.length by omega),
      if_true, true_and]
    rw [statelessWire, Out.read, Out.write_byte, ByteMem.slice_add, Nat.zero_add,
      ByteMem.slice_write_of_le (by omega), Out.write_byte, ByteMem.slice_write_eq _ _ hhdr, ByteMem.slice_write_self]
    rfl
  by_cases h0 : 0 < src.length
  · simp only [if_pos h0]
    have hb := @statelessBlocks_plan d _ dstCap h0 dst
    rcases hblock : statelessBlocks d src dst dstCap with ⟨dst', r⟩
    rw [hblock] at hb
    cases hp : statelessPlan d src dstCap with
    | none =>
      rw [hp] at hb
      simp only at hb
      subst hb
      exact hpass dst'
    | some p =>
      rw [hp] at hb
      obtain ⟨dst'', hslice, hret⟩ := hb
      simp only at hret
      subst hret
      refine ⟨rfl, ?_⟩
      simp only [statelessEnd, statelessReturn, statelessFinish]
      exact read_header (by simp [headerSize]) hslice
  · have hp : statelessPlan d src dstCap = none := by rw [statelessPlan, if_neg h0]
    simp only [if_neg h0, hp]
    exact hpass dst

/-! ### Formats -/

/-- The formats a stateless packet can leave in. -/
inductive StatelessFormat (d : Dict) (src : List UInt8) : Packet → Prop
  | lz77 {cap : ℕ} {lz : List UInt8} (h : lz77Encode src cap = .ok lz) : StatelessFormat d src (statelessLz77Packet lz)
  | tans {payload : List UInt8} {info : TansInfo} (hne : src.length ≠ 0) (hlt : payload.length < src.length)
      (h : Coded d d.tables (statelessSrc d src) 0 false payload info) :
      StatelessFormat d src (statelessTansPacket (statelessLzp d src.length).isSome payload info)

theorem length_statelessSrc (d : Dict) (src : List UInt8) : (statelessSrc d src).length = src.length := by
  rw [statelessSrc]
  split <;> simp

theorem statelessPlan_format {p : Packet} (h : statelessPlan d src dstCap = some p) : StatelessFormat d src p := by
  rw [statelessPlan] at h
  split at h
  · next h0 =>
    split at h
    · next payload info ht =>
      obtain ⟨hres, hlt⟩ := statelessTans_eq ht
      split at h
      · next lz hlz =>
        obtain rfl := Option.some.inj h
        rw [statelessLz77] at hlz
        split at hlz
        · split at hlz
          · next lz' hok =>
            split at hlz
            · obtain rfl := Option.some.inj hlz
              exact .lz77 hok
            · cases hlz
          · cases hlz
        · cases hlz
      · obtain rfl := Option.some.inj h
        exact .tans (by omega) hlt (tryTansCompress_coded hres).1
    · split at h
      · next lz hok =>
        split at h
        · obtain rfl := Option.some.inj h
          exact .lz77 hok
        · cases h
      · cases h
  · cases h

theorem StatelessFormat.lt {p : Packet} (h : StatelessFormat d src p) : p.payload.length < src.length := by
  cases h with
  | lz77 h => exact lz77Encode_lt h
  | tans hne hlt h => exact hlt

end Plan

end Netc
