/-
# Compression

`netc_compress` and `netc_compress_stateless` of `netc_compress.c`. The
packet is turned into residuals or filtered in the arena, coded with tANS into
the caller's buffer, and the result competes with other formats, whose trials
use the same arena and the same buffer; what is left when a format wins is
sent. Both buffers are memory here: `compress_src` is a pointer to the packet
or to the arena, followed where it is used, and failed trials leave what they
wrote.

Key definitions: `prepass`, `tansBlock`, `rawFallback`, `lz77Block`, `compress`,
`compressStateless`.
-/
import Netc.Header
import Netc.Ctx
import Netc.TansCompress

namespace Netc

/-! ### Pre-passes -/

/-- What stands in the arena and what `compress_src` points to. -/
structure Prep where
  arena : Block
  inArena : Bool
  pktFlags : UInt8
  didDelta : Bool
  didLzp : Bool

/-- The bytes at `compress_src`. -/
def followSrc (inArena : Bool) (arena : Block) (src : List UInt8) : List UInt8 :=
  if inArena then ByteMem.slice arena.byte 0 src.length else src

/-- `ctx->prev_pkt` as memory. It is there whenever a packet size is recorded. -/
def Ctx.prevByte (ctx : Ctx) : ℕ → UInt8 :=
  match ctx.prevPkt with
  | some p => p.byte
  | none => fun _ => 0

/-- The number of zero bytes. -/
def zeros (l : List UInt8) : ℕ := l.count 0

/-- The conditions of the delta pre-pass. -/
def wantsDelta (ctx : Ctx) (srcSize : ℕ) : Bool :=
  CfgFlag.has ctx.flags CfgFlag.delta && decide (ctx.prevPktSize = srcSize) && decide (deltaMinSize ≤ srcSize) &&
    decide (srcSize ≤ ctx.arena.size)

/-- The order-2 trial: its residuals, if the packet before the previous one has
the same size and they have more zeros than those of order 1. -/
def order2Trial (ctx : Ctx) (src : List UInt8) : Option (List UInt8) :=
  match ctx.prev2Pkt with
  | none => none
  | some prev2 =>
    if ctx.prev2PktSize = src.length then
      let o1 := deltaEncode ctx.prevByte src
      let o2 := deltaEncodeOrder2 prev2.byte ctx.prevByte src
      if zeros o1 < zeros o2 then some o2 else none
    else none

/-- The delta pre-pass and, if it was not made, the LZP filter. -/
def prepass (ctx : Ctx) (src : List UInt8) : Prep :=
  if wantsDelta ctx src.length then
    let arena : Block :=
      ⟨ctx.arena.size, bulkEncode ctx.simdOps ctx.prevByte (fun i => src.getD i 0) ctx.arena.byte src.length⟩
    match order2Trial ctx src with
    | some o2 => ⟨arena.write 0 o2, true, PktFlag.dictId ||| PktFlag.delta ||| PktFlag.rle, true, false⟩
    | none => ⟨arena, true, PktFlag.dictId ||| PktFlag.delta, true, false⟩
  else
    match ctx.dict, ctx.getLzpTable with
    | some _, some lzp =>
      if src.length ≤ ctx.arena.size then
        ⟨ctx.arena.write 0 (lzpXorFilter lzp src), true, PktFlag.dictId, false, true⟩
      else ⟨ctx.arena, false, PktFlag.dictId, false, false⟩
    | _, _ => ⟨ctx.arena, false, PktFlag.dictId, false, false⟩

/-! ### The competition after a tANS success -/

/-- How a packet leaves: the flags and algorithm of its header, the size of the
payload that stands in the buffer, and whether it counts as a passthrough. -/
structure Exit where
  flags : UInt8
  algorithm : UInt8
  size : ℕ
  passthru : Bool
  deriving DecidableEq, Repr

/-- How a tANS payload was made, and what it was made from. -/
structure Choice where
  info : TansInfo
  used10 : Bool
  pktFlags : UInt8
  didDelta : Bool
  didLzp : Bool
  tansFlags : UInt32

/-- The variables of the tANS block: the two buffers, and the size of the
payload in `dst`. -/
structure Work extends Choice where
  dst : Out
  arena : Block
  size : ℕ

/-- What one call of `netc_compress` works on. -/
structure Job where
  ctx : Ctx
  dict : Dict
  src : List UInt8
  dstCap : ℕ

namespace Job

variable (j : Job)

def compact : Bool := j.ctx.compactMode

/-- `hdr_sz` -/
def hdrSize : ℕ := hdrSz j.compact j.src.length

/-- `payload_cap` -/
def payloadCap : ℕ := subSize j.dstCap j.hdrSize

/-- The room of the bit writers that are given `payload_cap`: they end at `dst + dst_cap`, which a
`payload_cap` that has wrapped puts before the payload (`bswInitAt_subSize`). Such a value passes the
checks of the encoders, which then fail at their first store (`closeStream_noRoom`). -/
def payloadRoom : ℕ := j.dstCap - j.hdrSize

def tables : ℕ → Table := j.ctx.getTables j.dict

def fast : Bool := CfgFlag.has j.ctx.flags CfgFlag.fastCompress

/-- The flags of the LZP trial, of which the trial's result keeps the use. -/
def lzpFlags : UInt32 :=
  (j.ctx.flags &&& ~~~CfgFlag.delta) ||| (if j.compact then CfgFlag.noX2 else 0) ||| CfgFlag.skipSr

/-- Whether delta, with a payload of `size` bytes, competes with LZP alone. -/
def triesLzp (didDelta : Bool) (size : ℕ) : Bool :=
  didDelta && decide (j.src.length ≤ 512) && !j.fast &&
    (decide (j.src.length ≤ 256) || decide (j.src.length / 2 ≤ size))

/-- The trial's result, taken in the place of the residuals'. -/
def lzpChoice (c : Choice) (info : TansInfo) : Choice :=
  { c with
    info
    pktFlags := c.pktFlags &&& ~~~(PktFlag.delta ||| PktFlag.rle)
    didDelta := false
    didLzp := true
    tansFlags := j.lzpFlags }

/-- The LZP trial, in stack buffers. -/
def lzpTrial (w : Work) : Work :=
  match j.ctx.getLzpTable with
  | none => w
  | some lzp =>
    if j.triesLzp w.didDelta w.size then
      match (tryTansCompress j.dict j.tables (lzpXorFilter lzp j.src) trialBufSize j.lzpFlags j.compact).result with
      | some (p, info) =>
        if p.length < w.size then
          { j.lzpChoice w.toChoice info with dst := w.dst.write j.hdrSize p, arena := w.arena, size := p.length }
        else w
      | none => w
    else w

end Job

/-- Whether a fifth byte value shows up, `seen` having been seen. -/
def diverseFrom : List UInt8 → List UInt8 → Bool
  | [], _ => false
  | b :: l, seen =>
    if b ∈ seen then diverseFrom l seen
    else if 4 ≤ seen.length then true
    else diverseFrom l (b :: seen)

/-- More than four byte values among the first 32. -/
def diverse (l : List UInt8) : Bool := diverseFrom (l.take 32) []

/-- An LZ77 exit. -/
def lz77Exit (pktFlags : UInt8) (size : ℕ) : Exit :=
  ⟨pktFlags ||| PktFlag.lz77 ||| PktFlag.passthru, Alg.passthru, size, true⟩

namespace Job

variable (j : Job)

/-- `lz77_min` -/
def lz77Min : ℕ := if j.fast then 512 else 256

/-- An LZ77 result that beats a payload of `size` bytes. -/
def lz77Wins (size : ℕ) (r : Except (List UInt8) (List UInt8)) : Option (List UInt8) :=
  match r with
  | .ok lz => if lz.length < size ∧ lz.length < j.src.length ∧ j.hdrSize + lz.length ≤ j.dstCap then some lz else none
  | .error _ => none

/-- Whether LZ77 competes with a payload of `size` bytes. -/
def wantsLz77 (size : ℕ) : Bool := decide (j.lz77Min ≤ j.src.length) && decide (j.src.length < size * 2)

/-- Case A: LZ77 of the packet into the arena. -/
def lz77CaseA (w : Work) : Work × Option Exit :=
  let r := lz77Encode j.src w.arena.size
  let w := { w with arena := w.arena.write 0 (written r) }
  match j.lz77Wins w.size r with
  | some lz => ({ w with dst := w.dst.write j.hdrSize (ByteMem.slice w.arena.byte 0 lz.length) },
      some (lz77Exit w.pktFlags lz.length))
  | none => (w, none)

/-- Case B: LZ77 of the residuals into the buffer, over the tANS payload, which
is saved and put back if it wins. -/
def lz77CaseB (w : Work) (residuals : List UInt8) : Work × Option Exit :=
  let saved := ByteMem.slice w.dst.byte j.hdrSize w.size
  let r := lz77Encode residuals j.payloadCap
  let dst := w.dst.write j.hdrSize (written r)
  match j.lz77Wins w.size r with
  | some lz => ({ w with dst }, some (lz77Exit w.pktFlags lz.length))
  | none => ({ w with dst := dst.write j.hdrSize saved }, none)

/-- The competition with LZ77. -/
def lz77Compete (inArena : Bool) (w : Work) : Work × Option Exit :=
  if j.wantsLz77 w.size then
    if !w.didDelta && decide (j.src.length ≤ w.arena.size) then j.lz77CaseA w
    else if w.didDelta && decide (j.src.length ≤ 1024) && !PktFlag.has w.pktFlags PktFlag.rle then
      let residuals := followSrc inArena w.arena j.src
      if diverse residuals then (w, none) else j.lz77CaseB w residuals
    else (w, none)
  else (w, none)

end Job

/-- The bytes of the first 32 in which the packet equals the previous one. -/
def prevMatches (ctx : Ctx) (src : List UInt8) : ℕ :=
  ((List.range (min src.length 32)).filter fun q => src.getD q 0 = ctx.prevByte q).length

/-- `try_lzx` against a payload of `size` bytes. -/
def tryLzx (ctx : Ctx) (src : List UInt8) (size : ℕ) : Bool :=
  decide (src.length < size * 2) ||
    (ctx.prevPkt.isSome && decide (ctx.prevPktSize = src.length) &&
      decide (min src.length 32 ≤ prevMatches ctx src * 2)) ||
    !diverse src

namespace Job

variable (j : Job)

/-- Whether cross-packet LZ77 competes with a payload of `size` bytes. -/
def wantsLzx (arenaSize size : ℕ) : Bool :=
  j.ctx.hasRing && decide (0 < j.ctx.prevPktSize) && decide (64 ≤ j.src.length) &&
    decide (j.src.length ≤ arenaSize) && tryLzx j.ctx j.src size

/-- The competition with cross-packet LZ77, encoded into the arena. -/
def lzxCompete (w : Work) : Work × Option Exit :=
  if j.wantsLzx w.arena.size w.size then
    let r := lz77xEncode j.src j.ctx.ring j.ctx.ringPos j.ctx.prevPktSize w.arena.size
    let w := { w with arena := w.arena.write 0 (written r) }
    match j.lz77Wins w.size r with
    | some lz => ({ w with dst := w.dst.write j.hdrSize (ByteMem.slice w.arena.byte 0 lz.length) },
        some ⟨PktFlag.dictId, Alg.lz77x, lz.length, false⟩)
    | none => (w, none)
  else (w, none)

/-- Whether a 10-bit table competes. -/
def wants10 (c : Choice) : Bool :=
  decide (j.src.length ≤ 128) && decide (c.info.mreg = 0) && !c.didLzp &&
    !CfgFlag.has c.tansFlags CfgFlag.bigram && j.compact

/-- The payload a 10-bit table gives for `bytes`, if it has fewer than `size`
bytes; the trial has a stack buffer of 136 bytes. -/
def tans10Trial (tblIdx : ℕ) (bytes : List UInt8) (size : ℕ) : Option (List UInt8) :=
  match table10 (j.tables tblIdx) with
  | none => none
  | some tbl10 =>
    match (tans10bitWithTable tbl10 bytes 136).result with
    | some (p, _) => if p.length < size then some p else none
    | none => none

/-- The competition with a 10-bit table. -/
def tans10Compete (inArena : Bool) (w : Work) : Work :=
  if j.wants10 w.toChoice then
    match j.tans10Trial w.info.tblIdx (followSrc inArena w.arena j.src) w.size with
    | some p => { w with
        dst := w.dst.write j.hdrSize p
        size := p.length
        used10 := true
        info := { w.info with x2 := false } }
    | none => w
  else w

end Job

/-- The algorithm byte of a tANS packet. -/
def tansAlgorithm (c : Choice) : UInt8 :=
  let bucket := UInt8.ofNat c.info.tblIdx <<< 4
  if c.used10 then Alg.tans10 ||| bucket
  else if c.didLzp then
    if c.info.mreg = 2 ∨ c.info.mreg = 3 then Alg.tansPctx ||| 0x10
    else Alg.lzp ||| (if c.info.mreg = 0 then bucket else 0)
  else if c.info.mreg = 2 ∨ c.info.mreg = 3 then Alg.tansPctx
  else Alg.tans ||| (if c.info.mreg = 0 then bucket else 0)

/-- The flags of a tANS packet. -/
def tansPktFlags (c : Choice) : UInt8 :=
  let bigramActive := decide (c.info.mreg = 3) ||
    (decide (c.info.mreg ≤ 1) && CfgFlag.has c.tansFlags CfgFlag.bigram)
  c.pktFlags ||| ((if c.info.mreg = 1 then PktFlag.mreg else 0) ||| (if c.info.x2 then PktFlag.x2 else 0) |||
    (if bigramActive then PktFlag.bigram else 0))

/-- A tANS exit. -/
def tansExit (w : Work) : Exit := ⟨tansPktFlags w.toChoice, tansAlgorithm w.toChoice, w.size, false⟩

/-- The buffers after a block, and the exit it took, if it took one. -/
structure Blocked where
  dst : Out
  arena : Block
  exit : Option Exit

namespace Job

variable (j : Job)

/-- `tans_ctx_flags` -/
def tansCtxFlags (didDelta didLzp : Bool) : UInt32 :=
  j.ctx.flags ||| (if didLzp && j.compact then CfgFlag.noX2 else 0) |||
    (if didDelta || didLzp || j.fast then CfgFlag.skipSr else 0)

/-- The end of a competition: the 10-bit trial, then the tANS packet leaves. -/
def tansEnd (inArena : Bool) (w : Work) : Blocked :=
  let w := j.tans10Compete inArena w
  ⟨w.dst, w.arena, some (tansExit w)⟩

/-- The competition with cross-packet LZ77 and what follows it. -/
def lzxThenEnd (inArena : Bool) (w : Work) : Blocked :=
  match j.lzxCompete w with
  | (w, some e) => ⟨w.dst, w.arena, some e⟩
  | (w, none) => j.tansEnd inArena w

/-- The whole competition. -/
def competition (inArena : Bool) (w : Work) : Blocked :=
  match j.lz77Compete inArena (j.lzpTrial w) with
  | (w, some e) => ⟨w.dst, w.arena, some e⟩
  | (w, none) => j.lzxThenEnd inArena w

/-- The tANS block, for a packet that is not empty. -/
def tansBlock (p : Prep) (dst : Out) : Blocked :=
  let flags := j.tansCtxFlags p.didDelta p.didLzp
  let a := tryTansCompress j.dict j.tables (followSrc p.inArena p.arena j.src) j.payloadRoom flags j.compact
  let dst := dst.apply j.hdrSize a
  match a.result with
  | some (payload, info) =>
    if payload.length < j.src.length then
      j.competition p.inArena
        ⟨⟨info, false, p.pktFlags, p.didDelta, p.didLzp, flags⟩, dst, p.arena, payload.length⟩
    else ⟨dst, p.arena, none⟩
  | none => ⟨dst, p.arena, none⟩

/-- `raw_ctx_flags` -/
def rawFlags (didLzp : Bool) : UInt32 :=
  (j.ctx.flags &&& ~~~CfgFlag.delta) ||| (if didLzp && j.compact then CfgFlag.noX2 else 0)

/-- The LZP table of the raw fallback. -/
def rawLzp (arena : Block) : Option LzpTable := if j.src.length ≤ arena.size then j.ctx.getLzpTable else none

/-- The arena of the raw fallback, in which its filter overwrites the residuals. -/
def rawArena (arena : Block) : Block :=
  match j.rawLzp arena with
  | some lzp => arena.write 0 (lzpXorFilter lzp j.src)
  | none => arena

/-- The raw fallback: tANS of the packet itself where that of its residuals failed. -/
def rawFallback (arena : Block) (dst : Out) : Blocked :=
  let lzp := j.rawLzp arena
  let arena := j.rawArena arena
  let flags := j.rawFlags lzp.isSome
  let a := tryTansCompress j.dict j.tables (followSrc lzp.isSome arena j.src) j.payloadRoom flags j.compact
  let dst := dst.apply j.hdrSize a
  match a.result with
  | some (payload, info) =>
    if payload.length < j.src.length then
      j.lzxThenEnd lzp.isSome
        ⟨⟨info, false, PktFlag.dictId, false, lzp.isSome, flags⟩, dst, arena, payload.length⟩
    else ⟨dst, arena, none⟩
  | none => ⟨dst, arena, none⟩

/-- Both tANS blocks. -/
def tansBlocks (p : Prep) (dst : Out) : Blocked :=
  let b := j.tansBlock p dst
  if b.exit.isNone && p.didDelta then j.rawFallback b.arena b.dst else b

end Job

/-! ### Without tANS -/

/-- The arena guard: after the raw fallback has filtered the packet into the
arena, the residuals are gone. -/
def arenaGuard (ctx : Ctx) (srcSize : ℕ) (p : Prep) : Prep :=
  if p.didDelta && ctx.dict.isSome && ctx.getLzpTable.isSome && decide (srcSize ≤ ctx.arena.size) then
    { p with inArena := false, pktFlags := p.pktFlags &&& ~~~(PktFlag.delta ||| PktFlag.rle), didDelta := false }
  else p

/-- The LZ77 path: within the packet, then across packets. -/
def lz77Block (ctx : Ctx) (src : List UInt8) (dstCap : ℕ) (p : Prep) (dst : Out) : Out × Option Exit :=
  let hdr := hdrSz ctx.compactMode src.length
  if 0 < src.length ∧ hdr < dstCap then
    let outCap := dstCap - hdr
    let lz77Src := if p.didLzp then src else followSrc p.inArena p.arena src
    let r := lz77Encode lz77Src outCap
    let dst := dst.write hdr (written r)
    match r with
    | .ok lz => (dst, some (lz77Exit p.pktFlags lz.length))
    | .error _ =>
      if decide (64 ≤ src.length) && ctx.hasRing && decide (0 < ctx.prevPktSize) then
        let r := lz77xEncode src ctx.ring ctx.ringPos ctx.prevPktSize outCap
        let dst := dst.write hdr (written r)
        match r with
        | .ok lz => (dst, some ⟨PktFlag.dictId, Alg.lz77x, lz.length, true⟩)
        | .error _ => (dst, none)
      else (dst, none)
  else (dst, none)

/-- Everything before the passthrough: the buffers and the exit taken. -/
def compressBlocks (ctx : Ctx) (src : List UInt8) (dst : Out) (dstCap : ℕ) : Blocked :=
  let p := prepass ctx src
  let b : Blocked :=
    match ctx.dict with
    | some d => if 0 < src.length then Job.tansBlocks ⟨ctx, d, src, dstCap⟩ p dst else ⟨dst, p.arena, none⟩
    | none => ⟨dst, p.arena, none⟩
  match b.exit with
  | some e => ⟨b.dst, b.arena, some e⟩
  | none =>
    let l := lz77Block ctx src dstCap (arenaGuard ctx src.length { p with arena := b.arena }) b.dst
    ⟨l.1, b.arena, l.2⟩

/-! ### The call -/

/-- What a call of `netc_compress` leaves: its return code, the caller's
buffer, `*dst_size` and the context. -/
structure CompressRet where
  code : Result
  dst : Out
  dstSize : ℕ
  ctx : Ctx

/-- The header of a packet of `n` bytes that leaves through an exit. -/
def exitHeader (ctx : Ctx) (n : ℕ) (e : Exit) : PktHeader :=
  ⟨n % 2 ^ 16, e.size % 2 ^ 16, e.flags, e.algorithm, ctx.modelId, ctx.contextSeq⟩

/-- The statistics of a compressed packet. -/
def countCompressed (srcSize outSize : ℕ) (passthru : Bool) (s : Stats) : Stats :=
  { s with
    packetsCompressed := (s.packetsCompressed + 1) % 2 ^ 64
    bytesIn := (s.bytesIn + srcSize) % 2 ^ 64
    bytesOut := (s.bytesOut + outSize) % 2 ^ 64
    passthroughCount := if passthru then (s.passthroughCount + 1) % 2 ^ 64 else s.passthroughCount }

/-- The end of every exit but the passthrough: the header is put in front of
the payload, and the history takes the packet in. -/
def exitFinish (ctx : Ctx) (src : List UInt8) (b : Blocked) (e : Exit) : CompressRet :=
  let outSize := hdrSz ctx.compactMode src.length + e.size
  let ctx' := { ctx with contextSeq := ctx.contextSeq + 1, arena := b.arena }
  let ctx' := (ctx'.appendRing src).updatePrev src
  let ctx' := (ctx'.tally (countCompressed src.length outSize e.passthru)).learn src
  ⟨.ok, b.dst.write 0 (hdrEmit (exitHeader ctx src.length e) ctx.compactMode), outSize, ctx'⟩

/-- The header of `emit_passthrough`. -/
def passthruHeader (modelId contextSeq : UInt8) (srcSize : ℕ) : PktHeader :=
  ⟨srcSize % 2 ^ 16, srcSize % 2 ^ 16, PktFlag.passthru ||| PktFlag.dictId, Alg.passthru, modelId, contextSeq⟩

/-- `emit_passthrough` to a buffer: the code, the buffer and the output size. The
header is written before the capacity is checked. -/
def emitPassthrough (modelId contextSeq : UInt8) (src : List UInt8) (dst : Out) (dstCap : ℕ) (compact : Bool) :
    Result × Out × ℕ :=
  let hdr := hdrEmit (passthruHeader modelId contextSeq src.length) compact
  let dst := dst.write 0 hdr
  let outSize := hdr.length + src.length
  if dstCap < outSize then (.errBufSmall, dst, outSize) else (.ok, dst.write hdr.length src, outSize)

/-- The passthrough exit: the history takes the packet in before the capacity
is checked. -/
def passthruFinish (ctx : Ctx) (src : List UInt8) (b : Blocked) (dstCap dstSize : ℕ) : CompressRet :=
  let ctx' := { ctx with contextSeq := ctx.contextSeq + 1, arena := b.arena }
  let ctx' := (ctx'.updatePrev src).appendRing src
  let r := emitPassthrough ctx.modelId ctx.contextSeq src b.dst dstCap ctx.compactMode
  if r.1 = .ok then ⟨.ok, r.2.1, r.2.2, (ctx'.tally (countCompressed src.length r.2.2 true)).learn src⟩
  else ⟨r.1, r.2.1, dstSize, ctx'⟩

/-- `netc_compress` -/
def compress (ctx : Ctx) (src : List UInt8) (dst : Out) (dstCap dstSize : ℕ) : CompressRet :=
  if maxPacketSize < src.length then ⟨.errTooBig, dst, dstSize, ctx⟩
  else if dstCap < compactHdrMin then ⟨.errBufSmall, dst, dstSize, ctx⟩
  else
    let b := compressBlocks ctx src dst dstCap
    match b.exit with
    | some e => exitFinish ctx src b e
    | none => passthruFinish ctx src b dstCap dstSize

/-! ### The stateless path -/

/-- A stateless exit: the header is put in front of the payload. -/
def statelessFinish (d : Dict) (srcSize : ℕ) (dst : Out) (flags algorithm : UInt8) (size : ℕ) : StatelessRet :=
  ⟨.ok, dst.write 0 (hdrWrite ⟨srcSize % 2 ^ 16, size % 2 ^ 16, flags, algorithm, d.modelId, 0⟩), headerSize + size⟩

/-- The flags of a stateless LZ77 packet. -/
def statelessLz77Flags : UInt8 := PktFlag.dictId ||| PktFlag.lz77 ||| PktFlag.passthru

/-- The LZ77 result that beats a tANS payload of `size` bytes, in a stack buffer of 1024. -/
def statelessLz77 (src : List UInt8) (dstCap size : ℕ) : Option (List UInt8) :=
  if src.length < size * 2 ∧ src.length ≤ 1024 then
    match lz77Encode src 1024 with
    | .ok lz => if lz.length < size ∧ lz.length < src.length ∧ headerSize + lz.length ≤ dstCap then some lz else none
    | .error _ => none
  else none

/-- The algorithm byte of a stateless tANS packet. -/
def statelessAlgorithm (didLzp : Bool) (info : TansInfo) : UInt8 :=
  let bucket := if info.mreg = 0 then UInt8.ofNat info.tblIdx <<< 4 else 0
  if didLzp then if info.mreg = 2 then Alg.tansPctx ||| 0x10 else Alg.lzp ||| bucket
  else if info.mreg = 2 then Alg.tansPctx
  else Alg.tans ||| bucket

/-- The flags of a stateless tANS packet. -/
def statelessTansFlags (info : TansInfo) : UInt8 :=
  PktFlag.dictId ||| ((if info.mreg = 1 then PktFlag.mreg else 0) ||| (if info.x2 then PktFlag.x2 else 0))

/-- The LZP table of the stateless path, whose filter has a stack buffer of 1024 bytes. -/
def statelessLzp (d : Dict) (srcSize : ℕ) : Option LzpTable := if srcSize ≤ 1024 then d.lzpTable else none

/-- What the stateless path codes. -/
def statelessSrc (d : Dict) (src : List UInt8) : List UInt8 :=
  match statelessLzp d src.length with
  | some lzp => lzpXorFilter lzp src
  | none => src

/-- The tANS result of the stateless path, if it is shorter than the packet. -/
def statelessTans (d : Dict) (src : List UInt8) (dstCap : ℕ) : Option (List UInt8 × TansInfo) :=
  match (tryTansCompress d d.tables (statelessSrc d src) (dstCap - headerSize) 0 false).result with
  | some (payload, info) => if payload.length < src.length then some (payload, info) else none
  | none => none

/-- `netc_compress_stateless` for a packet that is not empty, up to the passthrough:
the buffer, and the return if there is one. -/
def statelessBlocks (d : Dict) (src : List UInt8) (dst : Out) (dstCap : ℕ) : Out × Option StatelessRet :=
  let dst := dst.apply headerSize
    (tryTansCompress d d.tables (statelessSrc d src) (dstCap - headerSize) 0 false)
  match statelessTans d src dstCap with
  | some (payload, info) =>
    match statelessLz77 src dstCap payload.length with
    | some lz =>
      let dst := dst.write headerSize lz
      (dst, some (statelessFinish d src.length dst statelessLz77Flags Alg.passthru lz.length))
    | none =>
      (dst, some (statelessFinish d src.length dst (statelessTansFlags info)
        (statelessAlgorithm (statelessLzp d src.length).isSome info) payload.length))
  | none =>
    let r := lz77Encode src (dstCap - headerSize)
    let dst := dst.write headerSize (written r)
    match r with
    | .ok lz =>
      if headerSize + lz.length ≤ dstCap then
        (dst, some (statelessFinish d src.length dst statelessLz77Flags Alg.passthru lz.length))
      else (dst, none)
    | .error _ => (dst, none)

/-- The end of `netc_compress_stateless`: a passthrough if no format was accepted. -/
def statelessEnd (d : Dict) (src : List UInt8) (dstCap dstSize : ℕ) (b : Out × Option StatelessRet) : StatelessRet :=
  match b.2 with
  | some r => r
  | none =>
    let r := emitPassthrough d.modelId 0 src b.1 dstCap false
    ⟨r.1, r.2.1, if r.1 = .ok then r.2.2 else dstSize⟩

/-- `netc_compress_stateless` -/
def compressStateless (d : Dict) (src : List UInt8) (dst : Out) (dstCap dstSize : ℕ) : StatelessRet :=
  if maxPacketSize < src.length then ⟨.errTooBig, dst, dstSize⟩
  else if dstCap < headerSize then ⟨.errBufSmall, dst, dstSize⟩
  else statelessEnd d src dstCap dstSize (if 0 < src.length then statelessBlocks d src dst dstCap else (dst, none))

end Netc
