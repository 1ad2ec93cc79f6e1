/-
# Decompression

`netc_decompress` and `netc_decompress_stateless` of `netc_decompress.c`. A
packet is read in three steps: the header is validated, the payload is decoded
into the caller's buffer by the algorithm its header names, and the announced
transforms are undone there; then the history takes the packet in. Every load
is checked against the object it reads, and the buffer records how far it was
written; return codes are values, so that what a failed call leaves behind is
there to be seen.

Key definitions: `validateHeader`, `decodeTans`, `decodePayload`, `undoTransforms`,
`decompress`, `decompressStateless`.
-/
import Netc.Header
import Netc.Ctx
import Netc.Tans.Codec

namespace Netc

/-! ### Header -/

/-- `validate_header` -/
def validateHeader (src : List UInt8) (dstCap : ℕ) (compact : Bool) : Chk (Except Result (PktHeader × ℕ)) :=
  if compact then do
    match ← hdrReadCompact src with
    | none => return .error .errCorrupt
    | some (hdr, hdrSz) =>
      let hdr := { hdr with compressedSize := (src.length - hdrSz) % 2 ^ 16 }
      if maxPacketSize < hdr.originalSize then return .error .errCorrupt
      else if dstCap < hdr.originalSize then return .error .errBufSmall
      else return .ok (hdr, hdrSz)
  else if src.length < headerSize then .ok (.error .errCorrupt)
  else do
    let hdr ← hdrRead src
    if maxPacketSize < hdr.originalSize then return .error .errCorrupt
    else if dstCap < hdr.originalSize then return .error .errBufSmall
    else if src.length < headerSize + hdr.compressedSize then return .error .errCorrupt
    else return .ok (hdr, headerSize)

/-! ### RLE -/

/-- `rle_decode`: pairs of a count and a byte. -/
def rleDecode : List UInt8 → ℕ → List UInt8 → List UInt8 × Result
  | count :: sym :: rle, origSize, out =>
    if count = 0 ∨ origSize < out.length + count.toNat then (out, .errCorrupt)
    else rleDecode rle origSize (out ++ List.replicate count.toNat sym)
  | [_], _, out => (out, .errCorrupt)
  | [], origSize, out => if out.length ≠ origSize then (out, .errCorrupt) else (out, .ok)

/-! ### tANS payloads -/

/-- `decomp_bucket_start` -/
def decompBucketStart (b : ℕ) : ℕ :=
  [0, 8, 16, 24, 32, 48, 64, 96, 128, 192, 256, 384, 512, 1024, 4096, 16384].getD b 65536

/-- `decomp_select_tbl` -/
def decompSelectTbl (d : Dict) (tables : ℕ → Table) (bucket : ℕ) (prev pktFlags : UInt8) : Chk Table := do
  Chk.index bucket ctxCount
  if PktFlag.has pktFlags PktFlag.bigram then
    Chk.index (d.bigramClass prev) bigramCtxCount
    return if (d.bigramTables bucket (d.bigramClass prev)).valid then d.bigramTables bucket (d.bigramClass prev)
      else tables bucket
  else return tables bucket

/-- The return code of a tANS decoder, in the terms of its callers. -/
def decodeCode {α : Type} (p : List UInt8 × Option α) : List UInt8 × Result :=
  (p.1, if p.2.isSome then .ok else .errCorrupt)

/-- One region of a multi-region payload, whose bits are the `bsBytes` bytes at `off`. -/
def decodeRegion (d : Dict) (tables : ℕ → Table) (flags : UInt8) (payload : List UInt8)
    (bucket : ℕ) (prev : UInt8) (off bsBytes len state : ℕ) : Return :=
  if !stateOk tans12 state then .ok ([], .errCorrupt)
  else if payload.length < off + bsBytes then .ok ([], .errCorrupt)
  else do
    let tbl ← decompSelectTbl d tables bucket prev flags
    if !tbl.valid then return ([], .errDictInvalid)
    else
      let bits ← Chk.sub payload off bsBytes
      let r ← bsrInit bits
      let out ← tansDecode tbl r len state
      return decodeCode out

/-- The region loop of `decode_tans`: `n` regions from the `r`th on, the next
bitstream at `off`. -/
def decodeMreg (d : Dict) (tables : ℕ → Table) (hdr : PktHeader) (payload : List UInt8) :
    ℕ → ℕ → ℕ → UInt8 → Out → Chk (Out × Result)
  | 0, _, _, _, dst => .ok (dst, .ok)
  | n + 1, r, off, prev, dst => do
    let state ← readU32Le payload (1 + r * 8)
    let bsBytes ← readU32Le payload (1 + r * 8 + 4)
    let regionStart := min (decompBucketStart r) hdr.originalSize
    let regionEnd := min (decompBucketStart (r + 1)) hdr.originalSize
    -- an empty region, by its descriptor or because the packet ends before it
    if (state = 0 ∧ bsBytes = 0) ∨ regionEnd - regionStart = 0 then
      decodeMreg d tables hdr payload n (r + 1) off prev dst
    else
      let (bs, code) ← decodeRegion d tables hdr.flags payload r prev off bsBytes (regionEnd - regionStart) state
      let dst := dst.write regionStart bs
      if code ≠ .ok then return (dst, code)
      else decodeMreg d tables hdr payload n (r + 1) (off + bsBytes) (dst.byte (regionEnd - 1)) dst

/-- A payload with two interleaved states. -/
def decodeX2 (tbl : Table) (payload : List UInt8) (orig : ℕ) (compact : Bool) : Return :=
  if payload.length < 2 * stateSz compact then .ok ([], .errCorrupt)
  else do
    let state0 ← readState compact payload 0
    let state1 ← readState compact payload (stateSz compact)
    let r ← bsrInit (payload.drop (2 * stateSz compact))
    let out ← tansDecodeX2 tbl r orig state0 state1
    return decodeCode out

/-- A payload with one state. -/
def decodeOne (tbl : Table) (payload : List UInt8) (orig : ℕ) (compact : Bool) : Return :=
  if payload.length < stateSz compact then .ok ([], .errCorrupt)
  else do
    let state ← readState compact payload 0
    if !stateOk tans12 state then return ([], .errCorrupt)
    else
      let r ← bsrInit (payload.drop (stateSz compact))
      let out ← tansDecode tbl r orig state
      return decodeCode out

/-- The table index in the upper half of the algorithm byte. -/
def packetBucket (algorithm : UInt8) : ℕ :=
  let bucket := (algorithm >>> 4).toNat
  if ctxCount ≤ bucket then 0 else bucket

/-- The single-region branch of `decode_tans`. -/
def decodeSingle (d : Dict) (tables : ℕ → Table) (hdr : PktHeader) (payload : List UInt8) (compact : Bool) :
    Return := do
  let tbl ← decompSelectTbl d tables (packetBucket hdr.algorithm) 0 hdr.flags
  if !tbl.valid then return ([], .errDictInvalid)
  else if PktFlag.has hdr.flags PktFlag.x2 then decodeX2 tbl payload hdr.originalSize compact
  else decodeOne tbl payload hdr.originalSize compact

/-- The bytes a decoder wrote, copied to the front of the buffer. -/
def Out.commit (dst : Out) (r : Return) : Chk (Out × Result) := do
  let (bs, code) ← r
  return (dst.write 0 bs, code)

/-- `decode_tans` with a dictionary. -/
def decodeTans (d : Dict) (tables : ℕ → Table) (hdr : PktHeader) (payload : List UInt8) (dst : Out)
    (compact : Bool) : Chk (Out × Result) :=
  if PktFlag.has hdr.flags PktFlag.mreg then
    if payload.length < 1 then .ok (dst, .errCorrupt)
    else do
      let nRegions ← Chk.get payload 0
      if nRegions = 0 ∨ ctxCount < nRegions.toNat then return (dst, .errCorrupt)
      else if payload.length < 1 + nRegions.toNat * 8 then return (dst, .errCorrupt)
      else decodeMreg d tables hdr payload nRegions.toNat 0 (1 + nRegions.toNat * 8) 0 dst
  else dst.commit (decodeSingle d tables hdr payload compact)

/-- The two per-position decoders of `case NETC_ALG_TANS_PCTX`. -/
def pctxStream (d : Dict) (tables : ℕ → Table) (hdr : PktHeader) (r : Bsr) (state : ℕ) :
    Chk (List UInt8 × Option (ℕ × Bsr)) :=
  if PktFlag.has hdr.flags PktFlag.bigram && (d.bigramTables 0 0).valid then
    tansDecodePctxBigram d.bigramTables tables d.bigramClass r hdr.originalSize state
  else tansDecodePctx tables r hdr.originalSize state

/-- `case NETC_ALG_TANS_PCTX`, up to the decoded bytes. -/
def decodePctx (d : Dict) (tables : ℕ → Table) (hdr : PktHeader) (payload : List UInt8) (compact : Bool) :
    Return :=
  if payload.length < stateSz compact then .ok ([], .errCorrupt)
  else do
    let state ← readState compact payload 0
    if !stateOk tans12 state then return ([], .errCorrupt)
    else
      let r ← bsrInit (payload.drop (stateSz compact))
      let out ← pctxStream d tables hdr r state
      return decodeCode out

/-- `case NETC_ALG_TANS_10`, up to the decoded bytes. -/
def decode10 (tables : ℕ → Table) (hdr : PktHeader) (payload : List UInt8) : Return := do
  let bucket := packetBucket hdr.algorithm
  Chk.index bucket ctxCount
  if !(tables bucket).valid then return ([], .errDictInvalid)
  else if payload.length < 2 then return ([], .errCorrupt)
  else
    let state ← readU16Le payload 0
    if !stateOk tans10 state then return ([], .errCorrupt)
    else
      match table10 (tables bucket) with
      | none => return ([], .errDictInvalid)
      | some tbl10 =>
        let r ← bsrInit (payload.drop 2)
        let out ← tansDecode10 tbl10 r hdr.originalSize state
        return decodeCode out

/-- `case NETC_ALG_PASSTHRU`, up to the decoded bytes. -/
def decodePassthru (hdr : PktHeader) (payload : List UInt8) : Return :=
  if PktFlag.has hdr.flags PktFlag.lz77 then lz77Decode payload hdr.originalSize
  else if PktFlag.has hdr.flags PktFlag.rle then .ok (rleDecode payload hdr.originalSize [])
  else if hdr.compressedSize ≠ hdr.originalSize then .ok ([], .errCorrupt)
  else .ok (payload, .ok)

/-! ### Packets -/

/-- `alg_id`: the algorithm byte without the bucket in its upper half. -/
def algId (algorithm : UInt8) : UInt8 :=
  if algorithm &&& 0x0F = Alg.tans then Alg.tans
  else if algorithm &&& 0x0F = Alg.lzp then Alg.lzp
  else if algorithm &&& 0x0F = Alg.tansPctx then Alg.tansPctx
  else if algorithm &&& 0x0F = Alg.tans10 then Alg.tans10
  else algorithm

/-- The branch of `netc_decompress` for a packet, up to the decoded bytes. -/
def decodePayload (ctx : Ctx) (hdr : PktHeader) (payload : List UInt8) (dst : Out) : Chk (Out × Result) :=
  let alg := algId hdr.algorithm
  let compact := ctx.compactMode
  if alg = Alg.passthru then dst.commit (decodePassthru hdr payload)
  else if alg = Alg.lz77x then
    if !ctx.hasRing then .ok (dst, .errUnsupported)
    else dst.commit (lz77xDecode payload hdr.originalSize ctx.ring ctx.ringPos)
  else if alg = Alg.rans then .ok (dst, .errUnsupported)
  else
    match ctx.dict with
    | none =>
      .ok (dst, if alg = Alg.tans ∨ alg = Alg.tansPctx ∨ alg = Alg.lzp ∨ alg = Alg.tans10 then .errDictInvalid
        else .errCorrupt)
    | some d =>
      let tables := ctx.getTables d
      if alg = Alg.tans then decodeTans d tables hdr payload dst compact
      else if alg = Alg.tansPctx then dst.commit (decodePctx d tables hdr payload compact)
      else if alg = Alg.lzp then
        match ctx.getLzpTable with
        | none => .ok (dst, .errDictInvalid)
        | some _ => decodeTans d tables hdr payload dst compact
      else if alg = Alg.tans10 then dst.commit (decode10 tables hdr payload)
      else .ok (dst, .errCorrupt)

/-- `decomp_delta_postpass` on the first `n` bytes. -/
def decompDeltaPostpass (ctx : Ctx) (flags : UInt8) (dst : Out) (n : ℕ) : Chk Out :=
  if !PktFlag.has flags PktFlag.delta then .ok dst
  else
    match ctx.prevPkt with
    | none => .ok dst
    | some prev =>
      if ctx.prevPktSize ≠ n then .ok dst
      else do
        let _ ← prev.read n
        match ctx.prev2Pkt with
        | some prev2 =>
          if PktFlag.has flags PktFlag.rle && ctx.prev2PktSize == n then
            let _ ← prev2.read n
            return dst.write 0 (deltaDecodeOrder2 prev2.byte prev.byte (dst.read n))
          else return ⟨bulkDecode ctx.simdOps prev.byte dst.byte n, max dst.top n⟩
        | none => return ⟨bulkDecode ctx.simdOps prev.byte dst.byte n, max dst.top n⟩

/-- `netc_lzp_xor_unfilter` in place, if there is a table. -/
def unfilterInPlace (lzp : Option LzpTable) (dst : Out) (n : ℕ) : Chk Out :=
  match lzp with
  | none => .ok dst
  | some lzp => do
    let bs ← lzpXorUnfilter lzp (dst.read n)
    return dst.write 0 bs

/-- What each branch of `netc_decompress` does to the decoded bytes. -/
def undoTransforms (ctx : Ctx) (hdr : PktHeader) (dst : Out) : Chk Out :=
  let alg := algId hdr.algorithm
  let n := hdr.originalSize
  if alg = Alg.passthru then
    if PktFlag.has hdr.flags PktFlag.lz77 then decompDeltaPostpass ctx hdr.flags dst n else .ok dst
  else if alg = Alg.lz77x then .ok dst
  else if alg = Alg.lzp ∨ (alg = Alg.tansPctx ∧ hdr.algorithm &&& 0xF0 ≠ 0) then do
    let dst ← unfilterInPlace ctx.getLzpTable dst n
    decompDeltaPostpass ctx hdr.flags dst n
  else decompDeltaPostpass ctx hdr.flags dst n

/-- The history buffers hold what `decomp_update_prev` and `decomp_ring_append`
copy from and to them. -/
def Ctx.checkHistory (ctx : Ctx) (n : ℕ) : Chk Unit :=
  if ctx.prevPkt.any fun prev => prev.size < ctx.prevPktSize ∨ prev.size < n then .error .store
  else if ctx.prev2Pkt.any fun prev2 => prev2.size < ctx.prevPktSize then .error .store
  else if ctx.ring.any fun ring => ring.size ≠ 0 ∧ ring.size ≤ ctx.ringPos then .error .index
  else .ok ()

/-- The state updates of `netc_decompress` after packet `data`. -/
def decompFinish (ctx : Ctx) (hdr : PktHeader) (srcSize : ℕ) (data : List UInt8) : Ctx :=
  let ctx := (ctx.updatePrev data).appendRing data
  let ctx := ctx.tally fun s => { s with
    packetsDecompressed := (s.packetsDecompressed + 1) % 2 ^ 64
    bytesIn := (s.bytesIn + srcSize) % 2 ^ 64
    bytesOut := (s.bytesOut + data.length) % 2 ^ 64
    passthroughCount :=
      if algId hdr.algorithm = Alg.passthru then (s.passthroughCount + 1) % 2 ^ 64 else s.passthroughCount }
  { ctx with contextSeq := hdr.contextSeq + 1 }.learn data

/-- What a call of `netc_decompress` leaves: its return code, the caller's
buffer, `*dst_size` and the context. -/
structure DecompressRet where
  code : Result
  dst : Out
  dstSize : ℕ
  ctx : Ctx

/-- In compact mode the model and the sequence number are not on the wire. -/
def fillHeader (ctx : Ctx) (hdr : PktHeader) : PktHeader :=
  if ctx.compactMode then { hdr with modelId := ctx.modelId, contextSeq := ctx.contextSeq } else hdr

/-- The `model_id` check of `netc_decompress`. -/
def modelMismatch (ctx : Ctx) (hdr : PktHeader) : Bool :=
  match ctx.dict with
  | none => false
  | some d => !PktFlag.has hdr.flags PktFlag.passthru && hdr.algorithm != Alg.lz77x && hdr.modelId != d.modelId

/-- `netc_decompress` after its header check. -/
def decompressBody (ctx : Ctx) (src : List UInt8) (hdr : PktHeader) (hdrSz : ℕ) (dst : Out) (dstSize : ℕ) :
    Chk DecompressRet :=
  if modelMismatch ctx hdr then .ok ⟨.errVersion, dst, dstSize, ctx⟩
  else do
    let payload ← Chk.sub src hdrSz hdr.compressedSize
    let (dst, code) ← decodePayload ctx hdr payload dst
    if code ≠ .ok then return ⟨code, dst, dstSize, ctx⟩
    else
      let dst ← undoTransforms ctx hdr dst
      ctx.checkHistory hdr.originalSize
      let data := dst.read hdr.originalSize
      return ⟨.ok, dst, hdr.originalSize, decompFinish ctx hdr src.length data⟩

/-- `netc_decompress` -/
def decompress (ctx : Ctx) (src : List UInt8) (dst : Out) (dstCap dstSize : ℕ) : Chk DecompressRet := do
  match ← validateHeader src dstCap ctx.compactMode with
  | .error code => return ⟨code, dst, dstSize, ctx⟩
  | .ok (hdr, hdrSz) => decompressBody ctx src (fillHeader ctx hdr) hdrSz dst dstSize

/-! ### The stateless path -/

/-- The branch of `netc_decompress_stateless` for a packet. -/
def statelessPayload (d : Dict) (hdr : PktHeader) (payload : List UInt8) (dst : Out) : Chk (Out × Result) :=
  let alg := algId hdr.algorithm
  if alg = Alg.passthru then dst.commit (decodePassthru hdr payload)
  else if alg = Alg.tans then decodeTans d d.tables hdr payload dst false
  else if alg = Alg.tansPctx then dst.commit (decodePctx d d.tables hdr payload false)
  else if alg = Alg.lzp then
    match d.lzpTable with
    | none => .ok (dst, .errDictInvalid)
    | some _ => decodeTans d d.tables hdr payload dst false
  else if alg = Alg.tans10 then dst.commit (decode10 d.tables hdr payload)
  else if alg = Alg.rans then .ok (dst, .errUnsupported)
  else .ok (dst, .errCorrupt)

/-- What each branch of `netc_decompress_stateless` does to the decoded bytes. -/
def statelessUndo (d : Dict) (hdr : PktHeader) (dst : Out) : Chk Out :=
  let alg := algId hdr.algorithm
  if alg = Alg.lzp ∨ (alg = Alg.tansPctx ∧ hdr.algorithm &&& 0xF0 ≠ 0) then
    unfilterInPlace d.lzpTable dst hdr.originalSize
  else .ok dst

/-- `netc_decompress_stateless` after its header check. -/
def statelessBody (d : Dict) (src : List UInt8) (hdr : PktHeader) (hdrSz : ℕ) (dst : Out) (dstSize : ℕ) :
    Chk StatelessRet :=
  if !PktFlag.has hdr.flags PktFlag.passthru && hdr.modelId != d.modelId then .ok ⟨.errVersion, dst, dstSize⟩
  else if PktFlag.has hdr.flags PktFlag.delta then .ok ⟨.errCorrupt, dst, dstSize⟩
  else do
    let payload ← Chk.sub src hdrSz hdr.compressedSize
    let (dst, code) ← statelessPayload d hdr payload dst
    if code ≠ .ok then return ⟨code, dst, dstSize⟩
    else
      let dst ← statelessUndo d hdr dst
      return ⟨.ok, dst, hdr.originalSize⟩

/-- `netc_decompress_stateless` -/
def decompressStateless (d : Dict) (src : List UInt8) (dst : Out) (dstCap dstSize : ℕ) : Chk StatelessRet := do
  match ← validateHeader src dstCap false with
  | .error code => return ⟨code, dst, dstSize⟩
  | .ok (hdr, hdrSz) => statelessBody d src hdr hdrSz dst dstSize

end Netc
