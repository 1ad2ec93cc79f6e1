/-
# tANS payloads

`try_tans_compress` of `netc_compress.c` and the functions under it: a packet
is coded with one table per position, with one table chosen among those of its
buckets, with one or two states, and the shortest result is kept. An encoder
is given room for `cap` bytes. What it does to its buffer is an `Attempt`: the
writes of what it gave up, and the payload, if it ended with one.

Key definitions: `Attempt`, `tansSingleWithTable`, `tansSingleRegion`, `tryTansCompress`.
-/
import Netc.Dict
import Netc.Tans.Codec

namespace Netc

/-- What an encoder did to its buffer: the writes it gave up, and the payload
it left at the front, with what else it returned. -/
structure Attempt (α : Type) where
  left : Writes
  result : Option (List UInt8 × α)

/-- The buffer after an attempt from `base` on. -/
def Out.apply {α : Type} (dst : Out) (base : ℕ) (a : Attempt α) : Out :=
  match a.result with
  | none => dst.applyWrites base a.left
  | some r => (dst.applyWrites base a.left).write base r.1

/-- The stack buffers of the trial encodings. -/
def trialBufSize : ℕ := 520

/-! ### One table -/

/-- The end of an encoder with one state: state 0 is a failure, else the bits
are flushed and the state is put in front of them. -/
def closeStream (compact : Bool) (r : ℕ × Bsw) : Attempt Unit :=
  if r.1 = 0 then ⟨[(stateSz compact, r.2.out)], none⟩
  else
    match bswFlush r.2 with
    | .error w => ⟨[(stateSz compact, w.out)], none⟩
    | .ok w => ⟨[], some (writeState compact r.1 ++ w.out, ())⟩

/-- The dual-state part of `try_tans_single_with_table`. -/
def tansX2Attempt (tbl : Table) (src : List UInt8) (cap : ℕ) (compact : Bool) : Attempt Unit :=
  match tansEncodeX2 tbl src (bswInit (cap - 2 * stateSz compact)) with
  | .error w => ⟨[(2 * stateSz compact, w.out)], none⟩
  | .ok (X0, X1, w) =>
    match bswFlush w with
    | .error w => ⟨[(2 * stateSz compact, w.out)], none⟩
    | .ok w => ⟨[], some (writeState compact X0 ++ (writeState compact X1 ++ w.out), ())⟩

/-- The single-state part of `try_tans_single_with_table`. -/
def tansOneAttempt (tbl : Table) (src : List UInt8) (cap : ℕ) (compact : Bool) : Attempt Unit :=
  if cap < stateSz compact then ⟨[], none⟩
  else closeStream compact (tansEncode tbl src (bswInit (cap - stateSz compact)) tans12.size)

/-- Whether two states are tried. -/
def wantsX2 (srcSize cap : ℕ) (ctxFlags : UInt32) (compact : Bool) : Bool :=
  !CfgFlag.has ctxFlags CfgFlag.bigram && !CfgFlag.has ctxFlags CfgFlag.noX2 && decide (256 ≤ srcSize) &&
    decide (2 * stateSz compact ≤ cap)

/-- `try_tans_single_with_table`: the payload and whether it has two states. -/
def tansSingleWithTable (tbl : Table) (src : List UInt8) (cap : ℕ) (ctxFlags : UInt32) (compact : Bool) :
    Attempt Bool :=
  if !tbl.valid then ⟨[], none⟩
  else
    let x2 := if wantsX2 src.length cap ctxFlags compact then tansX2Attempt tbl src cap compact else ⟨[], none⟩
    match x2.result with
    | some (p, _) => ⟨x2.left, some (p, true)⟩
    | none =>
      let one := tansOneAttempt tbl src cap compact
      ⟨x2.left ++ one.left, one.result.map fun r => (r.1, false)⟩

/-- `try_tans_10bit_with_table`; the state has two bytes. -/
def tans10bitWithTable (tbl : Table) (src : List UInt8) (cap : ℕ) : Attempt Unit :=
  if !tbl.valid then ⟨[], none⟩
  else if cap < 2 then ⟨[], none⟩
  else closeStream true (tansEncode10 tbl src (bswInit (cap - 2)) tans10.size)

/-! ### One table of several -/

/-- `select_tans_table` -/
def selectTansTable (d : Dict) (tables : ℕ → Table) (bucket : ℕ) (prev : UInt8) (ctxFlags : UInt32) : Table :=
  if CfgFlag.has ctxFlags CfgFlag.bigram then
    let tbl := d.bigramTables bucket (d.bigramClass prev)
    if tbl.valid then tbl else tables bucket
  else tables bucket

/-- One round of the scan over the buckets' tables; `best` is `best_cp` and
`best_bucket`, or none for `(size_t)-1`. -/
def scanBucket (tables : ℕ → Table) (src : List UInt8) (ctxFlags : UInt32) (compact : Bool)
    (best : Option (ℕ × ℕ)) (b : ℕ) : Option (ℕ × ℕ) :=
  match (tansSingleWithTable (tables b) src trialBufSize ctxFlags compact).result with
  | none => best
  | some (p, _) =>
    match best with
    | none => some (p.length, b)
    | some (cp, b') => if p.length < cp then some (p.length, b) else some (cp, b')

/-- The scan over the tables of the packet's buckets. -/
def scanBuckets (tables : ℕ → Table) (src : List UInt8) (ctxFlags : UInt32) (compact : Bool) : Option (ℕ × ℕ) :=
  (List.range (ctxBucket (src.length - 1) + 1)).foldl (scanBucket tables src ctxFlags compact) none

/-- How a tANS payload was made: `used_mreg` (0 is one table, 2 is a table per
position, 3 a table per position and class), `used_x2` and the table. -/
structure TansInfo where
  mreg : ℕ
  x2 : Bool
  tblIdx : ℕ
  deriving DecidableEq, Repr

/-- The table `try_tans_single_region` ends up with. -/
def singleRegionTable (d : Dict) (tables : ℕ → Table) (src : List UInt8) (ctxFlags : UInt32) (compact : Bool) :
    Option (Table × ℕ) :=
  if !CfgFlag.has ctxFlags CfgFlag.bigram && decide (src.length ≤ 512) &&
      decide (0 < ctxBucket (src.length - 1)) then
    (scanBuckets tables src ctxFlags compact).map fun best => (tables best.2, best.2)
  else some (selectTansTable d tables 0 0 ctxFlags, 0)

/-- `try_tans_single_region` -/
def tansSingleRegion (d : Dict) (tables : ℕ → Table) (src : List UInt8) (cap : ℕ) (ctxFlags : UInt32)
    (compact : Bool) : Attempt TansInfo :=
  match singleRegionTable d tables src ctxFlags compact with
  | none => ⟨[], none⟩
  | some (tbl, idx) =>
    let a := tansSingleWithTable tbl src cap ctxFlags compact
    ⟨a.left, a.result.map fun r => (r.1, ⟨0, r.2, idx⟩)⟩

/-! ### One table per position -/

/-- The bits of the unigram trial, and of the bigram trial in a buffer of its own. -/
def pctxAttempt (tables : ℕ → Table) (src : List UInt8) (cap : ℕ) (compact : Bool) : Attempt Unit :=
  closeStream compact (tansEncodePctx tables src (bswInit (cap - stateSz compact)) tans12.size)

/-- The bigram trial; 65599 is the size of its buffer. -/
def pctxBigramAttempt (d : Dict) (tables : ℕ → Table) (src : List UInt8) (cap : ℕ) (compact : Bool) :
    Attempt Unit :=
  closeStream compact (tansEncodePctxBigram d.bigramTables tables d.bigramClass src
    (bswInit (min (cap - stateSz compact) (maxPacketSize + 64))) tans12.size)

/-- The shorter of the unigram payload and the bigram one, if that is tried. -/
def pctxBest (d : Dict) (tables : ℕ → Table) (src : List UInt8) (cap : ℕ) (ctxFlags : UInt32) (compact : Bool)
    (p : List UInt8) : List UInt8 × ℕ :=
  if CfgFlag.has ctxFlags CfgFlag.bigram && (d.bigramTables 0 0).valid then
    match (pctxBigramAttempt d tables src cap compact).result with
    | some (q, _) => if q.length < p.length then (q, 3) else (p, 2)
    | none => (p, 2)
  else (p, 2)

/-- Whether the comparison with a single table is made. -/
def comparesSingle (srcSize : ℕ) (ctxFlags : UInt32) : Bool :=
  decide (srcSize ≤ 512) && !CfgFlag.has ctxFlags CfgFlag.skipSr

/-- The per-position branch of `try_tans_compress`, its trial having given the
payload `p`: the single-table result if that is shorter. -/
def pctxOrSingle (d : Dict) (tables : ℕ → Table) (src : List UInt8) (cap : ℕ) (ctxFlags : UInt32)
    (compact : Bool) (p : List UInt8) : Attempt TansInfo :=
  let best := pctxBest d tables src cap ctxFlags compact p
  let sr := if comparesSingle src.length ctxFlags then
    (tansSingleRegion d tables src trialBufSize ctxFlags compact).result else none
  -- the bits of the trials stand behind the room for the state
  let left := [(stateSz compact, p.drop (stateSz compact)),
    (stateSz compact, best.1.drop (stateSz compact))]
  match sr with
  | some (q, info) => if q.length < best.1.length then ⟨left, some (q, info)⟩
    else ⟨left, some (best.1, ⟨best.2, false, 0⟩)⟩
  | none => ⟨left, some (best.1, ⟨best.2, false, 0⟩)⟩

/-- `try_tans_compress` -/
def tryTansCompress (d : Dict) (tables : ℕ → Table) (src : List UInt8) (cap : ℕ) (ctxFlags : UInt32)
    (compact : Bool) : Attempt TansInfo :=
  if src.length = 0 then ⟨[], none⟩
  else if ctxBucket (src.length - 1) = 0 then tansSingleRegion d tables src cap ctxFlags compact
  else if (List.range (ctxBucket (src.length - 1) + 1)).any (fun b => !(tables b).valid) then ⟨[], none⟩
  else
    let pctx := if stateSz compact ≤ cap then pctxAttempt tables src cap compact else ⟨[], none⟩
    match pctx.result with
    | some (p, _) => pctxOrSingle d tables src cap ctxFlags compact p
    | none =>
      if CfgFlag.has ctxFlags CfgFlag.skipSr then ⟨pctx.left, none⟩
      else
        let sr := tansSingleRegion d tables src cap ctxFlags compact
        ⟨pctx.left ++ sr.left, sr.result⟩

end Netc
