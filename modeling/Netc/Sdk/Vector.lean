/-
# Calls of the C++ classes

The calls of the C++ SDK take vectors, which they resize around the call of the C interface: first to the
size that the call may need, then to the size it reports, or to nothing if it failed. Whatever vector it is
given, `Context::Compress` sends every packet of at most 65535 bytes (`compressVec_cases`), no call stores
behind the vector, and packets go through (`sdk_delivers`).

Key definitions: `reserve`, `shrink`, `compressVec`, `decompressVec`, `contextCfg`, `ParcelsArrive`.
Key theorems: `compressVec_cases`, `decompressVec_wf`, `sdk_delivers`.
-/
import Netc.Accounting
import Netc.Shipping
import Netc.Capacity

namespace Netc
namespace Sdk

/-! ### Vectors -/

/-- `std::vector::resize`, where new elements are zero. -/
def resize (v : List UInt8) (n : ℕ) : List UInt8 := v.take n ++ List.replicate (n - v.length) 0

/-- The memory of a vector as the buffer of a call. -/
def buffer (v : List UInt8) : Out := ⟨fun i => v.getD i 0, 0⟩

/-- What goes wrong: an object that does not exist or exists already, a handle freed twice, a handle used
after it was freed, a load or store out of range. -/
inductive Fault where
  | scope
  | free
  | use
  | memory
  deriving DecidableEq, Repr

/-- The vector that a call leaves: the bytes it reports, or none if it failed. A store behind the vector is
a fault. -/
def shrink (size : ℕ) (code : Result) (dst : Out) (dstSize : ℕ) : Except Fault (Result × List UInt8) :=
  if size < dst.top then .error .memory
  else if code ≠ .ok then .ok (code, [])
  else .ok (.ok, resize (dst.read size) dstSize)

/-- A vector of at least `n` bytes. -/
def reserve (v : List UInt8) (n : ℕ) : List UInt8 := if v.length < n then resize v n else v

/-- `Context::Compress` on a valid context. -/
def compressVec (ctx : Ctx) (src dst : List UInt8) : Except Fault ((Result × List UInt8) × Ctx) :=
  let dst := reserve dst (compressBound src.length)
  let r := compress ctx src (buffer dst) dst.length 0
  (shrink dst.length r.code r.dst r.dstSize).map (·, r.ctx)

/-- `Context::Decompress` on a valid context. -/
def decompressVec (ctx : Ctx) (src dst : List UInt8) : Except Fault ((Result × List UInt8) × Ctx) :=
  let dst := reserve dst maxPacketSize
  match decompress ctx src (buffer dst) dst.length 0 with
  | .error _ => .error .memory
  | .ok r => (shrink dst.length r.code r.dst r.dstSize).map (·, r.ctx)

/-- `Context::CompressStateless` on a valid dictionary. -/
def compressStatelessVec (d : Dict) (src dst : List UInt8) : Except Fault (Result × List UInt8) :=
  let dst := reserve dst (compressBound src.length)
  let r := compressStateless d src (buffer dst) dst.length 0
  shrink dst.length r.code r.dst r.dstSize

/-- `Context::DecompressStateless` on a valid dictionary. -/
def decompressStatelessVec (d : Dict) (src dst : List UInt8) : Except Fault (Result × List UInt8) :=
  let dst := reserve dst maxPacketSize
  match decompressStateless d src (buffer dst) dst.length 0 with
  | .error _ => .error .memory
  | .ok r => shrink dst.length r.code r.dst r.dstSize

section Vectors

variable {v : List UInt8} {n : ℕ}

@[simp] theorem length_resize (v : List UInt8) (n : ℕ) : (resize v n).length = n := by
  rw [resize, List.length_append, List.length_take, List.length_replicate]
  omega

theorem resize_of_le (h : n ≤ v.length) : resize v n = v.take n := by
  rw [resize, Nat.sub_eq_zero_of_le h, List.replicate_zero, List.append_nil]

theorem le_length_reserve (v : List UInt8) (n : ℕ) : n ≤ (reserve v n).length := by
  rw [reserve]
  split
  · rw [length_resize]
  · omega

theorem take_read (dst : Out) {size n : ℕ} (h : n ≤ size) : (dst.read size).take n = dst.read n :=
  ByteMem.take_slice _ _ h

/-- A call that stays in the vector and succeeds leaves what it reports. -/
theorem shrink_ok {size dstSize : ℕ} {dst : Out} (htop : dst.top ≤ size) (hsize : dstSize ≤ size) :
    shrink size .ok dst dstSize = .ok (.ok, dst.read dstSize) := by
  rw [shrink, if_neg (by omega), if_neg (by simp), resize_of_le (by rwa [Out.length_read]), take_read dst hsize]

theorem shrink_failed {size dstSize : ℕ} {code : Result} {dst : Out} (htop : dst.top ≤ size) (hcode : code ≠ .ok) :
    shrink size code dst dstSize = .ok (code, []) := by
  rw [shrink, if_neg (by omega), if_pos hcode]

end Vectors

/-! ### Calls around vectors -/

section Calls

variable {ctx : Ctx} {src : List UInt8} {dstCap : ℕ}

/-- With room for the header `netc_compress` stays in its buffer. -/
theorem compress_top_le (hcap : hdrSz ctx.compactMode src.length ≤ dstCap) {dst : Out} (hdst : dst.top ≤ dstCap)
    (dstSize : ℕ) : (compress ctx src dst dstCap dstSize).dst.top ≤ dstCap := by
  unfold compress
  split
  · exact hdst
  · next hlen =>
    split
    · exact hdst
    · have hblocks := compressBlocks_fits hcap hdst
      dsimp only
      split
      · rw [exitFinish_top (not_lt.mp hlen)]
        omega
      · exact (passthruFinish_top (not_lt.mp hlen) _ dstSize).2 hcap hblocks

theorem buffer_top (v : List UInt8) (n : ℕ) : (buffer v).top ≤ n := Nat.zero_le n

/-- A packet is longer on the wire by its header at most. -/
theorem length_wire_le (hwf : ctx.Wf) (hlen : src.length ≤ maxPacketSize) (dstCap : ℕ) :
    (wire ctx src (plan ctx src dstCap)).length ≤ src.length + headerSize := by
  have hhdr := hdrSz_le ctx.compactMode src.length
  have hpay := length_wirePayload_le hwf (Eq.refl (plan ctx src dstCap))
  rw [wire_eq, List.length_append, length_hdrEmit, wireHeader_originalSize hlen]
  omega

/-- The vector of `Context::Compress` has the room that the call asks for. -/
theorem compressVec_room (hlen : src.length ≤ maxPacketSize) (dst : List UInt8) :
    src.length + headerSize ≤ (reserve dst (compressBound src.length)).length := by
  have hle := le_length_reserve dst (compressBound src.length)
  have hmax : maxPacketSize = 65535 := rfl
  have h8 : headerSize = 8 := rfl
  rw [compressBound, show maxOverhead = 8 from rfl, Nat.mod_eq_of_lt (by omega)] at hle
  rw [compressBound, show maxOverhead = 8 from rfl, Nat.mod_eq_of_lt (by omega)]
  omega

/-- **`Context::Compress`** sends every packet of at most 65535 bytes, whatever vector it is given, and
nothing else. -/
theorem compressVec_cases (hwf : ctx.Wf) (src dst : List UInt8) :
    (maxPacketSize < src.length ∧ compressVec ctx src dst = .ok ((.errTooBig, []), ctx)) ∨
    (src.length ≤ maxPacketSize ∧ ∃ cap r, src.length + headerSize ≤ cap ∧ r = compress ctx src (buffer (reserve dst
      (compressBound src.length))) cap 0 ∧ Sent ctx src cap r ∧
      compressVec ctx src dst = .ok ((.ok, r.dst.read r.dstSize), r.ctx)) := by
  rcases Nat.lt_or_ge maxPacketSize src.length with hlen | hlen
  · refine .inl ⟨hlen, ?_⟩
    simp only [compressVec, compress, if_pos hlen]
    rw [shrink_failed (buffer_top ..) (by simp)]
    rfl
  · have hroom := compressVec_room hlen dst
    have hhdr := hdrSz_le ctx.compactMode src.length
    have hmin : compactHdrMin = 2 := rfl
    have h8 : headerSize = 8 := rfl
    have hsent : Sent ctx src (reserve dst (compressBound src.length)).length (compress ctx src (buffer (reserve dst
        (compressBound src.length))) (reserve dst (compressBound src.length)).length 0) := by
      rcases compress_cases ctx src (buffer (reserve dst (compressBound src.length)))
        (reserve dst (compressBound src.length)).length 0 with ⟨hentry, -⟩ | ⟨-, -, hsmall, -⟩ | ⟨-, -, hs⟩
      · omega
      · omega
      · exact hs
    refine .inr ⟨hlen, _, _, hroom, rfl, hsent, ?_⟩
    have htop := @compress_top_le ctx src (reserve dst (compressBound src.length)).length (by omega)
      (buffer (reserve dst (compressBound src.length))) (buffer_top ..) 0
    have hsize := length_wire_le hwf hlen (reserve dst (compressBound src.length)).length
    rw [← hsent.size] at hsize
    simp only [compressVec]
    rw [hsent.code, shrink_ok htop (by omega)]
    rfl

theorem inBounds_top_le {dst dst' : Out} {compact : Bool} (h : InBounds src dstCap compact dst dst')
    (hdst : dst.top = 0) :
    dst'.top ≤ dstCap := by
  rcases h with rfl | ⟨hdr, n, -, hcap, htop, -⟩
  · omega
  · omega

end Calls

/-! ### Dictionaries and contexts -/

/-- `Mode` -/
inductive Mode where
  | tcp
  | udp
  deriving DecidableEq, Repr

/-- The configuration that the constructor of `Context` makes; the compression level is not used. -/
def contextCfg (mode : Mode) (extraFlags : UInt32) : Cfg :=
  ⟨extraFlags ||| CfgFlag.stats ||| (match mode with
    | .tcp => CfgFlag.stateful
    | .udp => CfgFlag.stateless), 0, 0, 0⟩

/-- `Trainer::Train`, up to the dictionary. -/
def trained (corpus : List (List UInt8)) (modelId : UInt8) : Except Result Dict :=
  if corpus = [] then .error .errInvalidArg else dictTrain corpus modelId

/-- `Dict::LoadFromBytes`, up to the dictionary. -/
def loaded (data : List UInt8) : Except Result Dict := if data = [] then .error .errInvalidArg else dictLoad data

section Made

theorem trained_sound {corpus : List (List UInt8)} {modelId : UInt8} {d : Dict} (h : trained corpus modelId = .ok d) :
    d.Sound := by
  unfold trained at h
  split at h
  · cases h
  · exact dictTrain_sound h

theorem loaded_sound {data : List UInt8} (hdata : Netc.Wholesome data) {d : Dict}
    (h : loaded data = .ok d) : d.Sound := by
  unfold loaded at h
  split at h
  · cases h
  · obtain ⟨hacc, rfl⟩ := dictLoad_eq_ok.mp h
    exact hacc.sound_iff.mpr hdata

end Made

/-! ### Packets through vectors -/

/-- A packet, with the vectors that it is compressed into and decompressed into. -/
structure Parcel where
  src : List UInt8
  dst : List UInt8
  out : List UInt8

/-- Every packet is compressed to at most eight bytes more, and decompressed to what it was. -/
def ParcelsArrive : Ctx → Ctx → List Parcel → Prop
  | _, _, [] => True
  | enc, dec, t :: ts => ∃ pkt enc' dec', compressVec enc t.src t.dst = .ok ((.ok, pkt), enc') ∧
      pkt.length ≤ t.src.length + headerSize ∧ decompressVec dec pkt t.out = .ok ((.ok, t.src), dec') ∧
      ParcelsArrive enc' dec' ts

section Sessions

variable {enc dec : Ctx}

/-- Two states are for long packets without bigrams. -/
theorem x2_long {src : List UInt8} {dstCap : ℕ} {p : Packet} (h : Format enc src dstCap p)
    (hx2 : PktFlag.has p.flags PktFlag.x2 = true) :
    256 ≤ src.length ∧ CfgFlag.has enc.flags CfgFlag.bigram = false := by
  cases h with
  | lz77 hs hl horder h =>
    obtain ⟨-, -, -, -, hno⟩ := lz77Flags_has _ hs.pktFlags_mem
    exact absurd (hno.symm.trans hx2) (by decide)
  | lz77x passthru hring hsize h =>
    have hno : PktFlag.has PktFlag.dictId PktFlag.x2 = false := by decide
    exact absurd (hno.symm.trans hx2) (by decide)
  | @tans d s w hd hs hm hfirst =>
    cases h10 : w.used10 with
    | true =>
      obtain ⟨hf, -⟩ := hm.ten_packet h10
      rw [hf, (codedFlags_has _ hs.pktFlags_mem _ _).1] at hx2
      cases hx2
    | false =>
      rw [(hm.coded_packet h10).1, (codedFlags_has _ hs.pktFlags_mem _ _).1] at hx2
      obtain ⟨-, hlen, hbigram, -⟩ := (hm.coded h10).x2 hx2
      rw [hs.length] at hlen
      exact ⟨hlen, hm.bigram.symm.trans hbigram⟩

/-- A packet that two states cannot spoil: even, short, or coded with bigrams. -/
def Kept (ctx : Ctx) (src : List UInt8) : Prop :=
  src.length % 2 = 0 ∨ src.length < 256 ∨ CfgFlag.has ctx.flags CfgFlag.bigram = true

theorem contextCfg_has (mode : Mode) (extraFlags m : UInt32) : CfgFlag.has (contextCfg mode extraFlags).flags m
    = (CfgFlag.has extraFlags m || CfgFlag.has CfgFlag.stats m || CfgFlag.has (match mode with
      | .tcp => CfgFlag.stateful
      | .udp => CfgFlag.stateless) m) := by
  simp only [contextCfg]
  rw [CfgFlag.has_or, CfgFlag.has_or]

/-- One packet. -/
theorem parcel_inStep (hwf : enc.Wf) (hwf' : dec.Wf) (h : InStep enc dec) (hm : enc.compactMode = false) {t : Parcel}
    (hlen : t.src.length ≤ maxPacketSize) (hkept : Kept enc t.src) :
    ∃ pkt enc' dec', compressVec enc t.src t.dst = .ok ((.ok, pkt), enc') ∧ pkt.length ≤ t.src.length + headerSize ∧
      decompressVec dec pkt t.out = .ok ((.ok, t.src), dec') ∧ enc'.Wf ∧ dec'.Wf ∧ InStep enc' dec' ∧ Kin enc enc' := by
  rcases compressVec_cases hwf t.src t.dst with ⟨hlong, -⟩ | ⟨-, cap, r, hroom, hr, hsent, hrun⟩
  · omega
  · have hmax := le_length_reserve t.out maxPacketSize
    have hsendable : Sendable enc t.src cap := by
      refine fun p hp => ⟨fun hx2 => ?_, fun hc => absurd (hm.symm.trans hc) (by decide)⟩
      obtain ⟨h256, hbigram⟩ := x2_long (plan_format hwf hp) hx2
      rcases hkept with heven | hshort | hb
      · exact x2Safe_even heven
      · omega
      · rw [hbigram] at hb
        cases hb
    obtain ⟨r', hr', hcode, hsize, hread, hstep, hwf₁, hwf₁'⟩ := @transfer_inStep enc dec
      ⟨t.src, buffer (reserve t.dst (compressBound t.src.length)), cap, 0, buffer (reserve t.out maxPacketSize),
        (reserve t.out maxPacketSize).length, 0⟩ hwf hwf' h ⟨hlen, hroom, by simp only; omega⟩ hsendable
    simp only [Transfer.receive, Transfer.sent, Transfer.send, ← hr] at hr' hsize hread hstep hwf₁
    obtain ⟨r₁, hr₁, hin⟩ := decompress_inBounds_of_wf hwf' (r.dst.read r.dstSize)
      (buffer (reserve t.out maxPacketSize))
      (reserve t.out maxPacketSize).length 0
    rw [hr', Except.ok.injEq] at hr₁
    have htop : r'.dst.top ≤ (reserve t.out maxPacketSize).length := by
      rw [hr₁]
      exact inBounds_top_le hin rfl
    refine ⟨r.dst.read r.dstSize, r.ctx, r'.ctx, hrun, ?_, ?_, hwf₁, hwf₁', hstep, ?_⟩
    · rw [Out.length_read, hsent.size]
      exact length_wire_le hwf hlen cap
    · simp only [decompressVec, hr', hcode]
      rw [shrink_ok htop (by omega), hread]
      rfl
    · rw [hr]
      exact kin_compress ..

theorem parcelsArrive : ∀ {ts : List Parcel} {enc dec : Ctx}, enc.Wf → dec.Wf → InStep enc dec →
    enc.compactMode = false →
    (∀ t ∈ ts, t.src.length ≤ maxPacketSize ∧ Kept enc t.src) → ParcelsArrive enc dec ts
  | [], _, _, _, _, _, _, _ => trivial
  | t :: ts, enc, dec, hwf, hwf', h, hm, hts => by
    obtain ⟨hlen, hkept⟩ := hts t (by simp)
    obtain ⟨pkt, enc', dec', h1, h2, h3, hwf₁, hwf₁', hstep, hk⟩ := parcel_inStep hwf hwf' h hm hlen hkept
    refine ⟨pkt, enc', dec', h1, h2, h3, parcelsArrive hwf₁ hwf₁' hstep (hk.compactMode.trans hm) fun u hu => ?_⟩
    obtain ⟨hlen', hkept'⟩ := hts u (by simp [hu])
    exact ⟨hlen', by rw [Kept, hk.flags]; exact hkept'⟩

/-- **Packets go through vectors.** Two `Context` objects of the same mode with one dictionary, which was
trained or loaded from a blob to rely on; the same adaptivity, and the eight-byte header. Whatever vectors
the calls are given, every packet of at most 65535 bytes that is even, shorter than 256 bytes or sent with
bigrams is compressed to at most eight bytes more and decompressed to what it was. -/
theorem sdk_delivers {pf pf' : Platform} {d : Dict} {mode : Mode} {extraFlags extraFlags' : UInt32}
    {junk junk' : ℕ → UInt8}
    (hd : (∃ corpus modelId, trained corpus modelId = .ok d) ∨ ∃ data, Netc.Wholesome data ∧ loaded data = .ok d)
    (henc : ctxCreate pf (some d) (contextCfg mode extraFlags) junk = some enc)
    (hdec : ctxCreate pf' (some d) (contextCfg mode extraFlags') junk' = some dec)
    (hs : CfgFlag.has extraFlags' CfgFlag.stateful = CfgFlag.has extraFlags CfgFlag.stateful)
    (hc : CfgFlag.has extraFlags CfgFlag.compactHdr = false) (hc' : CfgFlag.has extraFlags' CfgFlag.compactHdr = false)
    (ha : CfgFlag.has extraFlags' CfgFlag.adaptive = CfgFlag.has extraFlags CfgFlag.adaptive) (ts : List Parcel)
    (hts : ∀ t ∈ ts, t.src.length ≤ maxPacketSize ∧ Kept enc t.src) : ParcelsArrive enc dec ts := by
  have hsound : ∀ d', some d = some d' → d'.Sound := by
    rintro d' ⟨⟩
    rcases hd with ⟨corpus, modelId, h⟩ | ⟨data, hdata, h⟩
    · exact trained_sound h
    · exact loaded_sound hdata h
  have hcompact : ∀ m, CfgFlag.has (contextCfg mode m).flags CfgFlag.compactHdr = CfgFlag.has m CfgFlag.compactHdr := by
    intro m
    rw [contextCfg_has]
    cases mode <;> exact (Bool.or_false _).trans (Bool.or_false _)
  have hm : enc.compactMode = false := by rw [Ctx.compactMode, ctxCreate_flags henc, hcompact, hc]
  refine parcelsArrive (ctxCreate_wf hsound henc) (ctxCreate_wf hsound hdec)
    (ctxCreate_inStep henc hdec ?_ ?_ ?_ rfl) hm hts
  · rw [contextCfg_has, contextCfg_has, hs]
  · rw [hcompact, hcompact, hc, hc']
  · rw [contextCfg_has, contextCfg_has, ha]

/-- A packet of three bytes into empty vectors. -/
theorem sdk_delivers_small : ∃ d enc dec, trained [[0]] 1 = .ok d ∧
    ParcelsArrive enc dec [⟨[1, 2, 3], [], []⟩] ∧ enc.dict = some d ∧ dec.dict = some d := by
  obtain ⟨d, hd⟩ := @dictTrain_ok [[0]] 1 (by decide)
  have htrained : trained [[0]] 1 = .ok d := by rw [trained, if_neg (by decide), hd]
  have hcreate : ctxCreate scalarPlatform (some d) (contextCfg .tcp 0) (fun _ => 0)
      = some (newCtx (some d) (contextCfg .tcp 0).flags) := newCtx_create (some d) (by decide)
  refine ⟨d, newCtx (some d) (contextCfg .tcp 0).flags,
    newCtx (some d) (contextCfg .tcp 0).flags, htrained, ?_, rfl, rfl⟩
  exact @sdk_delivers _ _ scalarPlatform scalarPlatform d .tcp 0 0 (fun _ => 0) (fun _ => 0)
    (.inl ⟨_, _, htrained⟩) hcreate
    hcreate rfl (by decide) (by decide) rfl _ (by simp [Kept, maxPacketSize])

end Sessions

end Sdk
end Netc
