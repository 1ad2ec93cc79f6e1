/-
# The ways to compute the CRC

`netc_crc32` and `netc_crc32_continue` go byte by byte with a table. The table
is the one of the reflected polynomial 0xEDB88320, so that this is the CRC bit
by bit (`crc32_ieee`), and chunks chain, as the register is inverted on entry
and on exit. `ops->crc32_update` is this function on all levels but NEON, where
the CRC instructions update the register as it is, without the inversions. The
two agree if the register of ones comes back to itself after the bytes, which
takes a multiple of `2 ^ 32 - 1` bytes (`crc_paths_agree_iff`).

Key definitions: `crc32Bit`, `crc32Bitwise`, `crc32Continue`, `crc32UpdateNeon`, `bulkCrc32Update`.
Key theorems: `crc32Byte_eq`, `crc32_ieee`, `minimalPeriod_ones`, `crc_paths_agree_iff`.
-/
import Netc.Crc32
import Netc.Simd
import Netc.Lib.Lfsr

namespace Netc

/-! ### Bit by bit -/

/-- One bit into the register: the polynomial goes in when the bit and the lowest bit of the register differ. -/
def crc32Bit (crc : UInt32) (bit : Bool) : UInt32 :=
  if (crc &&& 1 == 1) ^^ bit then crc >>> 1 ^^^ 0xEDB88320 else crc >>> 1

/-- The register after the bits of the data, each byte low bit first. -/
def crc32Raw (crc : UInt32) (data : List UInt8) : UInt32 :=
  (data.flatMap fun b => Bits.ofNat 8 b.toNat).foldl crc32Bit crc

/-- The CRC bit by bit. -/
def crc32Bitwise (data : List UInt8) : UInt32 := crc32Raw 0xFFFFFFFF data ^^^ 0xFFFFFFFF

/-- `netc_crc32_continue` -/
def crc32Continue (prevCrc : UInt32) (data : List UInt8) : UInt32 :=
  data.foldl crc32Byte (prevCrc ^^^ 0xFFFFFFFF) ^^^ 0xFFFFFFFF

/-- The reflected polynomial. -/
def crc32Poly : BitVec 32 := 0xEDB88320#32

theorem toBitVec_crc32Bit (crc : UInt32) (bit : Bool) :
    (crc32Bit crc bit).toBitVec = Lfsr.feed crc32Poly crc.toBitVec bit := by
  have hlow : (crc &&& 1 == 1) = crc.toBitVec.getLsbD 0 := by
    rw [Bool.eq_iff_iff, beq_iff_eq, ← UInt32.toNat_inj, UInt32.toNat_and, BitVec.getLsbD, Nat.testBit_zero,
      decide_eq_true_iff]
    exact Iff.of_eq (congrArg (· = 1) (Nat.and_one_is_mod _))
  have hmix : (crc.toBitVec ^^^ (BitVec.ofBool bit).setWidth 32).getLsbD 0 = (crc.toBitVec.getLsbD 0 ^^ bit) := by
    cases bit <;> simp
  have hdown : (crc.toBitVec ^^^ (BitVec.ofBool bit).setWidth 32) >>> 1 = crc.toBitVec >>> 1 := by
    rw [BitVec.ushiftRight_xor_distrib]
    cases bit <;> simp
  rw [Lfsr.feed, Lfsr.shift, hmix, hdown, crc32Bit, hlow]
  cases crc.toBitVec.getLsbD 0 ^^ bit <;> simp [crc32Poly]

/-- The entries of the table are eight steps each. -/
theorem map_crc32Table : crc32Table.toList.map UInt32.toBitVec
    = (List.range 256).map fun i => (Lfsr.shift crc32Poly)^[8] (BitVec.ofNat 32 i) := by
  decide +kernel

theorem crc32Entry_eq (x : BitVec 8) : crc32Entry x = (Lfsr.shift crc32Poly)^[8] (x.setWidth 32) := by
  have hentry := congrArg (fun l => l[x.toNat]?) map_crc32Table
  simp only [List.getElem?_map, List.getElem?_range x.isLt, Option.map_eq_some_iff, Option.map_some] at hentry
  obtain ⟨e, he, hx⟩ := hentry
  rw [Array.getElem?_toList] at he
  rw [crc32Entry, Array.getD_eq_getD_getElem?, he, Option.getD_some, hx, BitVec.ofNat_toNat]

/-- **A byte by the table is eight bits.** -/
theorem crc32Byte_eq (crc : UInt32) (b : UInt8) : crc32Byte crc b = (Bits.ofNat 8 b.toNat).foldl crc32Bit crc := by
  apply UInt32.toBitVec_inj.mp
  have hbits : ((Bits.ofNat 8 b.toNat).foldl crc32Bit crc).toBitVec
      = (Bits.ofNat 8 b.toNat).foldl (Lfsr.feed crc32Poly) crc.toBitVec :=
    (List.foldl_hom UInt32.toBitVec fun c bit => (toBitVec_crc32Bit c bit).symm).symm
  rw [hbits, Lfsr.foldl_feed _ _ _ (by simp), Bits.length_ofNat, Bits.toNat_ofNat, Nat.mod_eq_of_lt (UInt8.toNat_lt b),
    Lfsr.shift_iterate_split, toBitVec_crc32Byte, Crc.step, crc32Entry_eq]
  -- the byte is in the low bits only
  have hindex : (crc.toBitVec ^^^ BitVec.ofNat 32 b.toNat).setWidth 8 = Crc.index crc.toBitVec b.toBitVec := by
    have hbyte : (BitVec.ofNat 32 b.toNat).setWidth 8 = b.toBitVec := by
      apply BitVec.eq_of_toNat_eq
      simp
    rw [BitVec.setWidth_xor, hbyte, Crc.index]
  have hhigh : (crc.toBitVec ^^^ BitVec.ofNat 32 b.toNat) >>> 8 = crc.toBitVec >>> 8 := by
    have hbyte : BitVec.ofNat 32 b.toNat >>> 8 = 0#32 := by
      apply BitVec.eq_of_toNat_eq
      have := UInt8.toNat_lt b
      simp [Nat.shiftRight_eq_div_pow]
      omega
    rw [BitVec.ushiftRight_xor_distrib, hbyte, BitVec.xor_zero]
  rw [hindex, hhigh]

theorem crc32Raw_eq (crc : UInt32) (data : List UInt8) : crc32Raw crc data = data.foldl crc32Byte crc := by
  rw [crc32Raw, List.foldl_flatMap]
  congr 1
  funext c b
  exact (crc32Byte_eq c b).symm

theorem crc32Raw_append (crc : UInt32) (a b : List UInt8) : crc32Raw crc (a ++ b) = crc32Raw (crc32Raw crc a) b := by
  rw [crc32Raw_eq, crc32Raw_eq, crc32Raw_eq, List.foldl_append]

/-- The register inverted on exit is inverted back on entry. -/
theorem crc32Continue_crc32 (a b : List UInt8) : crc32Continue (crc32 a) b = crc32 (a ++ b) := by
  rw [crc32Continue, crc32, crc32, UInt32.xor_assoc, UInt32.xor_self, UInt32.xor_zero, List.foldl_append]

theorem foldl_crc32Continue : ∀ (chunks : List (List UInt8)) (a : List UInt8),
    chunks.foldl crc32Continue (crc32 a) = crc32 (a ++ chunks.flatten)
  | [], a => by simp
  | c :: chunks, a => by
    rw [List.foldl_cons, crc32Continue_crc32, foldl_crc32Continue chunks, List.flatten_cons, List.append_assoc]

/-- **The IEEE CRC**: the table-driven CRC is the one bit by bit, and it chains over any number of chunks. -/
theorem crc32_ieee : (∀ d : List UInt8, crc32 d = crc32Bitwise d) ∧
    (∀ a b : List UInt8, crc32Continue (crc32 a) b = crc32 (a ++ b)) ∧
    ∀ (a : List UInt8) (chunks : List (List UInt8)),
      chunks.foldl crc32Continue (crc32 a) = crc32 (a ++ chunks.flatten) := by
  refine ⟨fun d => ?_, crc32Continue_crc32, fun a chunks => foldl_crc32Continue chunks a⟩
  rw [crc32, crc32Bitwise, crc32Raw_eq]

/-! ### The register of ones -/

/-- The registers `2 ^ i` steps from the top bit. -/
def crc32Powers : List (BitVec 32) :=
  [0x40000000#32, 0x20000000#32, 0x08000000#32, 0x00800000#32, 0x00008000#32, 0xEDB88320#32, 0xB1E6B092#32,
    0xA06A2517#32, 0xED627DAE#32, 0x88D14467#32, 0xD7BBFE6A#32, 0xEC447F11#32, 0x8E7EA170#32, 0x6427800E#32,
    0x4D47BAE0#32, 0x09FE548F#32, 0x83852D0F#32, 0x30362F1A#32, 0x7B5A9CC3#32, 0x31FEC169#32, 0x9FEC022A#32,
    0x6C8DEDC4#32, 0x15D6874D#32, 0x5FDE7A4E#32, 0xBAD90E37#32, 0x2E4E5EEF#32, 0x4EABA214#32, 0xA8A472C0#32,
    0x429A969E#32, 0x148D302A#32, 0xC40BA6D0#32, 0xC4E22C3C#32]

theorem crc32Powers_squares : Lfsr.squares crc32Poly crc32Powers = true := by decide +kernel

theorem shift_iterate_eq_jump {m : ℕ} (hm : m < 2 ^ 32) (v : BitVec 32) :
    (Lfsr.shift crc32Poly)^[m] v = Lfsr.jump crc32Poly crc32Powers m v := by
  have hpow : Lfsr.Powers crc32Poly 1 crc32Powers := Lfsr.powers_of_squares crc32Poly (by decide) crc32Powers_squares
  have hlen : crc32Powers.length = 32 := rfl
  rw [Lfsr.jump_eq crc32Poly hpow, hlen, Nat.mod_eq_of_lt hm, Nat.one_mul]

/-- The steps of the quotients by the primes that divide `2 ^ 32 - 1` do not bring the ones back, all its steps do. -/
theorem jump_ones : Lfsr.jump crc32Poly crc32Powers 4294967295 (BitVec.allOnes 32) = BitVec.allOnes 32 ∧
    ∀ p ∈ [3, 5, 17, 257, 65537],
      Lfsr.jump crc32Poly crc32Powers (4294967295 / p) (BitVec.allOnes 32) ≠ BitVec.allOnes 32 := by
  decide +kernel

theorem prime_dvd_period {p : ℕ} (hp : p.Prime) (h : p ∣ 4294967295) : p ∈ [3, 5, 17, 257, 65537] := by
  rw [show 4294967295 = 3 * 5 * 17 * 257 * 65537 by norm_num, hp.dvd_mul, hp.dvd_mul, hp.dvd_mul, hp.dvd_mul,
    Nat.prime_dvd_prime_iff_eq hp (by norm_num), Nat.prime_dvd_prime_iff_eq hp (by norm_num),
    Nat.prime_dvd_prime_iff_eq hp (by norm_num), Nat.prime_dvd_prime_iff_eq hp (by norm_num),
    Nat.prime_dvd_prime_iff_eq hp (by norm_num)] at h
  simpa [or_assoc] using h

/-- **The period of the ones** is the longest there is. -/
theorem minimalPeriod_ones : Function.minimalPeriod (Lfsr.shift crc32Poly) (BitVec.allOnes 32) = 4294967295 := by
  apply Lfsr.minimalPeriod_eq_of_primes
  · rw [shift_iterate_eq_jump (by norm_num)]
    exact jump_ones.1
  · intro p hp hdvd
    rw [shift_iterate_eq_jump (lt_of_le_of_lt (Nat.div_le_self _ _) (by norm_num))]
    exact jump_ones.2 p (prime_dvd_period hp hdvd)

theorem shift_iterate_ones_iff (n : ℕ) :
    (Lfsr.shift crc32Poly)^[8 * n] (BitVec.allOnes 32) = BitVec.allOnes 32 ↔ 4294967295 ∣ n := by
  have hperiod := @Function.isPeriodicPt_iff_minimalPeriod_dvd _ (Lfsr.shift crc32Poly) (BitVec.allOnes 32) (8 * n)
  rw [minimalPeriod_ones] at hperiod
  exact hperiod.trans (Nat.Coprime.dvd_mul_left (by norm_num))

/-! ### The update on each level -/

/-- `__crc32b`, `__crc32w` and `__crc32d`: the register over the `n` bytes of `v`, low byte first. -/
def acleCrc32 (n : ℕ) (crc : UInt32) (v : ℕ) : UInt32 := crc32Raw crc (Digits.leBytes n v)

/-- `netc_crc32_update_generic` -/
def crc32UpdateGeneric (crc : UInt32) (data : List UInt8) : UInt32 := crc32Continue crc data

/-- `netc_crc32_update_sse42` -/
def crc32UpdateSse42 (crc : UInt32) (data : List UInt8) : UInt32 := crc32UpdateGeneric crc data

/-- A loop of `netc_crc32_update_neon` over chunks of `n` bytes: the data left, and the register. -/
def neonChunks (n : ℕ) (data : List UInt8) (crc : UInt32) : List UInt8 × UInt32 :=
  countChunks n (fun crc chunk => acleCrc32 n crc (Digits.leNat chunk)) data.length data crc

/-- `netc_crc32_update_neon` where the processor has the CRC instructions. -/
def crc32UpdateNeon (aarch64 : Bool) (crc : UInt32) (data : List UInt8) : UInt32 :=
  -- chunks of eight bytes on 64-bit processors only
  let r := if aarch64 then neonChunks 8 data crc else (data, crc)
  let r := neonChunks 4 r.1 r.2
  r.1.foldl (fun crc b => acleCrc32 1 crc b.toNat) r.2

/-- `ops->crc32_update` -/
def bulkCrc32Update (aarch64 : Bool) (level : SimdLevel) (crc : UInt32) (data : List UInt8) : UInt32 :=
  match level with
  | .generic => crc32UpdateGeneric crc data
  | .sse42 => crc32UpdateSse42 crc data
  | .avx2 => crc32UpdateSse42 crc data
  | .neon => crc32UpdateNeon aarch64 crc data

theorem countChunks_crc32Raw {n : ℕ} : ∀ (k : ℕ) (data : List UInt8) (crc : UInt32),
    let r := countChunks n (fun crc chunk => acleCrc32 n crc (Digits.leNat chunk)) k data crc
    crc32Raw r.2 r.1 = crc32Raw crc data
  | 0, _, _ => rfl
  | k + 1, data, crc => by
    simp only [countChunks]
    split
    · next h =>
      rw [countChunks_crc32Raw k, acleCrc32, Digits.leBytes_leNat (by simpa using h), ← crc32Raw_append,
        List.take_append_drop]
    · rfl

/-- The NEON version is the bare register over the data. -/
theorem crc32UpdateNeon_eq (aarch64 : Bool) (crc : UInt32) (data : List UInt8) :
    crc32UpdateNeon aarch64 crc data = crc32Raw crc data := by
  have htail : ∀ (c : UInt32) (l : List UInt8), l.foldl (fun crc b => acleCrc32 1 crc b.toNat) c = crc32Raw c l := by
    intro c l
    rw [crc32Raw_eq]
    congr 1
    funext c b
    rw [acleCrc32, crc32Raw_eq, Digits.leBytes, Nat.mod_eq_of_lt (UInt8.toNat_lt b), UInt8.ofNat_toNat]
    rfl
  unfold crc32UpdateNeon
  simp only [htail, neonChunks, countChunks_crc32Raw]
  cases aarch64
  · rfl
  · exact countChunks_crc32Raw data.length data crc

theorem toBitVec_crc32Raw (crc : UInt32) (data : List UInt8) : (crc32Raw crc data).toBitVec
    = (data.flatMap fun b => Bits.ofNat 8 b.toNat).foldl (Lfsr.feed crc32Poly) crc.toBitVec :=
  (List.foldl_hom UInt32.toBitVec fun c bit => (toBitVec_crc32Bit c bit).symm).symm

/-- The generic version differs from the bare register by what the bytes make of the ones. -/
theorem toBitVec_crc32UpdateGeneric (crc : UInt32) (data : List UInt8) : (crc32UpdateGeneric crc data).toBitVec
    = (crc32Raw crc data).toBitVec ^^^
      ((Lfsr.shift crc32Poly)^[8 * data.length] (BitVec.allOnes 32) ^^^ BitVec.allOnes 32) := by
  have hlen : (data.flatMap fun b => Bits.ofNat 8 b.toNat).length = 8 * data.length := by
    simp [List.length_flatMap, Nat.mul_comm]
  rw [crc32UpdateGeneric, crc32Continue, ← crc32Raw_eq, UInt32.toBitVec_xor, toBitVec_crc32Raw, UInt32.toBitVec_xor,
    toBitVec_crc32Raw]
  rw [show (0xFFFFFFFF : UInt32).toBitVec = BitVec.allOnes 32 from rfl, Lfsr.foldl_feed_xor, hlen, BitVec.xor_assoc]

theorem neon_eq_generic_iff (aarch64 : Bool) (crc : UInt32) (data : List UInt8) :
    crc32UpdateNeon aarch64 crc data = crc32UpdateGeneric crc data ↔ 4294967295 ∣ data.length := by
  rw [← shift_iterate_ones_iff, crc32UpdateNeon_eq, ← UInt32.toBitVec_inj, toBitVec_crc32UpdateGeneric]
  constructor
  · intro h
    have hzero := (BitVec.xor_right_inj _).mp (h.symm.trans BitVec.xor_zero.symm)
    exact BitVec.xor_eq_zero_iff.mp hzero
  · intro h
    rw [h, BitVec.xor_self, BitVec.xor_zero]

/-- **One checksum on every level**: the NEON version, the SSE4.2 version and what the dispatch table selects give
the checksum of the generic version just for data whose length is a multiple of `2 ^ 32 - 1`. -/
theorem crc_paths_agree_iff (aarch64 : Bool) (crc : UInt32) (data : List UInt8) :
    (crc32UpdateNeon aarch64 crc data = crc32UpdateGeneric crc data ∧
      crc32UpdateSse42 crc data = crc32UpdateGeneric crc data ∧
      ∀ level level', bulkCrc32Update aarch64 level crc data = bulkCrc32Update aarch64 level' crc data) ↔
    2 ^ 32 - 1 ∣ data.length := by
  rw [show 2 ^ 32 - 1 = 4294967295 by norm_num, ← neon_eq_generic_iff aarch64 crc data]
  constructor
  · exact fun h => h.1
  · intro h
    have hlevel : ∀ level, bulkCrc32Update aarch64 level crc data = crc32UpdateGeneric crc data := by
      rintro (_ | _ | _ | _)
      · rfl
      · rfl
      · rfl
      · exact h
    exact ⟨h, rfl, fun level level' => (hlevel level).trans (hlevel level').symm⟩

/-- A single zero byte from register 0. -/
theorem neon_ne_generic_zero : crc32UpdateNeon true 0 [0] = 0 ∧ crc32UpdateGeneric 0 [0] = 0xD202EF8D ∧
    crc32UpdateNeon true 0 [0] ≠ crc32UpdateGeneric 0 [0] := by
  decide +kernel

end Netc
