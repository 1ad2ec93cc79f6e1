/-
# Run-length packets

`rle_encode` of `netc_compress.c` and its inverse `rle_decode` of `netc_decompress.c`, which reads the
payload of a passthrough packet with the RLE flag. The decoder accepts just the pairs of a count from 1 to
255 and a byte whose runs have the announced size together (`rleDecode_eq_ok`). The encoder writes such
pairs; it succeeds just when the buffer has room for them, and no payload from which the decoder makes the
same packet is shorter (`rle_shortest`).

Key definitions: `rleEncode`, `pairBytes`.
Key theorems: `rleEncodeLoop_eq`, `rleDecode_eq_ok`, `rle_shortest`.
-/
import Netc.Decompress
import Netc.Lib.Runs

namespace Netc

/-- The loop of `rle_encode`, with `out` in a buffer of `rleCap` bytes; an error is the `(size_t)-1`, with
what was written. -/
def rleEncodeLoop (rleCap : ℕ) : ℕ → List UInt8 → List UInt8 → Except (List UInt8) (List UInt8)
  | _, [], out => .ok out
  | 0, _ :: _, out => .error out
  | fuel + 1, sym :: src, out =>
    let run := 1 + Runs.lead 254 sym src
    if rleCap < out.length + 2 then .error out
    else rleEncodeLoop rleCap fuel (src.drop (run - 1)) (out ++ [UInt8.ofNat run, sym])

/-- `rle_encode` -/
def rleEncode (src : List UInt8) (rleCap : ℕ) : Except (List UInt8) (List UInt8) :=
  rleEncodeLoop rleCap src.length src []

/-- Runs as bytes: the count, then the symbol. -/
def pairBytes (ps : List (ℕ × UInt8)) : List UInt8 := ps.flatMap fun p => [UInt8.ofNat p.1, p.2]

section Pairs

theorem pairBytes_cons (n : ℕ) (b : UInt8) (ps : List (ℕ × UInt8)) :
    pairBytes ((n, b) :: ps) = UInt8.ofNat n :: b :: pairBytes ps := rfl

theorem length_pairBytes : ∀ ps : List (ℕ × UInt8), (pairBytes ps).length = 2 * ps.length
  | [] => rfl
  | p :: ps => by
    rw [pairBytes_cons, List.length_cons, List.length_cons, length_pairBytes ps, List.length_cons]
    omega

end Pairs

section Encode

variable {rleCap : ℕ}

/-- **What the encoder does**: all pairs in the order of the packet, or an error within the buffer where the
room ends. -/
theorem rleEncodeLoop_eq : ∀ (fuel : ℕ) (src out : List UInt8), src.length ≤ fuel → out.length ≤ rleCap →
    (out.length + 2 * (Runs.greedy 254 fuel src).length ≤ rleCap →
      rleEncodeLoop rleCap fuel src out = .ok (out ++ pairBytes (Runs.greedy 254 fuel src))) ∧
    (rleCap < out.length + 2 * (Runs.greedy 254 fuel src).length →
      ∃ part, rleEncodeLoop rleCap fuel src out = .error part ∧ part.length ≤ rleCap)
  | 0, src, out, hf, hout => by
    obtain rfl : src = [] := List.length_eq_zero_iff.mp (by omega)
    exact ⟨fun _ => by simp [rleEncodeLoop, Runs.greedy, pairBytes], fun h => by simp [Runs.greedy] at h; omega⟩
  | fuel + 1, [], out, _, hout =>
    ⟨fun _ => by simp [rleEncodeLoop, Runs.greedy, pairBytes], fun h => by simp [Runs.greedy] at h; omega⟩
  | fuel + 1, sym :: src, out, hf, hout => by
    rw [List.length_cons] at hf
    have hlen : (out ++ [UInt8.ofNat (1 + Runs.lead 254 sym src), sym]).length = out.length + 2 := by simp
    simp only [rleEncodeLoop, Runs.greedy, List.length_cons, pairBytes_cons]
    by_cases hroom : rleCap < out.length + 2
    · rw [if_pos hroom]
      exact ⟨fun h => by omega, fun _ => ⟨out, rfl, hout⟩⟩
    · obtain ⟨hok, herr⟩ := rleEncodeLoop_eq fuel (src.drop (Runs.lead 254 sym src))
        (out ++ [UInt8.ofNat (1 + Runs.lead 254 sym src), sym]) (by rw [List.length_drop]; omega) (by omega)
      rw [if_neg hroom, Nat.add_sub_cancel_left]
      refine ⟨fun h => ?_, fun h => herr (by omega)⟩
      rw [hok (by omega), List.append_assoc, Nat.add_comm 1]
      rfl

end Encode

section Decode

/-- **What the decoder accepts**: runs with counts from 1 to 255 that have the announced size together. -/
theorem rleDecode_eq_ok : ∀ (rle : List UInt8) (origSize : ℕ) (out res : List UInt8),
    rleDecode rle origSize out = (res, .ok) ↔ ∃ ps : List (ℕ × UInt8), rle = pairBytes ps ∧
      (∀ p ∈ ps, 1 ≤ p.1 ∧ p.1 ≤ 255) ∧ res = out ++ Runs.expand ps ∧ res.length = origSize
  | [], origSize, out, res => by
    rw [rleDecode]
    constructor
    · intro h
      split at h
      · cases h
      · next hlen =>
        obtain rfl := (Prod.mk.inj h).1
        exact ⟨[], rfl, by simp, by simp [Runs.expand], not_not.mp hlen⟩
    · rintro ⟨ps, hrle, -, rfl, hlen⟩
      obtain rfl : ps = [] := by
        have := congrArg List.length hrle
        rw [length_pairBytes] at this
        exact List.length_eq_zero_iff.mp (by simpa using this.symm)
      simp only [Runs.expand, List.flatMap_nil, List.append_nil] at hlen ⊢
      rw [if_neg (not_not.mpr hlen)]
  | [b], origSize, out, res => by
    rw [rleDecode]
    constructor
    · intro h
      cases h
    · rintro ⟨ps, hrle, -⟩
      have := congrArg List.length hrle
      rw [length_pairBytes, List.length_singleton] at this
      omega
  | count :: sym :: rle, origSize, out, res => by
    have hlt := UInt8.toNat_lt count
    have hzero : count = 0 ↔ count.toNat = 0 := UInt8.toNat_inj.symm
    have ih := rleDecode_eq_ok rle origSize (out ++ List.replicate count.toNat sym) res
    rw [rleDecode]
    constructor
    · intro h
      split at h
      · cases h
      · next hok =>
        have hpos : count.toNat ≠ 0 := fun h0 => hok (.inl (hzero.mpr h0))
        obtain ⟨ps, rfl, hps, hres, hlen⟩ := ih.mp h
        refine ⟨(count.toNat, sym) :: ps, by rw [pairBytes_cons, UInt8.ofNat_toNat], ?_, ?_, hlen⟩
        · intro p hp
          rcases List.mem_cons.mp hp with rfl | hp
          · exact ⟨by simp only; omega, by simp only; omega⟩
          · exact hps p hp
        · rw [hres, List.append_assoc]
          rfl
    · rintro ⟨ps, hrle, hps, hres, hlen⟩
      rcases ps with _ | ⟨⟨n, b⟩, ps⟩
      · cases hrle
      · rw [pairBytes_cons, List.cons.injEq, List.cons.injEq] at hrle
        obtain ⟨rfl, rfl, rfl⟩ := hrle
        have hn := hps (n, sym) (List.mem_cons_self ..)
        simp only at hn
        have hcount : (UInt8.ofNat n).toNat = n := by
          rw [UInt8.toNat_ofNat']
          omega
        have hexpand : res = out ++ List.replicate (UInt8.ofNat n).toNat sym ++ Runs.expand ps := by
          rw [hres, hcount, List.append_assoc]
          rfl
        have hsize := congrArg List.length hexpand
        rw [List.length_append, List.length_append, List.length_replicate, hlen] at hsize
        have hroom : ¬(UInt8.ofNat n = 0 ∨ origSize < out.length + (UInt8.ofNat n).toNat) := by
          rw [hzero]
          omega
        rw [if_neg hroom]
        exact ih.mpr ⟨ps, rfl, fun p hp => hps p (List.mem_cons_of_mem _ hp), hexpand, hlen⟩

end Decode

/-- **Run-length payloads are read back and are the shortest.** For every packet there is one payload that
`rle_encode` writes: it succeeds in every buffer that has room for it and fails in every other without
leaving it; the decoder of passthrough packets with the RLE flag makes the packet of it; and of no shorter
payload does it make the same packet. -/
theorem rle_shortest (src : List UInt8) : ∃ payload : List UInt8,
    (∀ rleCap, payload.length ≤ rleCap → rleEncode src rleCap = .ok payload) ∧
    (∀ rleCap, rleCap < payload.length → ∃ part, rleEncode src rleCap = .error part ∧ part.length ≤ rleCap) ∧
    (∀ hdr, PktFlag.has hdr.flags PktFlag.lz77 = false → PktFlag.has hdr.flags PktFlag.rle = true →
      hdr.originalSize = src.length → decodePassthru hdr payload = .ok (src, .ok)) ∧
    ∀ hdr other, PktFlag.has hdr.flags PktFlag.lz77 = false → PktFlag.has hdr.flags PktFlag.rle = true →
      decodePassthru hdr other = .ok (src, .ok) → payload.length ≤ other.length := by
  have hlen := length_pairBytes (Runs.greedy 254 src.length src)
  have hdec : ∀ hdr other, PktFlag.has hdr.flags PktFlag.lz77 = false → PktFlag.has hdr.flags PktFlag.rle = true →
      decodePassthru hdr other = .ok (rleDecode other hdr.originalSize []) := by
    intro hdr other hlz hrle
    rw [decodePassthru, hlz, hrle, if_neg (by simp), if_pos rfl]
  refine ⟨pairBytes (Runs.greedy 254 src.length src), fun rleCap hcap => ?_, fun rleCap hcap => ?_,
    fun hdr hlz hrle hsize => ?_, fun hdr other hlz hrle hok => ?_⟩
  · have h := (@rleEncodeLoop_eq rleCap src.length src [] (le_refl _) (Nat.zero_le _)).1
    rw [List.length_nil, Nat.zero_add, List.nil_append, ← hlen] at h
    exact h hcap
  · have h := (@rleEncodeLoop_eq rleCap src.length src [] (le_refl _) (Nat.zero_le _)).2
    rw [List.length_nil, Nat.zero_add, ← hlen] at h
    exact h hcap
  · rw [hdec hdr _ hlz hrle, hsize]
    refine congrArg Except.ok ((rleDecode_eq_ok _ _ _ _).mpr ⟨_, rfl, fun p hp => ?_, ?_, rfl⟩)
    · exact Runs.greedy_bounds src.length src p hp
    · rw [List.nil_append, Runs.expand_greedy _ _ (le_refl _)]
  · rw [hdec hdr other hlz hrle, Except.ok.injEq] at hok
    obtain ⟨ps, rfl, hps, hexpand, -⟩ := (rleDecode_eq_ok _ _ _ _).mp hok
    rw [List.nil_append] at hexpand
    have hcost := @Runs.cost_expand_le UInt8 _ 254 ps hps
    rw [← hexpand, Runs.cost] at hcost
    rw [hlen, length_pairBytes]
    omega

end Netc
