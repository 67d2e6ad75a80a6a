import Bg3le.Pak.HuffmanTheorems

/-!
# The tokens of a block of `inflate.cpp`

`codes` reads literals and copies as the format defines them, and stored and fixed blocks with them.
-/

namespace Bg3le
namespace Pak
namespace Inflate

open Deflate

/-- What a block comes to that makes the output `data`, with bits after it: it gives up when there is
no room for the data. -/
structure Makes (out : Output) (data : Bytes) (bits : List Bool) (r : Option (Bits × Output)) : Prop where
  fits : data.length ≤ out.size → ∃ s, r = some (s, { out with data := data }) ∧ Stands s bits
  full : out.size < data.length → r = none

/-! ## Tokens -/

/-- The table of lengths is the format's. -/
theorem lens_eq (code : Fin 29) : lens.getD code 0 = lengthBase code := by
  revert code
  decide

/-- The table of the lengths' extra bits is the format's. -/
theorem lext_eq (code : Fin 29) : lext.getD code 0 = lengthBits code := by
  revert code
  decide

/-- The table of distances is the format's. -/
theorem dists_eq (code : Fin 30) : dists.getD code 0 = distanceBase code := by
  revert code
  decide

/-- The table of the distances' extra bits is the format's. -/
theorem dext_eq (code : Fin 30) : dext.getD code 0 = distanceBits code := by
  revert code
  decide

theorem one_le_distance (c : Copy) : 1 ≤ c.distance := by
  unfold Copy.distance distanceBase
  omega

theorem one_le_length (c : Copy) : 1 ≤ c.length := by
  unfold Copy.length lengthBase
  split <;> omega

@[simp]
theorem length_copied (distance length : ℕ) (out : Bytes) :
    (copied distance length out).length = length := by
  unfold copied
  rw [List.length_map, List.length_range]

/-- A copy one byte longer copies the byte that far on, coming round where it overlaps itself. -/
theorem copied_succ (distance length : ℕ) (out : Bytes) :
    copied distance (length + 1) out =
      copied distance length out ++ [out.getD (out.length - distance + length % distance) 0] := by
  unfold copied
  rw [List.range_succ, List.map_append, List.map_singleton]

/-- Copying byte by byte repeats the last `distance` bytes. -/
theorem copyFrom_eq {distance : ℕ} {data : Bytes} (hpos : 1 ≤ distance) (hle : distance ≤ data.length)
    (length done : ℕ) :
    copyFrom distance length (data ++ copied distance done data) =
      data ++ copied distance (done + length) data := by
  induction length generalizing done with
  | zero => rfl
  | succ length ih =>
    have hnext : (data ++ copied distance done data).getD
        ((data ++ copied distance done data).length - distance) 0 =
        data.getD (data.length - distance + done % distance) 0 := by
      rw [List.length_append, length_copied]
      by_cases hfew : done < distance
      · rw [Nat.mod_eq_of_lt hfew, List.getD_append _ _ _ _ (by omega)]
        congr 1
        omega
      · have hmod : (done - distance) % distance = done % distance :=
          (Nat.mod_eq_sub_mod (by omega)).symm
        rw [List.getD_append_right _ _ _ _ (by omega),
          show data.length + done - distance - data.length = done - distance by omega]
        unfold copied
        rw [List.getD_eq_getElem _ _ (by rw [List.length_map, List.length_range]; omega), List.getElem_map,
          List.getElem_range, hmod]
    rw [copyFrom, hnext, List.append_assoc, ← copied_succ, ih, Nat.succ_add, Nat.add_succ]

/-- A token writes at least one byte. -/
theorem length_lt_append (t : Token) (out : Bytes) : out.length < (t.append out).length := by
  match t with
  | .literal b => simp [Token.append]
  | .copy c =>
    have hlength := one_le_length c
    simp [Token.append]
    omega

/-- Tokens only add bytes. -/
theorem length_le_foldl (tokens : List Token) (out : Bytes) :
    out.length ≤ (tokens.foldl Token.append out).length := by
  induction tokens generalizing out with
  | nil => exact le_rfl
  | cons t tokens ih => exact (length_lt_append t out).le.trans (ih _)

variable {literals distances : List ℕ}

/-- The codes of a block and the arrays that they fit in. -/
structure Codes (literals distances : List ℕ) : Prop where
  isCode_literals : IsCode literals
  isCode_distances : IsCode distances
  literals_le : literals.length ≤ 320
  distances_le : distances.length ≤ 320
  hasEnd : HasCode literals 256

/-- A copy's codes are read to the bytes it stands for. -/
theorem copy_eq (hcodes : Codes literals distances) {c : Copy} {bits : List Bool} {s : Bits}
    {out : Output} (hdist : HasCode distances c.distanceCode) (hle : c.distance ≤ out.data.length)
    (hs : Stands s (bitsOf (lengthBits c.lengthCode) c.lengthExtra ++ (codeword distances c.distanceCode ++
      (bitsOf (distanceBits c.distanceCode) c.distanceExtra ++ bits)))) :
    ∃ s', Stands s' bits ∧
      copy (construct distances) (257 + c.lengthCode) s out =
        if ((Token.copy c).append out.data).length ≤ out.size then
          some (s', { out with data := (Token.copy c).append out.data })
        else none := by
  obtain ⟨s₁, htake₁, hs₁⟩ := take_eq hs c.lengthExtra.isLt
  obtain ⟨s₂, hdecode, hs₂⟩ := decode_eq hcodes.isCode_distances hcodes.distances_le hdist hs₁
  obtain ⟨s₃, htake₂, hs₃⟩ := take_eq hs₂ c.distanceExtra.isLt
  refine ⟨s₃, hs₃, ?_⟩
  have hcopied : copyFrom c.distance c.length out.data = (Token.copy c).append out.data := by
    have hcopy := copyFrom_eq (one_le_distance c) hle c.length 0
    rwa [Nat.zero_add, show copied c.distance 0 out.data = [] from rfl, List.append_nil] at hcopy
  have hlength : ((Token.copy c).append out.data).length = out.data.length + c.length := by
    simp [Token.append]
  unfold copy
  rw [Nat.add_sub_cancel_left, if_neg (Nat.not_le.mpr c.lengthCode.isLt), lext_eq, lens_eq, htake₁,
    hlength, ← hcopied]
  simp only [Option.bind_eq_bind, Option.bind_some]
  rw [hdecode, Option.bind_some, if_neg (Nat.not_le.mpr c.distanceCode.isLt), dext_eq, dists_eq, htake₂,
    Option.bind_some]
  show (if out.data.length < c.distance then none
    else if out.size < out.data.length + c.length then none
    else some (s₃, { out with data := copyFrom c.distance c.length out.data })) = _
  rw [if_neg (Nat.not_lt.mpr hle)]
  by_cases hroom : out.data.length + c.length ≤ out.size
  · rw [if_neg (Nat.not_lt.mpr hroom), if_pos hroom]
  · rw [if_pos (Nat.lt_of_not_le hroom), if_neg hroom]

/-- A byte is put where there is room for it. -/
theorem put_eq (out : Output) (b : UInt8) :
    out.put b.toNat =
      if out.data.length + 1 ≤ out.size then some { out with data := out.data ++ [b] } else none := by
  have hb : b.toNat.toUInt8 = b := UInt8.ofNat_toNat
  unfold Output.put
  rw [hb]
  by_cases hroom : out.data.length + 1 ≤ out.size
  · rw [if_neg (by omega), if_pos hroom]
  · rw [if_pos (by omega), if_neg hroom]

/-- A round of `codes` reads a token and writes it when there is room. -/
theorem codesFrom_token (hcodes : Codes literals distances) {t : Token} {bits : List Bool} {s : Bits}
    {out : Output} (hvalid : t.Valid literals distances out.data)
    (hs : Stands s (t.bits literals distances ++ bits)) (rounds : ℕ) :
    ∃ s', Stands s' bits ∧
      codesFrom (construct literals) (construct distances) (rounds + 1) s out =
        if (t.append out.data).length ≤ out.size then
          codesFrom (construct literals) (construct distances) rounds s'
            { out with data := t.append out.data }
        else none := by
  match t with
  | .literal b =>
    obtain ⟨s', hdecode, hs'⟩ := decode_eq hcodes.isCode_literals hcodes.literals_le hvalid hs
    refine ⟨s', hs', ?_⟩
    have hlength : ((Token.literal b).append out.data).length = out.data.length + 1 := by
      simp [Token.append]
    rw [codesFrom, hdecode, hlength]
    simp only [Option.bind_eq_bind, Option.bind_some]
    rw [if_pos b.toNat_lt, put_eq]
    by_cases hroom : out.data.length + 1 ≤ out.size
    · rw [if_pos hroom, if_pos hroom, Option.bind_some]
      rfl
    · rw [if_neg hroom, if_neg hroom, Option.bind_none]
  | .copy c =>
    obtain ⟨hlit, hdist, hle⟩ := hvalid
    unfold Token.bits at hs
    rw [List.append_assoc, List.append_assoc, List.append_assoc] at hs
    obtain ⟨s₁, hdecode, hs₁⟩ := decode_eq hcodes.isCode_literals hcodes.literals_le hlit hs
    obtain ⟨s', hs', hcopy⟩ := copy_eq hcodes hdist hle hs₁
    refine ⟨s', hs', ?_⟩
    rw [codesFrom, hdecode]
    simp only [Option.bind_eq_bind, Option.bind_some]
    rw [if_neg (by omega), if_neg (by omega), hcopy]
    by_cases hroom : ((Token.copy c).append out.data).length ≤ out.size
    · rw [if_pos hroom, if_pos hroom, Option.bind_some]
    · rw [if_neg hroom, if_neg hroom, Option.bind_none]

/-- `codes` reads the tokens of a block up to its end. -/
theorem codesFrom_tokens (hcodes : Codes literals distances) {tokens : List Token} {bits : List Bool}
    {s : Bits} {out : Output} {rounds : ℕ} (hvalid : TokensValid literals distances out.data tokens)
    (hroom : out.data.length ≤ out.size) (hrounds : out.size - out.data.length < rounds)
    (hs : Stands s (tokenBits literals distances tokens ++ bits)) :
    Makes out (tokens.foldl Token.append out.data) bits
      (codesFrom (construct literals) (construct distances) rounds s out) := by
  induction tokens generalizing s out rounds with
  | nil =>
    obtain ⟨rounds, rfl⟩ := Nat.exists_eq_succ_of_ne_zero (Nat.ne_of_gt (Nat.zero_lt_of_lt hrounds))
    obtain ⟨s', hdecode, hs'⟩ := decode_eq hcodes.isCode_literals hcodes.literals_le hcodes.hasEnd hs
    have hend : codesFrom (construct literals) (construct distances) (rounds + 1) s out =
        some (s', out) := by
      rw [codesFrom, hdecode]
      rfl
    exact ⟨fun _ => ⟨s', hend, hs'⟩, fun hfull => absurd hroom (Nat.not_le.mpr hfull)⟩
  | cons t tokens ih =>
    obtain ⟨rounds, rfl⟩ := Nat.exists_eq_succ_of_ne_zero (Nat.ne_of_gt (Nat.zero_lt_of_lt hrounds))
    unfold tokenBits at hs
    rw [List.flatMap_cons, List.append_assoc, List.append_assoc] at hs
    obtain ⟨s₁, hs₁, hstep⟩ := codesFrom_token hcodes hvalid.1 hs rounds
    have hmore := length_lt_append t out.data
    rw [← List.append_assoc] at hs₁
    rw [hstep, List.foldl_cons]
    by_cases hfits : (t.append out.data).length ≤ out.size
    · rw [if_pos hfits]
      have hless : out.size - (t.append out.data).length < rounds := by omega
      have hrest : Makes { out with data := t.append out.data }
          (tokens.foldl Token.append (t.append out.data)) bits
          (codesFrom (construct literals) (construct distances) rounds s₁
            { out with data := t.append out.data }) := ih hvalid.2 hfits hless hs₁
      exact ⟨hrest.fits, hrest.full⟩
    · have hle := length_le_foldl tokens (t.append out.data)
      rw [if_neg hfits]
      exact ⟨fun hle' => absurd (hle.trans hle') hfits, fun _ => rfl⟩

/-- The codes of tokens are read to the bytes they stand for; the induction is on the tokens. -/
theorem codes_tokens (hcodes : Codes literals distances) {tokens : List Token} {bits : List Bool}
    {s : Bits} {out : Output} (hvalid : TokensValid literals distances out.data tokens)
    (hroom : out.data.length ≤ out.size) (hs : Stands s (tokenBits literals distances tokens ++ bits)) :
    Makes out (tokens.foldl Token.append out.data) bits
      (codes s out (construct literals) (construct distances)) :=
  codesFrom_tokens hcodes hvalid hroom (Nat.lt_succ_self _) hs

/-! ## Stored and fixed blocks -/

/-- The complement of a length of sixteen bits. -/
theorem xor_all {len : ℕ} (hlen : len < 2 ^ 16) : len ^^^ 0xffff = 2 ^ 16 - 1 - len := by
  have hnot := BitVec.toNat_not (x := BitVec.ofNat 16 len)
  rw [← BitVec.xor_allOnes, BitVec.toNat_xor, BitVec.toNat_allOnes, BitVec.toNat_ofNat,
    Nat.mod_eq_of_lt hlen] at hnot
  exact hnot

/-- Two bytes put together are the number they were taken from. -/
theorem two_bytes {v : ℕ} (hv : v < 2 ^ 16) :
    (UInt8.ofNat (v % 256)).toNat ||| (UInt8.ofNat (v / 256)).toNat <<< 8 = v := by
  have hlow : (UInt8.ofNat (v % 256)).toNat = v % 256 := by
    rw [UInt8.toNat_ofNat', Nat.mod_mod]
  have hhigh : (UInt8.ofNat (v / 256)).toNat = v / 256 := by
    rw [UInt8.toNat_ofNat', Nat.mod_eq_of_lt (by omega)]
  have hor : v % 256 ||| (v / 256) <<< 8 = v % 256 + v / 256 * 2 ^ 8 :=
    or_shiftLeft (show v % 256 < 2 ^ 8 from Nat.mod_lt v (by omega)) (v / 256)
  rw [hlow, hhigh, hor]
  omega

/-- The two lengths of a stored block. -/
def storedHead (len : ℕ) : Bytes :=
  [UInt8.ofNat (len % 256), UInt8.ofNat (len / 256), UInt8.ofNat ((2 ^ 16 - 1 - len) % 256),
    UInt8.ofNat ((2 ^ 16 - 1 - len) / 256)]

/-- A stored block's bits are its padding, its lengths and its bytes. -/
theorem stored_bits (padding : List Bool) (data : Bytes) (bits : List Bool) :
    (Block.stored padding data).body ++ bits =
      padding ++ (toBits (storedHead data.length ++ data) ++ bits) := by
  have hbody : (Block.stored padding data).body =
      padding ++ bitsOf 16 data.length ++ bitsOf 16 (2 ^ 16 - 1 - data.length) ++ toBits data := rfl
  rw [hbody, bitsOf_sixteen, bitsOf_sixteen, storedHead]
  simp

/-- A stored block is copied from the next whole byte on. -/
theorem stored_body {padding : List Bool} {data : Bytes} {bits : List Bool} {s : Bits} {out : Output}
    (hpadding : padding.length < 8) (hdata : data.length < 2 ^ 16) (hwhole : 8 ∣ bits.length)
    (hs : Stands s ((Block.stored padding data).body ++ bits)) :
    Makes out (out.data ++ data) bits (stored s out) := by
  rw [stored_bits] at hs
  have hlength := hs.length
  have hcount := hs.count_lt
  rw [List.length_append, List.length_append, length_toBits] at hlength
  have hsame := List.append_inj hs.eq_bits (by rw [length_bitsOf]; omega)
  obtain ⟨rest, hrest, hafter⟩ := eq_append_of_toBits hsame.2
  unfold stored
  rw [hrest, storedHead]
  simp only [List.cons_append, List.nil_append]
  rw [two_bytes hdata, two_bytes (by omega), xor_all hdata, if_neg (not_not.mpr rfl),
    if_neg (by rw [List.length_append]; omega), List.drop_left, List.take_left]
  refine ⟨fun hfits => ⟨⟨rest, 0, 0⟩, ?_, ?_⟩, fun hfull => ?_⟩
  · rw [List.length_append] at hfits
    exact if_neg (Nat.not_lt.mpr hfits)
  · rw [← hafter]
    exact stands_start rest
  · rw [List.length_append] at hfull
    exact if_pos hfull

theorem isCode_fixedLit : IsCode fixedLit := ⟨by decide +kernel, by decide +kernel⟩

theorem isCode_fixedDist : IsCode fixedDist := ⟨by decide +kernel, by decide +kernel⟩

/-- The fixed literal lengths are the format's. -/
theorem fixedLit_eq : fixedLit = fixedLiterals := by decide +kernel

/-- The fixed tables code every token. -/
theorem codes_fixed : Codes fixedLit fixedDist :=
  ⟨isCode_fixedLit, isCode_fixedDist, by decide +kernel, by decide +kernel,
    show fixedLit.getD 256 0 ≠ 0 by decide +kernel⟩

/-- A block of fixed codes is read to the bytes it stands for. -/
theorem fixedBlock_body {tokens : List Token} {bits : List Bool} {s : Bits} {out : Output}
    (hvalid : TokensValid fixedLiterals fixedDistances out.data tokens)
    (hroom : out.data.length ≤ out.size) (hs : Stands s ((Block.fixed tokens).body ++ bits)) :
    Makes out (tokens.foldl Token.append out.data) bits (fixedBlock s out) := by
  rw [← fixedLit_eq] at hvalid
  unfold Block.body at hs
  rw [← fixedLit_eq] at hs
  exact codes_tokens codes_fixed hvalid hroom hs

end Inflate
end Pak
end Bg3le
