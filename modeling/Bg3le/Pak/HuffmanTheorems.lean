import Bg3le.Library.Deflate
import Bg3le.Pak.Inflate

/-!
# The bits and the codes of `inflate.cpp`

`take` takes the bits of the input off one by one, and `decode` finds the symbol whose canonical
code comes next.
-/

namespace Bg3le
namespace Pak
namespace Inflate

open Deflate

/-! ## Taking bits -/

/-- The bits that are still to be taken. Less than a byte of them is in the buffer. -/
structure Stands (s : Bits) (bits : List Bool) : Prop where
  buffer_lt : s.buffer < 2 ^ s.count
  count_lt : s.count < 8
  eq_bits : bitsOf s.count s.buffer ++ toBits s.rest = bits

theorem stands_start (input : Bytes) : Stands ⟨input, 0, 0⟩ (toBits input) :=
  ⟨by simp, by simp, rfl⟩

theorem Stands.length {s : Bits} {bits : List Bool} (h : Stands s bits) :
    s.count + 8 * s.rest.length = bits.length := by
  rw [← h.eq_bits, List.length_append, length_bitsOf, length_toBits]

theorem or_shiftLeft {value count : ℕ} (hvalue : value < 2 ^ count) (b : ℕ) :
    value ||| b <<< count = value + b * 2 ^ count := by
  rw [Nat.or_comm, ← Nat.shiftLeft_add_eq_or_of_lt hvalue, Nat.shiftLeft_eq, Nat.add_comm]

/-- Enough bits are put in the buffer when there are as many. -/
theorem fill_eq {need value count : ℕ} {rest : Bytes} (hvalue : value < 2 ^ count)
    (hcount : count < need + 8) (hneed : need ≤ count + 8 * rest.length) :
    ∃ s, fill need value count rest = some s ∧ s.buffer < 2 ^ s.count ∧ need ≤ s.count ∧
      s.count < need + 8 ∧
      bitsOf s.count s.buffer ++ toBits s.rest = bitsOf count value ++ toBits rest := by
  induction rest generalizing value count with
  | nil =>
    rw [List.length_nil] at hneed
    exact ⟨⟨[], value, count⟩, if_neg (by omega), hvalue, by omega, hcount, rfl⟩
  | cons b rest ih =>
    unfold fill
    by_cases hfew : count < need
    · have hglue := bitsOf_glue hvalue 8 b.toNat
      have hlt : value + b.toNat * 2 ^ count < 2 ^ (count + 8) := by
        have hb : b.toNat + 1 ≤ 2 ^ 8 := b.toNat_lt
        have hmul := Nat.mul_le_mul_right (2 ^ count) hb
        rw [pow_add, Nat.mul_comm (2 ^ count)]
        rw [Nat.add_mul] at hmul
        omega
      rw [List.length_cons] at hneed
      rw [if_pos hfew, or_shiftLeft hvalue]
      obtain ⟨s, hs, hbuffer, hle, hlt, hbits⟩ := ih hlt (by omega) (by omega)
      refine ⟨s, hs, hbuffer, hle, hlt, ?_⟩
      rw [hbits, hglue, toBits_cons, List.append_assoc]
    · rw [if_neg hfew]
      exact ⟨⟨b :: rest, value, count⟩, rfl, hvalue, Nat.le_of_not_lt hfew, hcount, rfl⟩

/-- `take` takes the next bits as a number. -/
theorem take_eq {s : Bits} {need v : ℕ} {bits : List Bool} (hs : Stands s (bitsOf need v ++ bits))
    (hv : v < 2 ^ need) : ∃ s', s.take need = some (v, s') ∧ Stands s' bits := by
  have hlength := hs.length
  rw [List.length_append, length_bitsOf] at hlength
  obtain ⟨t, ht, hbuffer, hle, hlt, hbits⟩ :=
    fill_eq hs.buffer_lt (Nat.lt_add_left need hs.count_lt)
      (show need ≤ s.count + 8 * s.rest.length by omega)
  have hsplit : bitsOf t.count t.buffer =
      bitsOf need t.buffer ++ bitsOf (t.count - need) (t.buffer / 2 ^ need) := by
    rw [← bitsOf_add, Nat.add_sub_cancel' hle]
  rw [hs.eq_bits, hsplit, List.append_assoc] at hbits
  have hsame := List.append_inj hbits (by rw [length_bitsOf, length_bitsOf])
  have hvalue : t.buffer % 2 ^ need = v := by
    apply eq_of_bitsOf_eq (Nat.mod_lt _ (Nat.two_pow_pos need)) hv
    rw [bitsOf_mod, hsame.1]
  have hmask : t.buffer &&& (1 <<< need - 1) = v := by
    rw [Nat.one_shiftLeft, Nat.and_two_pow_sub_one_eq_mod, hvalue]
  refine ⟨⟨t.rest, t.buffer >>> need, t.count - need⟩, ?_, ?_, ?_, ?_⟩
  · unfold Bits.take
    rw [ht, Option.map_some, hmask]
  · show t.buffer >>> need < 2 ^ (t.count - need)
    rw [Nat.shiftRight_eq_div_pow]
    apply Nat.div_lt_of_lt_mul
    rw [← pow_add, Nat.add_sub_cancel' hle]
    exact hbuffer
  · show t.count - need < 8
    omega
  · show bitsOf (t.count - need) (t.buffer >>> need) ++ toBits t.rest = bits
    rw [Nat.shiftRight_eq_div_pow, hsame.2]

/-! ## The tables -/

theorem getD_set (l : List ℕ) (i v j : ℕ) :
    (l.set i v).getD j 0 = if i = j ∧ i < l.length then v else l.getD j 0 := by
  rw [List.getD_eq_getElem?_getD, List.getD_eq_getElem?_getD, List.getElem?_set]
  by_cases hij : i = j
  · subst hij
    by_cases hi : i < l.length
    · simp [hi]
    · simp [hi]
  · simp [hij]

theorem getD_set_self {l : List ℕ} {i : ℕ} (hi : i < l.length) (v : ℕ) : (l.set i v).getD i 0 = v := by
  rw [getD_set, if_pos ⟨rfl, hi⟩]

theorem getD_set_ne {i j : ℕ} (hij : i ≠ j) (l : List ℕ) (v : ℕ) :
    (l.set i v).getD j 0 = l.getD j 0 := by
  rw [getD_set, if_neg fun h => hij h.1]

theorem countLengths_from {lengths count : List ℕ} (hcount : count.length = 16)
    (hle : ∀ len ∈ lengths, len ≤ 15) (len : ℕ) :
    (lengths.foldl (fun count len => count.set len (count.getD len 0 + 1)) count).getD len 0 =
      count.getD len 0 + lengths.count len := by
  induction lengths generalizing count with
  | nil => rfl
  | cons l lengths ih =>
    have hl : l < count.length := by
      have hle := hle l List.mem_cons_self
      omega
    rw [List.foldl_cons, ih (by rw [List.length_set, hcount])
      fun len hlen => hle len (List.mem_cons_of_mem l hlen), List.count_cons]
    by_cases hsame : l = len
    · subst hsame
      rw [getD_set_self hl, if_pos (beq_self_eq_true l)]
      omega
    · rw [getD_set_ne hsame, if_neg (by rwa [beq_iff_eq])]
      rfl

/-- `Count` is how often each length occurs. -/
theorem getD_countLengths {lengths : List ℕ} (hle : ∀ len ∈ lengths, len ≤ 15) (len : ℕ) :
    (countLengths lengths).getD len 0 = lengths.count len := by
  have hzero : (List.replicate (maxBits + 1) 0).getD len 0 = 0 := by
    rw [List.getD_eq_getElem?_getD, List.getElem?_replicate]
    split <;> rfl
  have hlength : (List.replicate (maxBits + 1) 0).length = 16 := rfl
  have hcount := countLengths_from hlength hle len
  rwa [hzero, Nat.zero_add] at hcount

/-- The place of the first symbol of a length: as many as have shorter codes. -/
def offset (lengths : List ℕ) (len : ℕ) : ℕ := lengths.countP fun l => l ≠ 0 ∧ l < len

theorem offset_succ (lengths : List ℕ) (len : ℕ) :
    offset lengths (len + 1) = offset lengths len + lengthCount lengths len := by
  unfold offset lengthCount
  induction lengths with
  | nil => simp
  | cons l lengths ih =>
    rw [List.countP_cons, List.countP_cons, List.count_cons, ih]
    by_cases hl : l = len
    · by_cases hzero : len = 0
      · simp [hl, hzero]
      · simp [hl, hzero]
        omega
    · have hsame : (l ≠ 0 ∧ l < len + 1) ↔ (l ≠ 0 ∧ l < len) := by omega
      simp only [hsame, beq_iff_eq, hl, if_false, Nat.add_zero]
      omega

/-- No length is below one. -/
theorem offset_one (lengths : List ℕ) : offset lengths 1 = 0 := by
  apply List.countP_eq_zero.mpr
  intro l _
  simp

theorem offset_mono (lengths : List ℕ) {a b : ℕ} (hab : a < b) :
    offset lengths a + lengthCount lengths a ≤ offset lengths b := by
  induction b, hab using Nat.le_induction with
  | base => rw [offset_succ]
  | succ b hb ih =>
    rw [offset_succ]
    omega

theorem offset_le (lengths : List ℕ) (len : ℕ) : offset lengths len ≤ lengths.length :=
  List.countP_le_length

theorem length_offsetsUpTo (count : List ℕ) (n : ℕ) : (offsetsUpTo count n).length = 17 := by
  unfold offsetsUpTo
  induction n with
  | zero => rfl
  | succ n ih => rw [List.range'_1_concat, List.foldl_append, List.foldl_cons, List.foldl_nil,
      List.length_set, ih]

/-- The offsets of the lengths up to one are right once its round is over. -/
theorem getD_offsetsUpTo {lengths : List ℕ} (hle : ∀ len ∈ lengths, len ≤ 15) {n : ℕ} (hn : n ≤ 15)
    {len : ℕ} (hlen : len ≤ n + 1) :
    (offsetsUpTo (countLengths lengths) n).getD len 0 = offset lengths len := by
  induction n generalizing len with
  | zero =>
    have hnone : offset lengths len = 0 := by
      have hmono := (offset_mono lengths (Nat.lt_succ_of_le hlen)).trans_eq (offset_succ lengths 1)
      match len with
      | 0 => simp [offset]
      | 1 => exact offset_one lengths
    match len with
    | 0 | 1 => rw [hnone]; rfl
  | succ n ih =>
    have hlength := length_offsetsUpTo (countLengths lengths) n
    unfold offsetsUpTo at ih hlength ⊢
    rw [List.range'_1_concat, List.foldl_append, List.foldl_cons, List.foldl_nil, Nat.add_comm 1 n]
    by_cases hlast : len = n + 2
    · subst hlast
      rw [getD_set_self (by omega), ih (by omega) le_rfl, getD_countLengths hle, offset_succ _ (n + 1)]
      rfl
    · rw [getD_set_ne (Ne.symm hlast), ih (by omega) (by omega)]

/-- The place of a symbol among the symbols in the order of their codes. -/
def slot (lengths : List ℕ) (symbol : ℕ) : ℕ :=
  offset lengths (lengths.getD symbol 0) + (lengths.take symbol).count (lengths.getD symbol 0)

theorem slot_lt {lengths : List ℕ} {symbol : ℕ} (h : HasCode lengths symbol) :
    slot lengths symbol < offset lengths (lengths.getD symbol 0 + 1) := by
  rw [offset_succ]
  exact Nat.add_lt_add_left h.rank_lt _

/-- No two symbols have one place. -/
theorem slot_ne {lengths : List ℕ} {i j : ℕ} (hi : HasCode lengths i) (hj : HasCode lengths j)
    (hij : i < j) : slot lengths i ≠ slot lengths j := by
  have hslot := slot_lt hi
  have hslot' := slot_lt hj
  rw [offset_succ] at hslot hslot'
  rcases Nat.lt_trichotomy (lengths.getD i 0) (lengths.getD j 0) with hlt | heq | hgt
  · have hmono := offset_mono lengths hlt
    unfold slot at hslot' ⊢
    unfold slot at hslot
    omega
  · -- within a length, the symbols before `j` are those before `i`, `i` itself and more
    have hsplit : (lengths.take j).take (i + 1) = lengths.take i ++ [lengths.getD i 0] := by
      rw [List.take_take, Nat.min_eq_left hij, List.take_succ_eq_append_getElem hi.lt, hi.getD_eq]
      rfl
    have hcount := (List.take_sublist (i + 1) (lengths.take j)).count_le (lengths.getD i 0)
    rw [hsplit, List.count_append, List.count_singleton_self] at hcount
    unfold slot
    rw [← heq]
    omega
  · have hmono := offset_mono lengths hgt
    unfold slot at hslot hslot' ⊢
    omega

/-- What the last loop of `construct` keeps: the next place of each length, and the symbols that
were placed. -/
structure Placed (lengths : List ℕ) (done : ℕ) (offsets symbol : List ℕ) : Prop where
  length_offsets : offsets.length = 17
  length_symbol : symbol.length = 320
  next : ∀ len ≤ 15, len ≠ 0 → offsets.getD len 0 = offset lengths len + (lengths.take done).count len
  placed : ∀ i < done, HasCode lengths i → symbol.getD (slot lengths i) 0 = i

theorem Placed.step {lengths : List ℕ} {done : ℕ} {offsets symbol : List ℕ}
    (hle : ∀ len ∈ lengths, len ≤ 15) (hmany : lengths.length ≤ 320) (hdone : done < lengths.length)
    (h : Placed lengths done offsets symbol) :
    Placed lengths (done + 1) (place offsets symbol (lengths.getD done 0) done).1
      (place offsets symbol (lengths.getD done 0) done).2 := by
  have htake : lengths.take (done + 1) = lengths.take done ++ [lengths.getD done 0] := by
    rw [List.take_succ_eq_append_getElem hdone, List.getD_eq_getElem lengths 0 hdone]
  -- a symbol with a code takes the next place of its length; one without takes none
  by_cases hcode : HasCode lengths done
  · have hlen : lengths.getD done 0 ≤ 15 := hle _ hcode.mem
    have hnext := h.next _ hlen hcode
    have hroom : slot lengths done < symbol.length := by
      rw [h.length_symbol]
      exact (slot_lt hcode).trans_le ((offset_le _ _).trans hmany)
    unfold place
    rw [if_pos (show lengths.getD done 0 ≠ 0 from hcode), hnext]
    refine ⟨by rw [List.length_set, h.length_offsets], by rw [List.length_set, h.length_symbol],
      ?_, ?_⟩
    · intro len hle hzero
      rw [htake, List.count_append]
      by_cases hsame : lengths.getD done 0 = len
      · rw [hsame, getD_set_self (by rw [h.length_offsets]; omega), List.count_singleton_self]
        rfl
      · rw [getD_set_ne hsame, h.next len hle hzero, List.count_singleton, if_neg (by simpa using hsame)]
        rfl
    · intro i hi hcode'
      by_cases hsame : i = done
      · subst hsame
        exact getD_set_self hroom i
      · exact (getD_set_ne (slot_ne hcode' hcode (by omega)).symm symbol done).trans
          (h.placed i (by omega) hcode')
  · unfold place
    rw [if_neg (show ¬lengths.getD done 0 ≠ 0 from hcode)]
    refine ⟨h.length_offsets, h.length_symbol, ?_, ?_⟩
    · intro len hle hzero
      have hne : lengths.getD done 0 ≠ len := fun h => hcode fun hnone => hzero (h.symm.trans hnone)
      rw [htake, List.count_append, List.count_singleton, if_neg (by simpa using hne)]
      exact h.next len hle hzero
    · intro i hi hcode'
      have hne : i ≠ done := fun h => hcode (h ▸ hcode')
      exact h.placed i (by omega) hcode'

theorem Placed.run {lengths : List ℕ} (hle : ∀ len ∈ lengths, len ≤ 15)
    (hmany : lengths.length ≤ 320) {left : List ℕ} {done : ℕ} {offsets symbol : List ℕ}
    (hleft : lengths.drop done = left) (h : Placed lengths done offsets symbol) :
    Placed lengths (done + left.length)
      ((left.zipIdx done).foldl (fun t entry => place t.1 t.2 entry.1 entry.2) (offsets, symbol)).1
      ((left.zipIdx done).foldl (fun t entry => place t.1 t.2 entry.1 entry.2) (offsets, symbol)).2 := by
  induction left generalizing done offsets symbol with
  | nil => exact h
  | cons len left ih =>
    have hdone : done < lengths.length := by
      by_contra hge
      rw [List.drop_eq_nil_of_le (by omega)] at hleft
      exact absurd hleft (List.cons_ne_nil len left).symm
    rw [List.drop_eq_getElem_cons hdone, List.cons.injEq] at hleft
    have hlen : lengths.getD done 0 = len := by
      rw [List.getD_eq_getElem lengths 0 hdone, hleft.1]
    have hstep := h.step hle hmany hdone
    rw [hlen] at hstep
    have hrest := ih hleft.2 hstep
    rw [List.length_cons, ← Nat.add_assoc, Nat.add_right_comm]
    exact hrest

/-- `Symbol` has each symbol at its place. -/
theorem getD_symbol {lengths : List ℕ} (hle : ∀ len ∈ lengths, len ≤ 15)
    (hmany : lengths.length ≤ 320) {symbol : ℕ} (h : HasCode lengths symbol) :
    (construct lengths).symbol.getD (slot lengths symbol) 0 = symbol := by
  have hstart : Placed lengths 0 (offsetsUpTo (countLengths lengths) maxBits)
      (List.replicate (litCodes + distCodes + 2) 0) := by
    refine ⟨length_offsetsUpTo _ _, List.length_replicate, ?_, fun i hi => absurd hi (Nat.not_lt_zero i)⟩
    intro len hlen _
    exact getD_offsetsUpTo hle le_rfl (by omega)
  have hrun := hstart.run hle hmany rfl
  exact hrun.placed symbol (by simpa using h.lt) h

/-! ## Decoding -/

/-- The first bit of a code. -/
theorem codeBits_succ (left c : ℕ) :
    codeBits (left + 1) c = bitsOf 1 (c / 2 ^ left % 2) ++ codeBits left c := by
  rw [codeBits, bitsOf, bitsOf, Nat.mod_mod]
  rfl

/-- A bit is put behind those of a code that came before it. -/
theorem or_bit (c left : ℕ) : c / 2 ^ (left + 1) * 2 ||| c / 2 ^ left % 2 = c / 2 ^ left := by
  have hor := Nat.two_pow_add_eq_or_of_lt (i := 1) (Nat.mod_lt (c / 2 ^ left) Nat.two_pos)
    (c / 2 ^ (left + 1))
  rw [pow_one, Nat.mul_comm] at hor
  rw [← hor, pow_succ, ← Nat.div_div_eq_div_mul]
  omega

theorem decodeFrom_succ (h : Huffman) (rounds len code first index : ℕ) {s s' : Bits} {bit : ℕ}
    (htake : s.take 1 = some (bit, s')) :
    decodeFrom h (rounds + 1) len code first index s =
      if code ||| bit < first + h.count.getD len 0 then
        some (h.symbol.getD (index + ((code ||| bit) - first)) 0, s')
      else
        decodeFrom h rounds (len + 1) ((code ||| bit) <<< 1) ((first + h.count.getD len 0) <<< 1)
          (index + h.count.getD len 0) s' := by
  rw [decodeFrom, htake]
  rfl

/-- The rounds of `decode` from length `len` on, with the code's bits from there on still to take.
Up to its own length the code is not below the last one of a length. -/
theorem decodeFrom_eq {lengths : List ℕ} (hcode : IsCode lengths) (hmany : lengths.length ≤ 320)
    {symbol : ℕ} (h : HasCode lengths symbol) {bits : List Bool} {left len rounds : ℕ} {s : Bits}
    (hlen : len + left = lengths.getD symbol 0) (hpos : len ≠ 0) (hrounds : left < rounds)
    (hs : Stands s (codeBits (left + 1) (codeOf lengths symbol) ++ bits)) :
    ∃ s', decodeFrom (construct lengths) rounds len (codeOf lengths symbol / 2 ^ (left + 1) * 2)
      (firstCode lengths len) (offset lengths len) s = some (symbol, s') ∧ Stands s' bits := by
  induction left generalizing len rounds s with
  | zero =>
    obtain ⟨rounds, rfl⟩ := Nat.exists_eq_succ_of_ne_zero (Nat.ne_of_gt hrounds)
    rw [codeBits_succ, List.append_assoc] at hs
    obtain ⟨s', htake, hs'⟩ := take_eq hs (Nat.mod_lt _ Nat.two_pos)
    have hcount : (construct lengths).count.getD len 0 = lengthCount lengths len :=
      (getD_countLengths hcode.le_max len).trans (if_neg hpos).symm
    have hown : len = lengths.getD symbol 0 := hlen
    have hlast := codeOf_lt_next h
    rw [← hown] at hlast
    refine ⟨s', ?_, hs'⟩
    -- the last bit: the code is below the next length's first one
    have hplace : offset lengths len + (codeOf lengths symbol - firstCode lengths len) =
        slot lengths symbol := by
      unfold codeOf slot
      rw [← hown]
      omega
    rw [decodeFrom_succ _ _ _ _ _ _ htake, or_bit, hcount, pow_zero, Nat.div_one, if_pos hlast, hplace,
      getD_symbol hcode.le_max hmany h]
  | succ left ih =>
    obtain ⟨rounds, rfl⟩ := Nat.exists_eq_succ_of_ne_zero (Nat.ne_of_gt (Nat.zero_lt_of_lt hrounds))
    rw [codeBits_succ, List.append_assoc] at hs
    obtain ⟨t, htake, ht⟩ := take_eq hs (Nat.mod_lt _ Nat.two_pos)
    have hcount : (construct lengths).count.getD len 0 = lengthCount lengths len :=
      (getD_countLengths hcode.le_max len).trans (if_neg hpos).symm
    -- a bit before the last: no code of this length is a prefix of the symbol's
    have hlater : firstCode lengths len + lengthCount lengths len ≤
        codeOf lengths symbol / 2 ^ (left + 1) := by
      rw [Nat.le_div_iff_mul_le (Nat.two_pow_pos _)]
      have hfirst := firstCode_le lengths (show len < len + (left + 1) by omega)
      rw [Nat.add_sub_cancel_left, hlen] at hfirst
      exact hfirst.trans (Nat.le_add_right _ _)
    obtain ⟨s', hs', hstands⟩ := ih (show len + 1 + left = lengths.getD symbol 0 by omega)
      len.succ_ne_zero (show left < rounds by omega) ht
    refine ⟨s', ?_, hstands⟩
    rw [decodeFrom_succ _ _ _ _ _ _ htake, or_bit, hcount, if_neg (Nat.not_lt.mpr hlater),
      Nat.shiftLeft_eq, Nat.shiftLeft_eq, pow_one, ← offset_succ]
    exact hs'

/-- `decode` finds the symbol whose code comes next. -/
theorem decode_eq {lengths : List ℕ} (hcode : IsCode lengths) (hmany : lengths.length ≤ 320)
    {symbol : ℕ} (h : HasCode lengths symbol) {bits : List Bool} {s : Bits}
    (hs : Stands s (codeword lengths symbol ++ bits)) :
    ∃ s', decode (construct lengths) s = some (symbol, s') ∧ Stands s' bits := by
  obtain ⟨left, hleft⟩ := Nat.exists_eq_succ_of_ne_zero (show lengths.getD symbol 0 ≠ 0 from h)
  have hle : lengths.getD symbol 0 ≤ 15 := hcode.le_max _ h.mem
  have hzero : codeOf lengths symbol / 2 ^ (left + 1) = 0 := by
    apply Nat.div_eq_of_lt
    have hlt := hcode.codeOf_lt h
    rwa [hleft] at hlt
  unfold codeword at hs
  rw [hleft] at hs
  have hrun := decodeFrom_eq hcode hmany h (show 1 + left = lengths.getD symbol 0 by omega)
    Nat.one_ne_zero (show left < maxBits from Nat.lt_of_lt_of_le (by omega) hle) hs
  have hfirst : firstCode lengths 1 = 0 := rfl
  rw [hzero, hfirst, offset_one] at hrun
  exact hrun

end Inflate
end Pak
end Bg3le
