import Bg3le.Pak.BlockTheorems

/-!
# `inflate` decodes DEFLATE

The head of a dynamic block gives the code lengths that were written, and a stream of blocks is the
output of all of them when the size is the right one.
-/

namespace Bg3le
namespace Pak
namespace Inflate

open Deflate

/-! ## The code for code lengths -/

/-- Each index of a list is set to its value. -/
def setAll (f : ℕ → ℕ) (is : List ℕ) (lengths : List ℕ) : List ℕ :=
  is.foldl (fun lengths i => lengths.set i (f i)) lengths

@[simp]
theorem length_setAll (f : ℕ → ℕ) (is lengths : List ℕ) :
    (setAll f is lengths).length = lengths.length := by
  induction is generalizing lengths with
  | nil => rfl
  | cons i is ih => exact (ih (lengths.set i (f i))).trans List.length_set

/-- Setting several lengths sets those and leaves the others. -/
theorem getD_setAll (f : ℕ → ℕ) (is lengths : List ℕ) {j : ℕ} (hj : j < lengths.length) :
    (setAll f is lengths).getD j 0 = if j ∈ is then f j else lengths.getD j 0 := by
  induction is generalizing lengths with
  | nil => simp [setAll]
  | cons i is ih =>
    have hrest := ih (lengths.set i (f i)) (by rwa [List.length_set])
    unfold setAll at hrest ⊢
    rw [List.foldl_cons, hrest, getD_set]
    by_cases hij : i = j
    · simp [← hij, hij ▸ hj]
    · simp [hij, Ne.symm hij]

/-- The code lengths written in the source's order are read to their places. -/
theorem readCodeLengths_eq {f : ℕ → ℕ} {is : List ℕ} (lengths : List ℕ) {bits : List Bool} {s : Bits}
    (hf : ∀ i ∈ is, f i < 8) (hs : Stands s (is.flatMap (fun i => bitsOf 3 (f i)) ++ bits)) :
    ∃ s', Stands s' bits ∧ readCodeLengths is lengths s = some (setAll f is lengths, s') := by
  induction is generalizing lengths s with
  | nil => exact ⟨s, hs, rfl⟩
  | cons i is ih =>
    rw [List.flatMap_cons, List.append_assoc] at hs
    obtain ⟨s₁, htake, hs₁⟩ := take_eq hs (hf i List.mem_cons_self)
    obtain ⟨s', hs', hrest⟩ :=
      ih (lengths.set i (f i)) (fun i hi => hf i (List.mem_cons_of_mem _ hi)) hs₁
    refine ⟨s', hs', ?_⟩
    rw [readCodeLengths, htake]
    exact hrest

theorem clearLengths_eq (is lengths : List ℕ) :
    clearLengths is lengths = setAll (fun _ => 0) is lengths := rfl

theorem order_eq : order = codeOrder := rfl

theorem mem_order {j : ℕ} (hj : j < 19) : j ∈ order := by
  revert j
  decide

theorem lt_of_mem_order {i : ℕ} (hi : i ∈ order) : i < 19 := by
  revert i
  decide

/-- Lists of one length with the same elements are the same. -/
theorem eq_of_getD {l l' : List ℕ} (hlength : l.length = l'.length)
    (h : ∀ j < l.length, l.getD j 0 = l'.getD j 0) : l = l' := by
  apply List.ext_getElem hlength
  intro j hj hj'
  rw [← List.getD_eq_getElem l 0 hj, ← List.getD_eq_getElem l' 0 hj', h j hj]

theorem getD_take {l : List ℕ} {n j : ℕ} (hj : j < n) : (l.take n).getD j 0 = l.getD j 0 := by
  rw [List.getD_eq_getElem?_getD, List.getD_eq_getElem?_getD, List.getElem?_take_of_lt hj]

/-- The array that the code lengths are read into. -/
def codeArray (h : Header) : List ℕ :=
  clearLengths (order.drop h.shown) (setAll (fun i => h.codeLengths.getD i 0) (order.take h.shown)
    (List.replicate (litCodes + distCodes + 2) 0))

/-- The array for the lengths has 320 places. -/
theorem length_codeArray (h : Header) : (codeArray h).length = 320 := by
  unfold codeArray
  rw [clearLengths_eq, length_setAll, length_setAll, List.length_replicate]
  rfl

/-- The array starts with the code lengths once the ones that are not written are cleared. -/
theorem take_codeArray {h : Header} (hvalid : h.Valid) : (codeArray h).take 19 = h.codeLengths := by
  have hlength : ((codeArray h).take 19).length = 19 := by
    rw [List.length_take, length_codeArray]
    rfl
  apply eq_of_getD (hlength.trans hvalid.count.symm)
  intro j hj
  rw [hlength] at hj
  have hroom : j < (List.replicate (litCodes + distCodes + 2) 0).length := by
    rw [List.length_replicate]
    unfold litCodes distCodes
    omega
  unfold codeArray
  rw [getD_take hj, clearLengths_eq, getD_setAll _ _ _ (by rwa [length_setAll]), getD_setAll _ _ _ hroom]
  by_cases hhidden : j ∈ order.drop h.shown
  · rw [if_pos hhidden, hvalid.hidden j hhidden]
  · have hsplit := mem_order hj
    rw [← List.take_append_drop h.shown order, List.mem_append] at hsplit
    rw [if_neg hhidden, if_pos (hsplit.resolve_right hhidden)]

/-! ## Code lengths -/

/-- The array starts with the lengths that were written. -/
structure Written (array lengths : List ℕ) : Prop where
  length_array : array.length = 320
  take_eq : array.take lengths.length = lengths

/-- One more length is written after those written. -/
theorem Written.set {array lengths : List ℕ} (h : Written array lengths) (hroom : lengths.length < 320)
    (len : ℕ) : Written (array.set lengths.length len) (lengths ++ [len]) := by
  have hlt : lengths.length < (array.set lengths.length len).length := by
    rw [List.length_set, h.length_array]
    exact hroom
  refine ⟨by rw [List.length_set, h.length_array], ?_⟩
  rw [List.length_append, List.length_singleton, List.take_succ_eq_append_getElem hlt,
    List.take_set_of_le le_rfl, h.take_eq, List.getElem_set_self]

/-- A run of one length is written after those written. -/
theorem Written.setRun {array lengths : List ℕ} (h : Written array lengths) (len n : ℕ)
    (hroom : lengths.length + n ≤ 320) :
    Written (setRun len n lengths.length array) (lengths ++ List.replicate n len) := by
  induction n generalizing array lengths with
  | zero =>
    rw [List.replicate_zero, List.append_nil]
    exact h
  | succ n ih =>
    have hnext := ih (h.set (by omega) len)
      (by rw [List.length_append, List.length_singleton]; omega)
    rw [List.length_append, List.length_singleton, List.append_assoc, List.singleton_append] at hnext
    exact hnext

theorem Written.getD {array lengths : List ℕ} (h : Written array lengths) {j : ℕ}
    (hj : j < lengths.length) : array.getD j 0 = lengths.getD j 0 := by
  rw [← h.take_eq, getD_take hj]

/-- A symbol writes at least one length. -/
theorem length_lt_extend {sym : LengthSymbol} {lengths next : List ℕ}
    (h : sym.extend lengths = some next) : lengths.length < next.length := by
  match sym with
  | .length len =>
    rw [← Option.some.inj h]
    simp
  | .again extra =>
    obtain ⟨len, -, rfl⟩ := Option.map_eq_some_iff.mp h
    simp
  | .zeros extra | .manyZeros extra =>
    rw [← Option.some.inj h]
    simp

/-- Symbols only add lengths. -/
theorem length_le_extendAll {symbols : List LengthSymbol} {lengths all : List ℕ}
    (h : extendAll lengths symbols = some all) : lengths.length ≤ all.length := by
  induction symbols generalizing lengths with
  | nil => rw [Option.some.inj h]
  | cons sym symbols ih =>
    obtain ⟨next, hnext, hrest⟩ := Option.bind_eq_some_iff.mp h
    exact (length_lt_extend hnext).le.trans (ih hrest)

/-- A round of the loop over the lengths that writes a length some times over. -/
theorem readLengths_repeat {code : Huffman} {total symbol value n : ℕ} {array lengths next : List ℕ}
    {bits : List Bool} {s s₁ s₂ : Bits} (hdecode : decode code s = some (symbol, s₁))
    (hsymbol : ¬symbol < 16) (hrepeated : repeated symbol lengths.length array s₁ = some (value, n, s₂))
    (heq : lengths ++ List.replicate n value = next) (hless : lengths.length < total)
    (hnext : next.length ≤ total) (htotal : total ≤ 320) (h : Written array lengths)
    (hs₂ : Stands s₂ bits) (rounds : ℕ) :
    ∃ s' array', Stands s' bits ∧ Written array' next ∧
      readLengths code total (rounds + 1) lengths.length array s =
        readLengths code total rounds next.length array' s' := by
  subst heq
  rw [List.length_append, List.length_replicate] at hnext ⊢
  refine ⟨s₂, setRun value n lengths.length array, hs₂, h.setRun value n (by omega), ?_⟩
  rw [readLengths, if_neg (Nat.not_le.mpr hless), hdecode]
  simp only [Option.bind_eq_bind, Option.bind_some]
  rw [if_neg hsymbol, hrepeated, Option.bind_some]
  exact if_neg (Nat.not_lt.mpr hnext)

variable {codeLengths : List ℕ}

/-- A round of the loop over the lengths reads a symbol and writes what it extends them by. -/
theorem readLengths_symbol (hcode : IsCode codeLengths) (hmany : codeLengths.length ≤ 320)
    {sym : LengthSymbol} {array lengths next : List ℕ} {bits : List Bool} {s : Bits} {total : ℕ}
    (hsym : HasCode codeLengths sym.symbol) (hextend : sym.extend lengths = some next)
    (hnext : next.length ≤ total) (htotal : total ≤ 320) (h : Written array lengths)
    (hs : Stands s (sym.bits codeLengths ++ bits)) (rounds : ℕ) :
    ∃ s' array', Stands s' bits ∧ Written array' next ∧
      readLengths (construct codeLengths) total (rounds + 1) lengths.length array s =
        readLengths (construct codeLengths) total rounds next.length array' s' := by
  have hless : lengths.length < total := (length_lt_extend hextend).trans_le hnext
  unfold LengthSymbol.bits at hs
  rw [List.append_assoc] at hs
  obtain ⟨s₁, hdecode, hs₁⟩ := decode_eq hcode hmany hsym hs
  match sym with
  | .length len =>
    have heq : lengths ++ [len.val] = next := Option.some.inj hextend
    refine ⟨s₁, array.set lengths.length len, hs₁, heq ▸ h.set (by omega) len, ?_⟩
    rw [readLengths, if_neg (Nat.not_le.mpr hless), hdecode, ← heq, List.length_append]
    exact if_pos len.isLt
  | .again extra =>
    obtain ⟨len, hlen, heq⟩ := Option.map_eq_some_iff.mp hextend
    obtain ⟨s₂, htake, hs₂⟩ := take_eq hs₁ extra.isLt
    have hnonempty : lengths ≠ [] := by
      intro hnil
      rw [hnil] at hlen
      exact absurd hlen (by simp)
    -- symbol 16 repeats the length before it, which the array holds
    have hlast : array.getD (lengths.length - 1) 0 = len := by
      have hpos := List.length_pos_of_ne_nil hnonempty
      rw [h.getD (by omega), List.getD_eq_getElem _ _ (by omega)]
      rw [List.getLast?_eq_getElem?, List.getElem?_eq_getElem (by omega)] at hlen
      exact Option.some.inj hlen
    have hrepeated : repeated 16 lengths.length array s₁ = some (len, 3 + extra.val, s₂) := by
      unfold repeated
      rw [if_pos rfl, if_neg (fun hzero => hnonempty (List.length_eq_zero_iff.mp hzero)), htake, ← hlast]
      rfl
    exact readLengths_repeat hdecode (show ¬16 < 16 by decide) hrepeated heq hless hnext htotal h hs₂ rounds
  | .zeros extra =>
    obtain ⟨s₂, htake, hs₂⟩ := take_eq hs₁ extra.isLt
    have heq : lengths ++ List.replicate (3 + extra.val) 0 = next := Option.some.inj hextend
    have hrepeated : repeated 17 lengths.length array s₁ = some (0, 3 + extra.val, s₂) := by
      unfold repeated
      rw [if_neg (by decide), if_pos rfl, htake]
      rfl
    exact readLengths_repeat hdecode (show ¬17 < 16 by decide) hrepeated heq hless hnext htotal h hs₂ rounds
  | .manyZeros extra =>
    obtain ⟨s₂, htake, hs₂⟩ := take_eq hs₁ extra.isLt
    have heq : lengths ++ List.replicate (11 + extra.val) 0 = next := Option.some.inj hextend
    have hrepeated : repeated 18 lengths.length array s₁ = some (0, 11 + extra.val, s₂) := by
      unfold repeated
      rw [if_neg (by decide), if_neg (by decide), htake]
      rfl
    exact readLengths_repeat hdecode (show ¬18 < 16 by decide) hrepeated heq hless hnext htotal h hs₂ rounds

/-- The loop over the lengths reads all of them. -/
theorem readLengths_eq (hcode : IsCode codeLengths) (hmany : codeLengths.length ≤ 320)
    {symbols : List LengthSymbol} {array lengths all : List ℕ} {bits : List Bool} {s : Bits} {rounds : ℕ}
    (hsymbols : ∀ sym ∈ symbols, HasCode codeLengths sym.symbol)
    (hextend : extendAll lengths symbols = some all) (hall : all.length ≤ 320)
    (hrounds : all.length - lengths.length < rounds) (h : Written array lengths)
    (hs : Stands s (symbols.flatMap (LengthSymbol.bits codeLengths) ++ bits)) :
    ∃ s' array', Stands s' bits ∧ Written array' all ∧
      readLengths (construct codeLengths) all.length rounds lengths.length array s =
        some (array', s') := by
  induction symbols generalizing lengths array s rounds with
  | nil =>
    obtain ⟨rounds, rfl⟩ := Nat.exists_eq_succ_of_ne_zero (Nat.ne_of_gt (Nat.zero_lt_of_lt hrounds))
    have heq : lengths = all := Option.some.inj hextend
    subst heq
    exact ⟨s, array, hs, h, if_pos le_rfl⟩
  | cons sym symbols ih =>
    obtain ⟨rounds, rfl⟩ := Nat.exists_eq_succ_of_ne_zero (Nat.ne_of_gt (Nat.zero_lt_of_lt hrounds))
    obtain ⟨next, hnext, hrest⟩ := Option.bind_eq_some_iff.mp hextend
    rw [List.flatMap_cons, List.append_assoc] at hs
    obtain ⟨s₁, array₁, hs₁, h₁, hstep⟩ := readLengths_symbol hcode hmany (hsymbols sym List.mem_cons_self)
      hnext (length_le_extendAll hrest) hall h hs rounds
    have hlonger := length_lt_extend hnext
    have hle := length_le_extendAll hrest
    rw [hstep]
    exact ih (fun sym hsym => hsymbols sym (List.mem_cons_of_mem _ hsym)) hrest (by omega) h₁ hs₁

/-! ## Blocks -/

/-- A dynamic block is read with the codes that its head has. -/
theorem dynamicBlock_body {header : Header} {tokens : List Token} {bits : List Bool} {s : Bits}
    {out : Output} (hvalid : header.Valid)
    (htokens : TokensValid header.literals header.distances out.data tokens)
    (hroom : out.data.length ≤ out.size) (hs : Stands s ((Block.dynamic header tokens).body ++ bits)) :
    Makes out (tokens.foldl Token.append out.data) bits (dynamicBlock s out) := by
  have hle₁ := hvalid.le_literals
  have hle₂ := hvalid.literals_le
  have hle₃ := hvalid.le_distances
  have hle₄ := hvalid.distances_le
  have hle₅ := hvalid.four_le_shown
  have hle₆ := hvalid.shown_le
  have hbody : (Block.dynamic header tokens).body ++ bits =
      bitsOf 5 (header.literals.length - 257) ++ (bitsOf 5 (header.distances.length - 1) ++
        (bitsOf 4 (header.shown - 4) ++
          ((order.take header.shown).flatMap (fun i => bitsOf 3 (header.codeLengths.getD i 0)) ++
            (header.symbols.flatMap (LengthSymbol.bits header.codeLengths) ++
              (tokenBits header.literals header.distances tokens ++ bits))))) := by
    simp [Block.body, Header.bits, order_eq]
  -- the block is read in the order in which it is written: three counts, two sets of lengths,
  -- tokens
  rw [hbody] at hs
  obtain ⟨s₁, htake₁, hs₁⟩ := take_eq hs (by omega)
  obtain ⟨s₂, htake₂, hs₂⟩ := take_eq hs₁ (by omega)
  obtain ⟨s₃, htake₃, hs₃⟩ := take_eq hs₂ (by omega)
  have hsmall : ∀ i ∈ order.take header.shown, header.codeLengths.getD i 0 < 8 := by
    intro i hi
    have hi : i < header.codeLengths.length := by
      rw [hvalid.count]
      exact lt_of_mem_order (List.mem_of_mem_take hi)
    rw [List.getD_eq_getElem _ _ hi]
    exact hvalid.small _ (List.getElem_mem hi)
  obtain ⟨s₄, hs₄, hread⟩ := readCodeLengths_eq (List.replicate (litCodes + distCodes + 2) 0) hsmall hs₃
  -- the lengths go on in the array that held the code lengths
  have hwritten : Written (codeArray header) [] := ⟨length_codeArray header, rfl⟩
  have hall : (header.literals ++ header.distances).length ≤ 320 := by
    rw [List.length_append]
    omega
  obtain ⟨s₅, array, hs₅, harray, hlengths⟩ := readLengths_eq hvalid.isCode
    (by rw [hvalid.count]; omega) hvalid.hasCode hvalid.extendAll_eq hall (Nat.lt_succ_self _) hwritten hs₄
  have hliterals : array.take header.literals.length = header.literals := by
    have htake := congrArg (List.take header.literals.length) harray.take_eq
    rwa [List.take_take, List.take_left, List.length_append, Nat.min_eq_left (by omega)] at htake
  have hdistances : (array.drop header.literals.length).take header.distances.length = header.distances := by
    have htake := congrArg (List.drop header.literals.length) harray.take_eq
    rwa [List.drop_left, List.drop_take, List.length_append, Nat.add_sub_cancel_left] at htake
  have hend : array.getD 256 0 ≠ 0 := by
    rw [harray.getD (by rw [List.length_append]; omega), List.getD_append _ _ _ _ (by omega)]
    exact hvalid.hasEnd
  have hcodes' : Codes header.literals header.distances :=
    ⟨hvalid.isCode_literals, hvalid.isCode_distances, by omega, by omega, hvalid.hasEnd⟩
  have hmakes := codes_tokens hcodes' htokens hroom hs₅
  have hdynamic : dynamicBlock s out =
      codes s₅ out (construct header.literals) (construct header.distances) := by
    unfold dynamicBlock
    rw [htake₁]
    simp only [Option.bind_eq_bind, Option.bind_some]
    rw [htake₂, Option.bind_some, htake₃, Option.bind_some,
      if_neg (show ¬(litCodes < header.literals.length - 257 + 257 ∨
        distCodes + 2 < header.distances.length - 1 + 1) by unfold litCodes distCodes; omega),
      Nat.sub_add_cancel hle₁, Nat.sub_add_cancel hle₃, Nat.sub_add_cancel hle₅, hread, Option.bind_some]
    rw [List.length_append] at hlengths
    show (readLengths (construct ((codeArray header).take 19)) _ _ 0 (codeArray header) s₄).bind _ = _
    rw [take_codeArray hvalid]
    refine (congrArg (Option.bind · _) hlengths).trans ?_
    rw [Option.bind_some, if_neg hend, hliterals, hdistances]
  rw [hdynamic]
  exact hmakes

/-- A block is read as the format defines it. A stored one ends at a whole byte. -/
theorem block_body {b : Block} {pos : ℕ} {bits : List Bool} {s : Bits} {out : Output}
    (hvalid : b.Valid pos out.data) (hroom : out.data.length ≤ out.size)
    (hwhole : 8 ∣ pos + 3 + (b.body ++ bits).length) (hs : Stands s (b.body ++ bits)) :
    Makes out (b.append out.data) bits (block b.type s out) := by
  match b with
  | .stored padding data =>
    obtain ⟨hpadding, hbyte, hdata⟩ := hvalid
    rw [stored_bits, List.length_append, List.length_append, length_toBits] at hwhole
    exact stored_body hpadding hdata (by omega) hs
  | .fixed tokens => exact fixedBlock_body hvalid hroom hs
  | .dynamic header tokens => exact dynamicBlock_body hvalid.1 hvalid.2 hroom hs

/-- A block only adds bytes. -/
theorem length_le_block (b : Block) (out : Bytes) : out.length ≤ (b.append out).length := by
  match b with
  | .stored padding data =>
    show out.length ≤ (out ++ data).length
    simp
  | .fixed tokens | .dynamic _ tokens => exact length_le_foldl tokens out

/-! ## Streams -/

/-- Blocks only add bytes. -/
theorem length_le_stream {pos : ℕ} {out result : Bytes} {bits : List Bool}
    (h : Stream pos out bits result) : out.length ≤ result.length := by
  induction h with
  | last => exact length_le_block _ _
  | more _ _ ih => exact (length_le_block _ _).trans ih

theorem type_lt (b : Block) : b.type < 2 ^ 2 := by
  match b with
  | .stored _ _ | .fixed _ | .dynamic _ _ => simp [Block.type]

theorem length_bits (b : Block) (last : Bool) : (b.bits last).length = 3 + b.body.length := by
  unfold Block.bits
  rw [List.length_append, List.length_append, length_bitsOf, length_bitsOf]

/-- A round over the blocks. -/
theorem blocksFrom_block {b : Block} {last : Bool} {bits : List Bool} {s : Bits} {out : Output}
    (hs : Stands s (b.bits last ++ bits)) (rounds : ℕ) :
    ∃ s', Stands s' (b.body ++ bits) ∧ blocksFrom (rounds + 1) s out =
      (block b.type s' out).bind fun t => if last then some t.2 else blocksFrom rounds t.1 t.2 := by
  unfold Block.bits at hs
  rw [List.append_assoc, List.append_assoc] at hs
  obtain ⟨s₁, htake₁, hs₁⟩ := take_eq hs (by cases last <;> decide)
  obtain ⟨s₂, htake₂, hs₂⟩ := take_eq hs₁ (type_lt b)
  refine ⟨s₂, hs₂, ?_⟩
  rw [blocksFrom, htake₁]
  simp only [Option.bind_eq_bind, Option.bind_some]
  rw [htake₂, Option.bind_some]
  cases last <;> rfl

/-- The blocks of a stream are read up to its last one. -/
theorem blocksFrom_stream {pos : ℕ} {data result : Bytes} {bits rest : List Bool}
    (h : Stream pos data bits result) {s : Bits} {out : Output} {rounds : ℕ} (hdata : out.data = data)
    (hroom : out.data.length ≤ out.size) (hwhole : 8 ∣ pos + (bits ++ rest).length)
    (hs : Stands s (bits ++ rest)) (hrounds : bits.length ≤ rounds) :
    blocksFrom rounds s out =
      if result.length ≤ out.size then some { out with data := result } else none := by
  induction h generalizing s out rounds with
  -- each block makes its bytes or runs out of room, and then so does the whole
  | @last pos data b hvalid =>
    subst hdata
    rw [length_bits] at hrounds
    obtain ⟨rounds, rfl⟩ := Nat.exists_eq_succ_of_ne_zero (show rounds ≠ 0 by omega)
    obtain ⟨s₁, hs₁, hround⟩ := blocksFrom_block hs rounds
    rw [List.length_append, length_bits, Nat.add_assoc, ← Nat.add_assoc pos, ← List.length_append] at hwhole
    have hmakes := block_body hvalid hroom hwhole hs₁
    rw [hround]
    by_cases hfits : (b.append out.data).length ≤ out.size
    · obtain ⟨s', hblock, -⟩ := hmakes.fits hfits
      rw [hblock, if_pos hfits]
      rfl
    · rw [hmakes.full (Nat.lt_of_not_le hfits), if_neg hfits]
      rfl
  | @more pos data result b bits hvalid hstream ih =>
    subst hdata
    rw [List.length_append, length_bits] at hrounds
    obtain ⟨rounds, rfl⟩ := Nat.exists_eq_succ_of_ne_zero (show rounds ≠ 0 by omega)
    rw [List.append_assoc] at hs hwhole
    obtain ⟨s₁, hs₁, hround⟩ := blocksFrom_block hs rounds
    have hlater : 8 ∣ pos + (b.bits false).length + (bits ++ rest).length := by
      rwa [List.length_append, ← Nat.add_assoc] at hwhole
    rw [List.length_append, length_bits, Nat.add_assoc, ← Nat.add_assoc pos, ← List.length_append] at hwhole
    have hmakes := block_body hvalid hroom hwhole hs₁
    rw [hround]
    by_cases hfits : (b.append out.data).length ≤ out.size
    · obtain ⟨s', hblock, hs'⟩ := hmakes.fits hfits
      rw [hblock, Option.bind_some]
      exact ih rfl hfits hlater hs' (by omega)
    · have hlonger := length_le_stream hstream
      rw [hmakes.full (Nat.lt_of_not_le hfits), if_neg (by omega)]
      rfl

theorem length_codeword (lengths : List ℕ) (symbol : ℕ) :
    (codeword lengths symbol).length = lengths.getD symbol 0 := by
  unfold codeword
  rw [length_codeBits]

/-- The first block of a stream takes more than a byte. -/
theorem eight_lt_block {b : Block} {pos : ℕ} {out : Bytes} (h : b.Valid pos out) (last : Bool) :
    8 < (b.bits last).length := by
  rw [length_bits]
  match b with
  | .stored padding data =>
    have hbits := congrArg List.length (stored_bits padding data [])
    simp [storedHead] at hbits
    omega
  | .fixed tokens =>
    have hend : (codeword fixedLiterals 256).length = 7 := by
      rw [length_codeword]
      decide +kernel
    simp only [Block.body, tokenBits, List.length_append, hend]
    omega
  | .dynamic header tokens =>
    simp only [Block.body, Header.bits, List.length_append, length_bitsOf]
    omega

/-- A stream has more than a byte of bits. -/
theorem eight_lt_stream {pos : ℕ} {out result : Bytes} {bits : List Bool}
    (h : Stream pos out bits result) : 8 < bits.length := by
  match h with
  | .last hvalid => exact eight_lt_block hvalid true
  | .more hvalid _ =>
    have hlt := eight_lt_block hvalid false
    rw [List.length_append]
    omega

/-- The test for a zlib header is the format's own. -/
theorem zlibWrapped_iff (b₀ b₁ : UInt8) : zlibWrapped b₀ b₁ ↔ ZlibHeader b₀ b₁ := by
  have hlow : b₀ &&& 0x0f = 8 ↔ b₀.toNat % 16 = 8 := by
    rw [← UInt8.toNat_inj, UInt8.toNat_and]
    exact Eq.congr_left (Nat.and_two_pow_sub_one_eq_mod b₀.toNat 4)
  have hboth : b₀.toNat <<< 8 ||| b₁.toNat = 256 * b₀.toNat + b₁.toNat := by
    have hor := or_shiftLeft (show b₁.toNat < 2 ^ 8 from b₁.toNat_lt) b₀.toNat
    rw [Nat.or_comm, hor]
    omega
  unfold zlibWrapped ZlibHeader
  rw [hboth, decide_eq_true_iff, hlow]

/-- `inflate` gives the bytes that a DEFLATE stream stands for if their number is the size it is
asked for, and gives up otherwise. -/
theorem inflate_stream {head payload result : Bytes} {bits rest : List Bool}
    (hstream : Stream 0 [] bits result) (hpayload : toBits payload = bits ++ rest)
    (hhead : Headed head payload) (outSize : ℕ) :
    inflate (head ++ payload) outSize = if outSize = result.length then some result else none := by
  have hlength := congrArg List.length hpayload
  rw [length_toBits, List.length_append] at hlength
  have hblocks : (blocksFrom (8 * payload.length + 1) ⟨payload, 0, 0⟩ ⟨outSize, []⟩).bind
      (fun out => if out.data.length = outSize then some out.data else none) =
        if outSize = result.length then some result else none := by
    have hs := stands_start payload
    rw [hpayload] at hs
    have hwhole : 8 ∣ 0 + (bits ++ rest).length := by
      rw [List.length_append, ← hlength]
      omega
    rw [blocksFrom_stream hstream (show (⟨outSize, []⟩ : Output).data = [] from rfl) (Nat.zero_le _)
      hwhole hs (by omega)]
    by_cases hsize : outSize = result.length
    · simp [hsize]
    · by_cases hfits : result.length ≤ outSize
      · simp [hfits, hsize, Ne.symm hsize]
      · simp [hfits, hsize]
  match hhead with
  | Or.inl ⟨hnil, hplain⟩ =>
    subst hnil
    match payload with
    | [] | [_] =>
      have hlong := eight_lt_stream hstream
      simp at hlength
      omega
    | b₀ :: b₁ :: more =>
      have hwrapped : zlibWrapped b₀ b₁ = false := by
        rw [← Bool.not_eq_true, zlibWrapped_iff]
        exact hplain b₀ b₁ more rfl
      rw [List.nil_append, inflate, hwrapped]
      exact hblocks
  | Or.inr ⟨b₀, b₁, hhead, hzlib⟩ =>
    rw [hhead, List.cons_append, List.singleton_append, inflate, (zlibWrapped_iff b₀ b₁).mpr hzlib]
    exact hblocks

/-- A literal that is copied three times. -/
theorem inflate_stream_repeat :
    inflate [0x78, 0x9c, 0x4b, 0x04, 0x02, 0x00] 4 = some [0x61, 0x61, 0x61, 0x61] := by
  have hvalid : (Block.fixed [.literal 0x61, .copy ⟨0, 0, 0, 0⟩]).Valid 0 [] :=
    ⟨show fixedLiterals.getD 0x61 0 ≠ 0 by decide +kernel,
      ⟨show fixedLiterals.getD 257 0 ≠ 0 by decide +kernel,
        show fixedDistances.getD 0 0 ≠ 0 by decide +kernel, by decide +kernel⟩, trivial⟩
  have hbits : toBits [0x4b, 0x04, 0x02, 0x00] =
      (Block.fixed [.literal 0x61, .copy ⟨0, 0, 0, 0⟩]).bits true ++ [false, false] := by
    decide +kernel
  have hhead : Headed [0x78, 0x9c] [0x4b, 0x04, 0x02, 0x00] :=
    Or.inr ⟨0x78, 0x9c, rfl, by unfold ZlibHeader; decide⟩
  exact (inflate_stream (Stream.last hvalid) hbits hhead 4).trans (by decide +kernel)

end Inflate
end Pak
end Bg3le
