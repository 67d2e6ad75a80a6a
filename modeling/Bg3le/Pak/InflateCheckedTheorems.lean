import Bg3le.Pak.HuffmanTheorems
import Bg3le.Pak.InflateChecked

/-!
# No access of the decompression is a fault

Each function with its accesses checked does what the one without the checks does: it gives the
same, or it refuses when the other gives nothing. So no index is outside a table, no byte is
written past the end of the output or read before its start, and every loop ends.
-/

namespace Bg3le
namespace Pak
namespace Inflate
namespace Checked

/-- The outcome of a function that only refuses. -/
def lift {α : Type} : Option α → Except Stop α
  | some v => .ok v
  | none => .error .refused

@[simp] theorem lift_some {α : Type} (v : α) : lift (some v) = .ok v := rfl

@[simp] theorem lift_none {α : Type} : lift (none : Option α) = .error .refused := rfl

@[simp] theorem ok_bind {α β : Type} (v : α) (g : α → Except Stop β) : (Except.ok v >>= g) = g v := rfl

/-- What follows a step has to agree on what the step gives only. -/
theorem lift_bind {α β : Type} {o : Option α} {f : α → Option β} {g : α → Except Stop β}
    (h : ∀ v, o = some v → g v = lift (f v)) : (lift o >>= g) = lift (o >>= f) := by
  cases o with
  | none => rfl
  | some v => exact h v rfl

/-! ## Tables and bits -/

/-- An access within a table is the table's own value. -/
theorem entry_eq {table : List ℕ} {i : ℕ} (h : i < table.length) :
    entry table i = .ok (table.getD i 0) := by
  unfold entry
  rw [if_neg (Int.not_lt.mpr (Int.natCast_nonneg i)), Int.toNat_natCast, List.getElem?_eq_getElem h,
    List.getD_eq_getElem table 0 h]

/-- So is a store within it. -/
theorem store_eq {table : List ℕ} {i : ℕ} (h : i < table.length) (v : ℕ) :
    store table i v = .ok (table.set i v) := if_pos h

/-- Taking bits touches no table. -/
theorem take_eq_lift (need : ℕ) (s : Bits) : take need s = lift (s.take need) := by
  unfold take
  cases s.take need <;> rfl

/-- How many bits are left. -/
def left (s : Bits) : ℕ := s.count + 8 * s.rest.length

/-- Filling the buffer of bits takes none of them. -/
theorem left_fill {need value count : ℕ} {rest : Bytes} {s : Bits}
    (h : fill need value count rest = some s) :
    need ≤ s.count ∧ left s = count + 8 * rest.length := by
  induction rest generalizing value count with
  | nil =>
    unfold fill at h
    by_cases hfew : count < need
    · rw [if_pos hfew] at h
      exact absurd h (Option.some_ne_none s).symm
    · rw [if_neg hfew, Option.some.injEq] at h
      subst h
      exact ⟨Nat.le_of_not_lt hfew, rfl⟩
  | cons b rest ih =>
    unfold fill at h
    by_cases hfew : count < need
    · rw [if_pos hfew] at h
      obtain ⟨hneed, hleft⟩ := ih h
      rw [List.length_cons]
      exact ⟨hneed, by omega⟩
    · rw [if_neg hfew, Option.some.injEq] at h
      subst h
      exact ⟨Nat.le_of_not_lt hfew, rfl⟩

/-- `take` takes as many bits as it is asked for, and gives a number of as many. -/
theorem left_take {need v : ℕ} {s s' : Bits} (h : s.take need = some (v, s')) :
    v < 2 ^ need ∧ left s' + need = left s := by
  unfold Bits.take at h
  rw [Option.map_eq_some_iff] at h
  obtain ⟨t, ht, hv⟩ := h
  obtain ⟨hneed, hleft⟩ := left_fill ht
  rw [Prod.mk.injEq] at hv
  obtain ⟨rfl, rfl⟩ := hv
  constructor
  · rw [Nat.one_shiftLeft, Nat.and_two_pow_sub_one_eq_mod]
    exact Nat.mod_lt _ (Nat.two_pow_pos need)
  · unfold left at hleft ⊢
    dsimp only
    omega

/-! ## The code tables -/

/-- Lengths that a code table can be made of. -/
structure Fit (lengths : List ℕ) : Prop where
  le_max : ∀ len ∈ lengths, len ≤ 15
  many : lengths.length ≤ 320

/-- A part of fitting lengths fits. -/
theorem Fit.sublist {lengths part : List ℕ} (h : Fit lengths) (hpart : part.Sublist lengths) :
    Fit part :=
  ⟨fun len hlen => h.le_max len (hpart.subset hlen), hpart.length_le.trans h.many⟩

/-- Lengths of at most 15 are counted within the table of counts. -/
theorem countLengths_eq {lengths count : List ℕ} (hle : ∀ len ∈ lengths, len ≤ 15)
    (hcount : count.length = 16) :
    countLengths lengths count =
      .ok (lengths.foldl (fun count len => count.set len (count.getD len 0 + 1)) count) := by
  induction lengths generalizing count with
  | nil => rfl
  | cons len lengths ih =>
    have hlen : len < count.length := by
      have hle := hle len List.mem_cons_self
      omega
    have hset : (count.set len (count.getD len 0 + 1)).length = 16 := by rw [List.length_set, hcount]
    have hrest := ih (fun l hl => hle l (List.mem_cons_of_mem len hl)) hset
    unfold countLengths
    rw [entry_eq hlen, ok_bind, store_eq hlen, ok_bind, hrest]
    rfl

/-- Their offsets are within the table of offsets. -/
theorem addOffsets_eq {count lens offsets : List ℕ} (hle : ∀ len ∈ lens, len ≤ 15)
    (hcount : count.length = 16) (hoffsets : offsets.length = 17) :
    addOffsets count lens offsets =
      .ok (lens.foldl
        (fun offsets len => offsets.set (len + 1) (offsets.getD len 0 + count.getD len 0)) offsets) := by
  induction lens generalizing offsets with
  | nil => rfl
  | cons len lens ih =>
    have hlen := hle len List.mem_cons_self
    have hset : (offsets.set (len + 1) (offsets.getD len 0 + count.getD len 0)).length = 17 := by
      rw [List.length_set, hoffsets]
    have hrest := ih (fun l hl => hle l (List.mem_cons_of_mem len hl)) hset
    unfold addOffsets
    rw [entry_eq (by omega), ok_bind, entry_eq (by omega), ok_bind, store_eq (by omega), ok_bind, hrest]
    rfl

theorem length_countLengths (lengths count : List ℕ) :
    (lengths.foldl (fun count len => count.set len (count.getD len 0 + 1)) count).length =
      count.length := by
  induction lengths generalizing count with
  | nil => rfl
  | cons len lengths ih => rw [List.foldl_cons, ih, List.length_set]

/-- Each symbol is placed inside the table, at the next place of its length. -/
theorem placeAll_eq {lengths : List ℕ} (hfit : Fit lengths) {rest : List ℕ} {done : ℕ}
    {offsets symbol : List ℕ} (hrest : lengths.drop done = rest)
    (h : Placed lengths done offsets symbol) :
    placeAll rest done offsets symbol =
      .ok ((rest.zipIdx done).foldl (fun t entry => place t.1 t.2 entry.1 entry.2)
        (offsets, symbol)).2 := by
  induction rest generalizing done offsets symbol with
  | nil => rfl
  | cons len rest ih =>
    have hdone : done < lengths.length := by
      by_contra hge
      rw [List.drop_eq_nil_of_le (by omega)] at hrest
      exact absurd hrest (List.cons_ne_nil len rest).symm
    rw [List.drop_eq_getElem_cons hdone, List.cons.injEq] at hrest
    have hlen : lengths.getD done 0 = len := by
      rw [List.getD_eq_getElem lengths 0 hdone, hrest.1]
    have hstep := h.step hfit.le_max hfit.many hdone
    rw [hlen] at hstep
    have hlater := ih hrest.2 hstep
    rw [List.zipIdx_cons, List.foldl_cons]
    unfold placeAll
    -- a length of zero is no code and takes no place
    by_cases hzero : len ≠ 0
    · have hcode : Deflate.HasCode lengths done := by
        unfold Deflate.HasCode
        rwa [hlen]
      have hmax : len ≤ 15 := hlen ▸ hfit.le_max _ hcode.mem
      have hnext : offsets.getD len 0 = slot lengths done := by
        rw [h.next len hmax hzero]
        unfold slot
        rw [hlen]
      -- the slots of fitting lengths stay within the table
      have hroom : offsets.getD len 0 < symbol.length := by
        rw [h.length_symbol, hnext]
        exact (slot_lt hcode).trans_le ((offset_le _ _).trans hfit.many)
      have hoffset : len < offsets.length := by
        rw [h.length_offsets]
        omega
      unfold place at hlater ⊢
      rw [if_pos hzero] at hlater ⊢
      rw [if_pos hzero, entry_eq hoffset, ok_bind, store_eq hroom, ok_bind, store_eq hoffset, ok_bind]
      exact hlater
    · unfold place at hlater ⊢
      rw [if_neg hzero] at hlater ⊢
      rw [if_neg hzero]
      exact hlater

/-- No symbol is placed at the start. -/
theorem placed_start {lengths : List ℕ} (hfit : Fit lengths) :
    Placed lengths 0 (offsetsUpTo (Inflate.countLengths lengths) maxBits)
      (List.replicate (litCodes + distCodes + 2) 0) := by
  refine ⟨length_offsetsUpTo _ _, List.length_replicate, ?_, fun i hi => absurd hi (Nat.not_lt_zero i)⟩
  intro len hlen _
  exact getD_offsetsUpTo hfit.le_max le_rfl (by omega)

theorem length_count (lengths : List ℕ) : (Inflate.construct lengths).count.length = 16 :=
  (length_countLengths lengths _).trans List.length_replicate

theorem length_symbol {lengths : List ℕ} (hfit : Fit lengths) :
    (Inflate.construct lengths).symbol.length = 320 :=
  ((placed_start hfit).run hfit.le_max hfit.many rfl).length_symbol

/-- Fitting lengths are built into a code without an access outside. -/
theorem construct_eq {lengths : List ℕ} (hfit : Fit lengths) :
    construct lengths = .ok (Inflate.construct lengths) := by
  have hcount : (Inflate.countLengths lengths).length = 16 := length_count lengths
  have hrange : ∀ len ∈ List.range' 1 maxBits, len ≤ 15 := by
    intro len hlen
    rw [List.mem_range'_1] at hlen
    unfold maxBits at hlen
    omega
  unfold construct
  rw [countLengths_eq hfit.le_max (show (List.replicate (maxBits + 1) 0).length = 16 from rfl), ok_bind]
  show (addOffsets (Inflate.countLengths lengths) _ _ >>= _) = _
  rw [addOffsets_eq hrange hcount (show (List.replicate (maxBits + 2) 0).length = 17 from rfl)]
  show (placeAll lengths 0 (offsetsUpTo (Inflate.countLengths lengths) maxBits) _ >>= _) = _
  rw [placeAll_eq hfit (show lengths.drop 0 = lengths from rfl) (placed_start hfit)]
  rfl

/-- The rounds of `decode` from length `len` on. The code is not below the first one of its length,
so no index is negative; and no index is past the symbols that were placed. -/
theorem decodeFrom_eq_lift {lengths : List ℕ} (hfit : Fit lengths) {rounds len code first : ℕ}
    {s : Bits} (hlen : len + rounds = 16) (hpos : len ≠ 0) (hfirst : first ≤ code) :
    decodeFrom (Inflate.construct lengths) rounds len code first (offset lengths len) s =
      lift (Inflate.decodeFrom (Inflate.construct lengths) rounds len code first
        (offset lengths len) s) := by
  induction rounds generalizing len code first s with
  | zero => rfl
  | succ rounds ih =>
    have hlength := length_count lengths
    have hcount : (Inflate.construct lengths).count.getD len 0 = Deflate.lengthCount lengths len :=
      (getD_countLengths hfit.le_max len).trans (if_neg hpos).symm
    unfold decodeFrom Inflate.decodeFrom
    rw [take_eq_lift]
    apply lift_bind
    rintro ⟨bit, s'⟩ _
    have hcode : first ≤ code ||| bit := hfirst.trans Nat.left_le_or
    dsimp only
    rw [entry_eq (by omega), ok_bind]
    by_cases hfound : code ||| bit < first + (Inflate.construct lengths).count.getD len 0
    · have hindex : (offset lengths len : ℤ) + ((code ||| bit : ℕ) - (first : ℤ)) =
          (offset lengths len + ((code ||| bit) - first) : ℕ) := by omega
      have hin : offset lengths len + ((code ||| bit) - first) <
          (Inflate.construct lengths).symbol.length := by
        have hplaced := (offset_mono lengths len.lt_succ_self).trans (offset_le lengths (len + 1))
        have hsymbol := length_symbol hfit
        have hmany := hfit.many
        omega
      rw [if_pos (by omega), if_pos hfound, hindex, entry_eq hin, ok_bind]
      rfl
    · rw [if_neg (by omega), if_neg hfound]
      have hnext : offset lengths len + (Inflate.construct lengths).count.getD len 0 =
          offset lengths (len + 1) := by
        rw [offset_succ, hcount]
      have hdouble (n : ℕ) : (n : ℤ) * (2 : ℤ) = ((n <<< 1 : ℕ) : ℤ) := by
        rw [Nat.shiftLeft_eq, pow_one]
        push_cast
        rfl
      rw [← Int.natCast_add, ← Int.natCast_add, hdouble, hnext]
      apply ih (by omega) len.succ_ne_zero
      rw [Nat.shiftLeft_eq, Nat.shiftLeft_eq]
      omega

/-- A code of fitting lengths decodes to a symbol that is in the table. -/
theorem decode_eq_lift {lengths : List ℕ} (hfit : Fit lengths) (s : Bits) :
    decode (Inflate.construct lengths) s = lift (Inflate.decode (Inflate.construct lengths) s) := by
  have hrun := decodeFrom_eq_lift hfit (s := s) (show 1 + 15 = 16 from rfl) Nat.one_ne_zero
    (Nat.le_refl 0)
  rw [offset_one] at hrun
  exact hrun

/-- Decoding leaves no more bits than there were. -/
theorem left_decodeFrom {h : Huffman} {rounds len code first index v : ℕ} {s s' : Bits}
    (hv : Inflate.decodeFrom h rounds len code first index s = some (v, s')) : left s' ≤ left s := by
  induction rounds generalizing len code first index s with
  | zero => exact absurd hv (Option.some_ne_none _).symm
  | succ rounds ih =>
    unfold Inflate.decodeFrom at hv
    rw [Option.bind_eq_bind, Option.bind_eq_some_iff] at hv
    obtain ⟨⟨bit, t⟩, htake, hv⟩ := hv
    have hleft := (left_take htake).2
    dsimp only at hv
    split at hv
    · rw [Option.pure_def, Option.some.injEq, Prod.mk.injEq] at hv
      rw [← hv.2]
      omega
    · have hrest := ih hv
      omega

theorem left_decode {h : Huffman} {v : ℕ} {s s' : Bits} (hv : Inflate.decode h s = some (v, s')) :
    left s' ≤ left s := left_decodeFrom hv

/-! ## Output -/

/-- A write within the output is the output's own. -/
theorem write_eq {out : Output} (h : out.data.length < out.size) (byte : UInt8) :
    write out byte = .ok { out with data := out.data ++ [byte] } := if_pos h

/-- A byte that does not fit is refused and not written. -/
theorem put_eq_lift (out : Output) (byte : ℕ) : put out byte = lift (out.put byte) := by
  unfold put Output.put
  by_cases hfull : out.size ≤ out.data.length
  · rw [if_pos hfull, if_pos hfull]
    rfl
  · rw [if_neg hfull, if_neg hfull, write_eq (Nat.lt_of_not_le hfull)]
    rfl

/-- All bytes are written where there is room for them. -/
theorem writeAll_eq {out : Output} {bytes : Bytes} (h : out.data.length + bytes.length ≤ out.size) :
    writeAll out bytes = .ok { out with data := out.data ++ bytes } := by
  induction bytes generalizing out with
  | nil =>
    rw [List.append_nil]
    rfl
  | cons byte bytes ih =>
    rw [List.length_cons] at h
    unfold writeAll
    rw [write_eq (by omega), ok_bind, ih (by simp; omega), List.append_assoc]
    rfl

/-- A distance within what was written reads it. -/
theorem readBack_eq {out : Output} {distance : ℕ} (hpos : 0 < distance)
    (hle : distance ≤ out.data.length) :
    readBack out distance = .ok (out.data.getD (out.data.length - distance) 0) := by
  have hin : out.data.length - distance < out.data.length := by omega
  unfold readBack
  rw [if_pos hle, List.getElem?_eq_getElem hin, List.getD_eq_getElem _ _ hin]

/-- Each byte of a run is read after the start and written before the end. -/
theorem copyFrom_eq {distance length : ℕ} {out : Output} (hpos : 0 < distance)
    (hle : distance ≤ out.data.length) (hroom : out.data.length + length ≤ out.size) :
    copyFrom distance length out =
      .ok { out with data := Inflate.copyFrom distance length out.data } := by
  induction length generalizing out with
  | zero => rfl
  | succ length ih =>
    unfold copyFrom Inflate.copyFrom
    rw [readBack_eq hpos hle, ok_bind, write_eq (by omega), ok_bind]
    exact ih (by simp; omega) (by simp; omega)

/-- A copy is as long as it says. -/
theorem length_copyFrom (distance length : ℕ) (data : Bytes) :
    (Inflate.copyFrom distance length data).length = data.length + length := by
  induction length generalizing data with
  | zero => rfl
  | succ length ih =>
    unfold Inflate.copyFrom
    rw [ih, List.length_append, List.length_singleton]
    omega

/-! ## Blocks -/

/-- A stored block reads and writes within bounds. -/
theorem stored_eq_lift (s : Bits) (out : Output) : stored s out = lift (Inflate.stored s out) := by
  obtain ⟨rest, buffer, count⟩ := s
  match rest with
  | [] | [_] | [_, _] | [_, _, _] => rfl
  | len₀ :: len₁ :: nlen₀ :: nlen₁ :: rest =>
    unfold stored Inflate.stored
    dsimp only
    split_ifs with hnlen hrest hroom
    · rfl
    · rfl
    · rfl
    · rw [writeAll_eq (by rw [List.length_take]; omega)]
      rfl

/-- A stored block leaves no more bits than there were. -/
theorem left_stored {s s' : Bits} {out out' : Output}
    (h : Inflate.stored s out = some (s', out')) : left s' ≤ left s := by
  unfold Inflate.stored at h
  split at h
  · rename_i len₀ len₁ nlen₀ nlen₁ rest hrest
    dsimp only at h
    split_ifs at h
    rw [Option.some.injEq, Prod.mk.injEq] at h
    rw [← h.1]
    unfold left
    rw [hrest]
    simp
    omega
  · exact absurd h (Option.some_ne_none _).symm

theorem lens_pos {i : ℕ} (hi : i < 29) : 0 < lens.getD i 0 := by
  revert i
  decide

theorem dists_pos {i : ℕ} (hi : i < 30) : 0 < dists.getD i 0 := by
  revert i
  decide

/-- A copy looks up lengths and distances within their tables and reads back what was written. -/
theorem copy_eq_lift {lengths : List ℕ} (hfit : Fit lengths) (symbol : ℕ) (s : Bits) (out : Output) :
    copy (Inflate.construct lengths) symbol s out =
      lift (Inflate.copy (Inflate.construct lengths) symbol s out) := by
  unfold copy Inflate.copy
  dsimp only
  by_cases hindex : 29 ≤ symbol - 257
  · rw [if_pos hindex, if_pos hindex]
    rfl
  · rw [if_neg hindex, if_neg hindex, entry_eq (show symbol - 257 < lext.length from by
      show _ < 29; omega), ok_bind, take_eq_lift]
    apply lift_bind
    rintro ⟨extra, s₁⟩ _
    dsimp only
    rw [entry_eq (show symbol - 257 < lens.length from by show _ < 29; omega), ok_bind,
      decode_eq_lift hfit]
    apply lift_bind
    rintro ⟨dsym, s₂⟩ _
    dsimp only
    by_cases hdsym : 30 ≤ dsym
    · rw [if_pos hdsym, if_pos hdsym]
      rfl
    · rw [if_neg hdsym, if_neg hdsym, entry_eq (show dsym < dext.length from by show _ < 30; omega),
        ok_bind, take_eq_lift]
      apply lift_bind
      rintro ⟨dextra, s₃⟩ _
      dsimp only
      rw [entry_eq (show dsym < dists.length from by show _ < 30; omega), ok_bind]
      have hpos := dists_pos (Nat.lt_of_not_le hdsym)
      split_ifs with hstart hend
      · rfl
      · rfl
      · rw [copyFrom_eq (Nat.add_pos_left hpos dextra) (Nat.le_of_not_lt hstart) (Nat.le_of_not_lt hend)]
        rfl

/-- A run writes at least one byte, and not past the end. -/
theorem copy_spec {dist : Huffman} {symbol : ℕ} {s s' : Bits} {out out' : Output}
    (h : Inflate.copy dist symbol s out = some (s', out')) :
    left s' ≤ left s ∧ out'.size = out.size ∧ out.data.length < out'.data.length ∧
      out'.data.length ≤ out'.size := by
  unfold Inflate.copy at h
  dsimp only at h
  split at h
  · exact absurd h (Option.some_ne_none _).symm
  · rename_i hindex
    simp only [Option.bind_eq_bind, Option.bind_eq_some_iff] at h
    obtain ⟨⟨extra, s₁⟩, hextra, ⟨dsym, s₂⟩, hdsym, h⟩ := h
    dsimp only at h
    split at h
    · exact absurd h (Option.some_ne_none _).symm
    · rw [Option.bind_eq_some_iff] at h
      obtain ⟨⟨dextra, s₃⟩, hdextra, h⟩ := h
      dsimp only at h
      split_ifs at h with hstart hend
      rw [Option.some.injEq, Prod.mk.injEq] at h
      obtain ⟨rfl, rfl⟩ := h
      have hpos := lens_pos (Nat.lt_of_not_le hindex)
      have h₁ := (left_take hextra).2
      have h₂ : left s₂ ≤ left s₁ := left_decode hdsym
      have h₃ := (left_take hdextra).2
      rw [length_copyFrom]
      dsimp only
      refine ⟨?_, rfl, ?_, ?_⟩ <;> omega

/-- Each round writes a byte, so there are no more of them than bytes that can be written. -/
theorem codesFrom_eq_lift {lit dist : List ℕ} (hlit : Fit lit) (hdist : Fit dist) {rounds : ℕ}
    {s : Bits} {out : Output} (hrounds : out.size - out.data.length < rounds) :
    codesFrom (Inflate.construct lit) (Inflate.construct dist) rounds s out =
      lift (Inflate.codesFrom (Inflate.construct lit) (Inflate.construct dist) rounds s out) := by
  induction rounds generalizing s out with
  | zero => exact absurd hrounds (Nat.not_lt_zero _)
  | succ rounds ih =>
    unfold codesFrom Inflate.codesFrom
    rw [decode_eq_lift hlit]
    apply lift_bind
    rintro ⟨symbol, s₁⟩ _
    dsimp only
    split_ifs with hliteral hend
    · rw [put_eq_lift]
      apply lift_bind
      intro out₁ hput
      unfold Output.put at hput
      split_ifs at hput with hfull
      rw [Option.some.injEq] at hput
      subst hput
      exact ih (by simp; omega)
    · rfl
    · rw [copy_eq_lift hdist]
      apply lift_bind
      rintro ⟨s₂, out₁⟩ hcopy
      have hspec := copy_spec hcopy
      dsimp only
      exact ih (by omega)

/-- The codes of a block leave no more bits than there were. -/
theorem left_codesFrom {lit dist : Huffman} {rounds : ℕ} {s s' : Bits} {out out' : Output}
    (h : Inflate.codesFrom lit dist rounds s out = some (s', out')) : left s' ≤ left s := by
  induction rounds generalizing s out with
  | zero => exact absurd h (Option.some_ne_none _).symm
  | succ rounds ih =>
    unfold Inflate.codesFrom at h
    rw [Option.bind_eq_bind, Option.bind_eq_some_iff] at h
    obtain ⟨⟨symbol, s₁⟩, hdecode, h⟩ := h
    have hfirst := left_decode hdecode
    dsimp only at h
    split_ifs at h with hliteral hend
    · rw [Option.bind_eq_bind, Option.bind_eq_some_iff] at h
      obtain ⟨out₁, _, h⟩ := h
      exact (ih h).trans hfirst
    · rw [Option.pure_def, Option.some.injEq, Prod.mk.injEq] at h
      rw [← h.1]
      exact hfirst
    · rw [Option.bind_eq_bind, Option.bind_eq_some_iff] at h
      obtain ⟨⟨s₂, out₁⟩, hcopy, h⟩ := h
      exact (ih h).trans ((copy_spec hcopy).1.trans hfirst)

/-- The codes of a block read and write within bounds. -/
theorem codes_eq_lift {lit dist : List ℕ} (hlit : Fit lit) (hdist : Fit dist) (s : Bits)
    (out : Output) :
    codes s out (Inflate.construct lit) (Inflate.construct dist) =
      lift (Inflate.codes s out (Inflate.construct lit) (Inflate.construct dist)) :=
  codesFrom_eq_lift hlit hdist (Nat.lt_succ_self _)

/-- The fixed lengths fit. -/
theorem fit_fixedLit : Fit fixedLit := by
  refine ⟨?_, ?_⟩
  · intro len hlen
    unfold fixedLit at hlen
    rw [List.mem_map] at hlen
    obtain ⟨i, _, rfl⟩ := hlen
    split_ifs <;> omega
  · unfold fixedLit
    rw [List.length_map, List.length_range]
    decide

theorem fit_fixedDist : Fit fixedDist := by
  refine ⟨?_, ?_⟩
  · intro len hlen
    rw [List.eq_of_mem_replicate hlen]
    omega
  · unfold fixedDist
    rw [List.length_replicate]
    decide

/-- A block of fixed codes reads and writes within bounds. -/
theorem fixedBlock_eq_lift (s : Bits) (out : Output) :
    fixedBlock s out = lift (Inflate.fixedBlock s out) := by
  unfold fixedBlock Inflate.fixedBlock
  rw [construct_eq fit_fixedLit, ok_bind, construct_eq fit_fixedDist, ok_bind]
  exact codes_eq_lift fit_fixedLit fit_fixedDist s out

/-! ## The lengths of a dynamic block -/

/-- What the array of lengths is all along. -/
structure LengthArray (lengths : List ℕ) : Prop where
  length_eq : lengths.length = 320
  le_max : ∀ len ∈ lengths, len ≤ 15

/-- The lengths of a block fit the tables. -/
theorem LengthArray.fit {lengths : List ℕ} (h : LengthArray lengths) : Fit lengths :=
  ⟨h.le_max, h.length_eq.le⟩

/-- A length of at most 15 keeps them so. -/
theorem LengthArray.set {lengths : List ℕ} (h : LengthArray lengths) (i : ℕ) {v : ℕ} (hv : v ≤ 15) :
    LengthArray (lengths.set i v) := by
  refine ⟨by rw [List.length_set, h.length_eq], fun len hlen => ?_⟩
  rcases List.mem_or_eq_of_mem_set hlen with hold | rfl
  · exact h.le_max len hold
  · exact hv

theorem LengthArray.getD_le {lengths : List ℕ} (h : LengthArray lengths) (i : ℕ) : lengths.getD i 0 ≤ 15 := by
  by_cases hi : i < lengths.length
  · rw [List.getD_eq_getElem lengths 0 hi]
    exact h.le_max _ (List.getElem_mem hi)
  · rw [List.getD_eq_default lengths 0 (Nat.le_of_not_lt hi)]
    omega

/-- Lengths of zero do. -/
theorem array_start : LengthArray (List.replicate (litCodes + distCodes + 2) 0) := by
  refine ⟨List.length_replicate, fun len hlen => ?_⟩
  rw [List.eq_of_mem_replicate hlen]
  omega

/-- The lengths of the code for lengths are stored within the table. -/
theorem readCodeLengths_eq_lift {is lengths : List ℕ} (his : ∀ i ∈ is, i < 19)
    (hlengths : LengthArray lengths) (s : Bits) :
    readCodeLengths is lengths s = lift (Inflate.readCodeLengths is lengths s) := by
  induction is generalizing lengths s with
  | nil => rfl
  | cons i is ih =>
    have hi := his i List.mem_cons_self
    have hin : i < lengths.length := by
      rw [hlengths.length_eq]
      omega
    unfold readCodeLengths Inflate.readCodeLengths
    rw [take_eq_lift]
    apply lift_bind
    rintro ⟨bits, s₁⟩ htake
    have hbits : bits < 2 ^ 3 := (left_take htake).1
    dsimp only
    rw [store_eq hin, ok_bind]
    exact ih (fun j hj => his j (List.mem_cons_of_mem i hj)) (hlengths.set i (by omega)) s₁

/-- What they are stored in still fits, and no bits are gained. -/
theorem readCodeLengths_spec {is lengths lengths' : List ℕ} {s s' : Bits} (hlengths : LengthArray lengths)
    (h : Inflate.readCodeLengths is lengths s = some (lengths', s')) :
    LengthArray lengths' ∧ left s' ≤ left s := by
  induction is generalizing lengths s with
  | nil =>
    unfold Inflate.readCodeLengths at h
    rw [Option.some.injEq, Prod.mk.injEq] at h
    obtain ⟨rfl, rfl⟩ := h
    exact ⟨hlengths, le_rfl⟩
  | cons i is ih =>
    unfold Inflate.readCodeLengths at h
    rw [Option.bind_eq_bind, Option.bind_eq_some_iff] at h
    obtain ⟨⟨bits, s₁⟩, htake, h⟩ := h
    obtain ⟨hbits, hleft⟩ := left_take htake
    obtain ⟨harray, hrest⟩ := ih (hlengths.set i (by omega)) h
    exact ⟨harray, by omega⟩

/-- Clearing the rest of them stays within the table too. -/
theorem clearLengths_spec {is lengths : List ℕ} (his : ∀ i ∈ is, i < 19) (hlengths : LengthArray lengths) :
    clearLengths is lengths = .ok (Inflate.clearLengths is lengths) ∧
      LengthArray (Inflate.clearLengths is lengths) := by
  induction is generalizing lengths with
  | nil => exact ⟨rfl, hlengths⟩
  | cons i is ih =>
    have hi := his i List.mem_cons_self
    have hin : i < lengths.length := by
      rw [hlengths.length_eq]
      omega
    have hrest := ih (fun j hj => his j (List.mem_cons_of_mem i hj)) (hlengths.set i (Nat.zero_le 15))
    unfold clearLengths
    rw [store_eq hin, ok_bind]
    exact hrest

/-- The length that is repeated is read within the table. -/
theorem repeated_eq_lift {lengths : List ℕ} {index : ℕ} (hindex : index < lengths.length)
    (symbol : ℕ) (s : Bits) :
    repeated symbol index lengths s = lift (Inflate.repeated symbol index lengths s) := by
  unfold repeated Inflate.repeated
  by_cases hcopy : symbol = 16
  · rw [if_pos hcopy, if_pos hcopy]
    by_cases hnone : index = 0
    · rw [if_pos hnone, if_pos hnone]
      rfl
    · have hback : (index : ℤ) - 1 = ((index - 1 : ℕ) : ℤ) := by omega
      rw [if_neg hnone, if_neg hnone, hback, entry_eq (by omega), ok_bind, take_eq_lift]
      cases s.take 2 <;> rfl
  · rw [if_neg hcopy, if_neg hcopy]
    by_cases hshort : symbol = 17
    · rw [if_pos hshort, if_pos hshort, take_eq_lift]
      cases s.take 3 <;> rfl
    · rw [if_neg hshort, if_neg hshort, take_eq_lift]
      cases s.take 7 <;> rfl

/-- A repeat symbol writes three lengths or more. -/
theorem repeated_spec {lengths : List ℕ} (hlengths : LengthArray lengths) {symbol index value n : ℕ}
    {s s' : Bits} (h : Inflate.repeated symbol index lengths s = some (value, n, s')) :
    value ≤ 15 ∧ 3 ≤ n ∧ left s' ≤ left s := by
  unfold Inflate.repeated at h
  split_ifs at h
  · rw [Option.map_eq_some_iff] at h
    obtain ⟨⟨extra, t⟩, htake, h⟩ := h
    simp only [Prod.mk.injEq] at h
    obtain ⟨rfl, rfl, rfl⟩ := h
    have hleft := (left_take htake).2
    exact ⟨hlengths.getD_le _, by omega, by omega⟩
  · rw [Option.map_eq_some_iff] at h
    obtain ⟨⟨extra, t⟩, htake, h⟩ := h
    simp only [Prod.mk.injEq] at h
    obtain ⟨rfl, rfl, rfl⟩ := h
    have hleft := (left_take htake).2
    exact ⟨by omega, by omega, by omega⟩
  · rw [Option.map_eq_some_iff] at h
    obtain ⟨⟨extra, t⟩, htake, h⟩ := h
    simp only [Prod.mk.injEq] at h
    obtain ⟨rfl, rfl, rfl⟩ := h
    have hleft := (left_take htake).2
    exact ⟨by omega, by omega, by omega⟩

/-- A run of lengths that has room is stored within the table. -/
theorem setRun_spec {value n index : ℕ} {lengths : List ℕ} (hvalue : value ≤ 15)
    (hlengths : LengthArray lengths) (hroom : index + n ≤ 320) :
    setRun value n index lengths = .ok (Inflate.setRun value n index lengths) ∧
      LengthArray (Inflate.setRun value n index lengths) := by
  induction n generalizing index lengths with
  | zero => exact ⟨rfl, hlengths⟩
  | succ n ih =>
    have hin : index < lengths.length := by
      rw [hlengths.length_eq]
      omega
    have hrest := ih (hlengths.set index hvalue) (show index + 1 + n ≤ 320 by omega)
    unfold setRun Inflate.setRun
    rw [store_eq hin, ok_bind]
    exact hrest

/-- Each round writes a length, so there are no more of them than lengths to write. -/
theorem readLengths_eq_lift {codes lengths : List ℕ} (hcodes : Fit codes) {total : ℕ}
    (htotal : total ≤ 320) {rounds index : ℕ} (hlengths : LengthArray lengths)
    (hrounds : total - index < rounds) (s : Bits) :
    readLengths (Inflate.construct codes) total rounds index lengths s =
      lift (Inflate.readLengths (Inflate.construct codes) total rounds index lengths s) := by
  induction rounds generalizing index lengths s with
  | zero => exact absurd hrounds (Nat.not_lt_zero _)
  | succ rounds ih =>
    unfold readLengths Inflate.readLengths
    by_cases hdone : total ≤ index
    · rw [if_pos hdone, if_pos hdone]
      rfl
    · rw [if_neg hdone, if_neg hdone, decode_eq_lift hcodes]
      apply lift_bind
      rintro ⟨symbol, s₁⟩ _
      have hin : index < lengths.length := by
        rw [hlengths.length_eq]
        omega
      dsimp only
      by_cases hlength : symbol < 16
      · rw [if_pos hlength, if_pos hlength, store_eq hin, ok_bind]
        exact ih (hlengths.set index (by omega)) (by omega) s₁
      · rw [if_neg hlength, if_neg hlength, repeated_eq_lift hin]
        apply lift_bind
        rintro ⟨value, n, s₂⟩ hrepeat
        obtain ⟨hvalue, hn, _⟩ := repeated_spec hlengths hrepeat
        dsimp only
        by_cases hover : total < index + n
        · rw [if_pos hover, if_pos hover]
          rfl
        · obtain ⟨hrun, harray⟩ :=
            setRun_spec hvalue hlengths (show index + n ≤ 320 by omega)
          rw [if_neg hover, if_neg hover, hrun, ok_bind]
          exact ih harray (by omega) s₂

/-- The lengths that are read fit, and no bits are gained. -/
theorem readLengths_spec {code : Huffman} {lengths lengths' : List ℕ} {total : ℕ}
    (htotal : total ≤ 320) {rounds index : ℕ} (hlengths : LengthArray lengths) {s s' : Bits}
    (h : Inflate.readLengths code total rounds index lengths s = some (lengths', s')) :
    LengthArray lengths' ∧ left s' ≤ left s := by
  induction rounds generalizing index lengths s with
  | zero => exact absurd h (Option.some_ne_none _).symm
  | succ rounds ih =>
    unfold Inflate.readLengths at h
    by_cases hdone : total ≤ index
    · rw [if_pos hdone, Option.some.injEq, Prod.mk.injEq] at h
      obtain ⟨rfl, rfl⟩ := h
      exact ⟨hlengths, le_rfl⟩
    · rw [if_neg hdone, Option.bind_eq_bind, Option.bind_eq_some_iff] at h
      obtain ⟨⟨symbol, s₁⟩, hdecode, h⟩ := h
      have hfirst := left_decode hdecode
      dsimp only at h
      by_cases hlength : symbol < 16
      · rw [if_pos hlength] at h
        obtain ⟨harray, hrest⟩ := ih (hlengths.set index (by omega)) h
        exact ⟨harray, hrest.trans hfirst⟩
      · rw [if_neg hlength, Option.bind_eq_bind, Option.bind_eq_some_iff] at h
        obtain ⟨⟨value, n, s₂⟩, hrepeat, h⟩ := h
        obtain ⟨hvalue, _, hsecond⟩ := repeated_spec hlengths hrepeat
        dsimp only at h
        by_cases hover : total < index + n
        · rw [if_pos hover] at h
          exact absurd h (Option.some_ne_none _).symm
        · obtain ⟨_, hrun⟩ := setRun_spec hvalue hlengths (show index + n ≤ 320 by omega)
          rw [if_neg hover] at h
          obtain ⟨harray, hrest⟩ := ih hrun h
          exact ⟨harray, hrest.trans (hsecond.trans hfirst)⟩

/-- A part within the lengths is read within bounds. -/
theorem part_eq {lengths : List ℕ} {from' n : ℕ} (h : from' + n ≤ lengths.length) :
    part lengths from' n = .ok ((lengths.drop from').take n) := if_pos h

/-- A part of the lengths fits. -/
theorem LengthArray.part {lengths : List ℕ} (h : LengthArray lengths) (from' n : ℕ) :
    Fit ((lengths.drop from').take n) :=
  h.fit.sublist ((List.take_sublist n _).trans (List.drop_sublist from' _))

/-- The order of the lengths names the first 19 symbols. -/
theorem order_lt {i : ℕ} (hi : i ∈ order) : i < 19 := by
  revert i
  decide

/-- A block with its own codes reads and writes within bounds. -/
theorem dynamicBlock_eq_lift (s : Bits) (out : Output) :
    dynamicBlock s out = lift (Inflate.dynamicBlock s out) := by
  unfold dynamicBlock Inflate.dynamicBlock
  rw [take_eq_lift]
  apply lift_bind
  rintro ⟨nlen, s₁⟩ _
  dsimp only
  rw [take_eq_lift]
  apply lift_bind
  rintro ⟨ndist, s₂⟩ _
  dsimp only
  rw [take_eq_lift]
  apply lift_bind
  rintro ⟨ncode, s₃⟩ hncode
  have hcounts : ncode < 2 ^ 4 := (left_take hncode).1
  dsimp only
  by_cases hmany : litCodes < nlen + 257 ∨ distCodes + 2 < ndist + 1
  · rw [if_pos hmany, if_pos hmany]
    rfl
  -- within the counts that are let through, no length is written past the array
  · have htotal : nlen + 257 + (ndist + 1) ≤ 320 := by
      unfold litCodes distCodes at hmany
      omega
    have horder : order.length = 19 := rfl
    rw [if_neg hmany, if_neg hmany, if_neg (by omega), readCodeLengths_eq_lift
      (fun i hi => order_lt (List.mem_of_mem_take hi)) array_start]
    apply lift_bind
    rintro ⟨lengths₁, s₄⟩ hread
    obtain ⟨harray₁, _⟩ := readCodeLengths_spec array_start hread
    have hrest : ∀ i ∈ order.drop (ncode + 4), i < 19 :=
      fun i hi => order_lt (List.mem_of_mem_drop hi)
    obtain ⟨hclear, harray₂⟩ := clearLengths_spec hrest harray₁
    dsimp only
    rw [hclear, ok_bind, part_eq (by rw [harray₂.length_eq]; omega), ok_bind,
      construct_eq (harray₂.part 0 19), ok_bind,
      readLengths_eq_lift (harray₂.part 0 19) htotal harray₂ (by omega)]
    apply lift_bind
    rintro ⟨lengths₃, s₅⟩ hread
    obtain ⟨harray₃, _⟩ := readLengths_spec htotal harray₂ hread
    have hlength := harray₃.length_eq
    have hlast : entry lengths₃ 256 = .ok (lengths₃.getD 256 0) := entry_eq (i := 256) (by omega)
    dsimp only
    rw [hlast, ok_bind]
    by_cases hend : lengths₃.getD 256 0 = 0
    · rw [if_pos hend, if_pos hend]
      rfl
    · rw [if_neg hend, if_neg hend, part_eq (by omega), ok_bind, construct_eq (harray₃.part 0 _),
        ok_bind, part_eq (by omega), ok_bind, construct_eq (harray₃.part _ _), ok_bind]
      exact codes_eq_lift (harray₃.part 0 _) (harray₃.part _ _) s₅ out

/-- Such a block leaves no more bits than there were. -/
theorem left_dynamicBlock {s s' : Bits} {out out' : Output}
    (h : Inflate.dynamicBlock s out = some (s', out')) : left s' ≤ left s := by
  unfold Inflate.dynamicBlock at h
  simp only [Option.bind_eq_bind, Option.bind_eq_some_iff] at h
  obtain ⟨⟨nlen, s₁⟩, h₁, ⟨ndist, s₂⟩, h₂, ⟨ncode, s₃⟩, h₃, h⟩ := h
  dsimp only at h₁ h₂ h₃ h
  split_ifs at h with hmany
  have htotal : nlen + 257 + (ndist + 1) ≤ 320 := by
    unfold litCodes distCodes at hmany
    omega
  rw [Option.bind_eq_some_iff] at h
  obtain ⟨⟨lengths₁, s₄⟩, h₄, h⟩ := h
  rw [Option.bind_eq_some_iff] at h
  obtain ⟨⟨lengths₂, s₅⟩, h₅, h⟩ := h
  dsimp only at h₄ h₅ h
  split_ifs at h with hend
  obtain ⟨harray₁, hleft₄⟩ := readCodeLengths_spec array_start h₄
  have hrest : ∀ i ∈ order.drop (ncode + 4), i < 19 :=
    fun i hi => order_lt (List.mem_of_mem_drop hi)
  have harray₂ := (clearLengths_spec hrest harray₁).2
  have hleft₅ := (readLengths_spec htotal harray₂ h₅).2
  have hleft₁ := (left_take h₁).2
  have hleft₂ := (left_take h₂).2
  have hleft₃ := (left_take h₃).2
  have hleft := left_codesFrom h
  omega

/-! ## The whole stream -/

/-- Any block reads and writes within bounds. -/
theorem block_eq_lift (type : ℕ) (s : Bits) (out : Output) :
    block type s out = lift (Inflate.block type s out) := by
  unfold block Inflate.block
  split_ifs
  · exact stored_eq_lift s out
  · exact fixedBlock_eq_lift s out
  · exact dynamicBlock_eq_lift s out
  · rfl

/-- No block leaves more bits than there were. -/
theorem left_block {type : ℕ} {s s' : Bits} {out out' : Output}
    (h : Inflate.block type s out = some (s', out')) : left s' ≤ left s := by
  unfold Inflate.block at h
  split_ifs at h
  · exact left_stored h
  · exact left_codesFrom h
  · exact left_dynamicBlock h

/-- Each block takes a bit, so there are no more of them than bits. -/
theorem blocksFrom_eq_lift {rounds : ℕ} {s : Bits} {out : Output} (hrounds : left s < rounds) :
    blocksFrom rounds s out = lift (Inflate.blocksFrom rounds s out) := by
  induction rounds generalizing s out with
  | zero => exact absurd hrounds (Nat.not_lt_zero _)
  | succ rounds ih =>
    unfold blocksFrom Inflate.blocksFrom
    rw [take_eq_lift]
    apply lift_bind
    rintro ⟨last, s₁⟩ hlast
    dsimp only
    rw [take_eq_lift]
    apply lift_bind
    rintro ⟨type, s₂⟩ htype
    dsimp only
    rw [block_eq_lift]
    apply lift_bind
    rintro ⟨s₃, out₁⟩ hblock
    have hleft₁ := (left_take hlast).2
    have hleft₂ := (left_take htype).2
    have hleft₃ := left_block hblock
    dsimp only
    split_ifs
    · rfl
    · exact ih (by omega)

/-- With its accesses checked, the decompression is the one without the checks. -/
theorem inflate_eq_lift (input : Bytes) (outSize : ℕ) :
    inflate input outSize = lift (Inflate.inflate input outSize) := by
  match input with
  | [] | [_] => rfl
  | b₀ :: b₁ :: rest =>
    unfold inflate Inflate.inflate
    dsimp only
    rw [blocksFrom_eq_lift (by unfold left; dsimp only; omega)]
    apply lift_bind
    intro out _
    split_ifs <;> rfl

/-- What is inflated fills the output. -/
theorem length_of_inflate {input data : Bytes} {outSize : ℕ}
    (h : Inflate.inflate input outSize = some data) : data.length = outSize := by
  match input with
  | [] | [_] => exact absurd h (Option.some_ne_none _).symm
  | b₀ :: b₁ :: rest =>
    unfold Inflate.inflate at h
    simp only [Option.bind_eq_bind, Option.bind_eq_some_iff] at h
    obtain ⟨out, _, h⟩ := h
    split_ifs at h with hsize
    rw [Option.pure_def, Option.some.injEq] at h
    rw [← h, hsize]

/-- Whatever the input is, the decompression ends with a text of the size it was asked for, or it
refuses the input; no access is a fault on the way. -/
theorem inflate_safe (input : Bytes) (outSize : ℕ) :
    (∃ data, inflate input outSize = .ok data ∧ Inflate.inflate input outSize = some data ∧
        data.length = outSize) ∨
      (inflate input outSize = .error .refused ∧ Inflate.inflate input outSize = none) := by
  rw [inflate_eq_lift]
  cases h : Inflate.inflate input outSize with
  | none => exact .inr ⟨rfl, rfl⟩
  | some data => exact .inl ⟨data, rfl, rfl, length_of_inflate h⟩

end Checked
end Inflate
end Pak
end Bg3le
