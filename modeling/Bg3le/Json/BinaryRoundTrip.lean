import Bg3le.Json.BinaryTheorems
import Bg3le.Json.StringifyTheorems

/-!
# The round trip of the binary form

A blob that was written of a value is read as that value, with its floats as floats.
-/

namespace Bg3le
namespace Json

open NumberText JsonText

variable {host : Host} {hash : Bytes → ℕ} {unsupported : Value → Bytes} {buf blob : Bytes}
  {fuel depth n width : ℕ}

/-! ## What lies in a buffer -/

/-- Some bytes stand at a position. -/
structure Lies (buf : Bytes) (pos : ℕ) (bs : Bytes) : Prop where
  le : pos + bs.length ≤ buf.length
  eq : (buf.drop pos).take bs.length = bs

variable {pos : ℕ} {a b bs s : Bytes}

/-- What follows a beginning of the buffer lies after it. -/
theorem lies_of_prefix (h : a ++ bs <+: buf) : Lies buf a.length bs := by
  obtain ⟨rest, rfl⟩ := h
  constructor
  · simp
  · simp

/-- It lies there in any longer buffer. -/
theorem Lies.of_prefix (h : Lies a pos bs) (hbefore : a <+: buf) : Lies buf pos bs := by
  obtain ⟨rest, rfl⟩ := hbefore
  have hle := h.le
  refine ⟨by rw [List.length_append]; omega, ?_⟩
  rw [List.drop_append_of_le_length (by omega), List.take_append_of_le_length, h.eq]
  rw [List.length_drop]
  omega

theorem Lies.left (h : Lies buf pos (a ++ b)) : Lies buf pos a := by
  have hle := h.le
  rw [List.length_append] at hle
  refine ⟨by omega, ?_⟩
  have htake := congrArg (List.take a.length) h.eq
  rwa [List.take_take, List.length_append, Nat.min_eq_left (Nat.le_add_right _ _), List.take_left] at htake

theorem Lies.right (h : Lies buf pos (a ++ b)) : Lies buf (pos + a.length) b := by
  have hle := h.le
  rw [List.length_append] at hle
  refine ⟨by omega, ?_⟩
  have hdrop := congrArg (List.drop a.length) h.eq
  rwa [List.drop_take, List.drop_drop, List.length_append, Nat.add_sub_cancel_left, List.drop_left] at hdrop

theorem Lies.head {c : UInt8} (h : Lies buf pos (c :: bs)) : buf[pos]? = some c := by
  have hhead := congrArg List.head? h.eq
  rwa [List.head?_take, if_neg (by simp), List.head?_drop] at hhead

theorem Lies.tail {c : UInt8} (h : Lies buf pos (c :: bs)) : Lies buf (pos + 1) bs :=
  Lies.right (a := [c]) h

namespace BinaryReader

variable {c : UInt8}

/-- There are as many bytes left as are there. -/
theorem require_ok (hsmall : buf.length < 2 ^ 32) (h : pos + n ≤ buf.length) :
    require buf ⟨pos, depth⟩ n = .ok () := by
  unfold require available
  rw [if_neg (by simp only; omega)]

/-- The position moves by what was read. -/
theorem consume_ok (hsmall : buf.length < 2 ^ 32) (h : pos + n ≤ buf.length) :
    consume ⟨pos, depth⟩ n = ⟨pos + n, depth⟩ := by
  unfold consume
  rw [Nat.mod_eq_of_lt (by simp only; omega)]

/-- The byte at the position is read. -/
theorem curByte_ok (h : Lies buf pos (c :: bs)) : curByte buf ⟨pos, depth⟩ = .ok c := by
  rw [curByte, h.head]

/-- Bytes after the position are read. -/
theorem cur_ok {off : ℕ} (h : Lies buf (pos + off) bs) : cur buf ⟨pos, depth⟩ off bs.length = .ok bs := by
  rw [cur, if_pos h.le, h.eq]

/-- The next type is the one in the low bits of the next byte. -/
theorem peekNext_ok (hsmall : buf.length < 2 ^ 32) (h : Lies buf pos (c :: bs)) :
    peekNext buf ⟨pos, depth⟩ = .ok (TypeTag.ofByte c) := by
  have hle := h.le
  rw [List.length_cons] at hle
  rw [peekNext, require_ok hsmall (by omega), curByte_ok h]
  rfl

/-! ### Tags -/

/-- A tag has its type in the low bits and a number above them. -/
theorem tag_toNat (type : TypeTag) (n : ℕ) : (tag type n).toNat = type.code + 16 * (n % 16) := by
  have hcode : type.code < 16 := by cases type <;> decide
  rw [tag, Nat.toUInt8, UInt8.toNat_ofNat']
  omega

/-- A byte has the type whose code is in its low bits. -/
theorem ofByte_of_code {type : TypeTag} (h : c.toNat % 16 = type.code) : TypeTag.ofByte c = some type := by
  rw [TypeTag.ofByte, h]
  cases type <;> rfl

@[simp] theorem ofByte_tag (type : TypeTag) (n : ℕ) : TypeTag.ofByte (tag type n) = some type := by
  refine ofByte_of_code ?_
  have hcode : type.code < 16 := by cases type <;> decide
  rw [tag_toNat]
  omega

/-- A number that was written is read. -/
theorem readPlain_ok (hsmall : buf.length < 2 ^ 32) (hn : n < 256 ^ width)
    (h : Lies buf pos (c :: LittleEndian.encode width n)) : readPlain buf ⟨pos, depth⟩ width = .ok n := by
  have hle := h.le
  rw [List.length_cons, LittleEndian.length_encode] at hle
  have hcur : cur buf ⟨pos, depth⟩ 1 _ = .ok _ := cur_ok h.tail
  rw [LittleEndian.length_encode] at hcur
  rw [readPlain, require_ok hsmall (by omega)]
  simp only [bind, Except.bind]
  rw [hcur]
  simp only
  rw [LittleEndian.decode_encode_of_lt hn]

/-- The number in a tag is read. -/
theorem typeData_ok {type : TypeTag} (h : Lies buf pos (tag type n :: bs)) (hn : n < 16) :
    typeData buf ⟨pos, depth⟩ = .ok n := by
  have hcode : type.code < 16 := by cases type <;> decide
  rw [typeData, curByte_ok h]
  refine congrArg Except.ok ?_
  rw [tag_toNat]
  omega

/-- The high bits come from the tag, the low ones from the bytes. -/
theorem readSized_ok {type : TypeTag} (hsmall : buf.length < 2 ^ 32) (hn : n < 256 ^ width * 16)
    (h : Lies buf pos (sized type width n)) : readSized buf ⟨pos, depth⟩ width = .ok n := by
  have hle := h.le
  rw [sized, List.length_cons, LittleEndian.length_encode] at hle
  have hcur : cur buf ⟨pos, depth⟩ 1 _ = .ok _ := cur_ok (Lies.tail h)
  rw [LittleEndian.length_encode] at hcur
  rw [readSized, require_ok hsmall (by omega)]
  simp only [bind, Except.bind]
  rw [typeData_ok h (Nat.div_lt_of_lt_mul hn)]
  simp only
  rw [hcur]
  simp only
  rw [LittleEndian.decode_encode, Nat.div_add_mod]

/-! ### Strings -/

theorem decode_digits {ds : List ℕ} (h : ∀ d ∈ ds, d < 256) :
    LittleEndian.decode (ds.map Nat.toUInt8) = Nat.ofDigits 256 ds := by
  induction ds with
  | nil => rfl
  | cons d ds ih =>
    have hd : d.toUInt8.toNat = d := Nat.mod_eq_of_lt (h d List.mem_cons_self)
    rw [List.map_cons, LittleEndian.decode, Nat.ofDigits_cons,
      ih fun d hd => h d (List.mem_cons_of_mem _ hd), hd]

/-- The bytes of a length that a tag counts. -/
def lengthBytes (n : ℕ) : Bytes := (Nat.digits 256 (n / 4)).map Nat.toUInt8

/-- A length is written without its two low bits, which the tag has. -/
theorem decode_lengthBytes (n : ℕ) : LittleEndian.decode (lengthBytes n) = n / 4 := by
  rw [lengthBytes, decode_digits fun d hd => Nat.digits_lt_base (by norm_num) hd, Nat.ofDigits_digits]

/-- Up to three bytes of a length are counted right. -/
theorem longTag_eq (hn : n < 2 ^ 26) : ∃ c : UInt8, longTag .string n = c :: lengthBytes n ∧
    c.toNat = 8 + 16 * (n % 4) + 64 * (lengthBytes n).length := by
  refine ⟨_, rfl, ?_⟩
  have hcount (k : ℕ) : (lengthBytes n).length ≤ k ↔ n / 4 < 256 ^ k := by
    rw [lengthBytes, List.length_map]
    exact Nat.digits_length_le_iff (by norm_num) _
  have hnone : (lengthBytes n).length ≤ 0 ↔ n / 4 < 1 := hcount 0
  have hone : (lengthBytes n).length ≤ 1 ↔ n / 4 < 0x100 := hcount 1
  have htwo : (lengthBytes n).length ≤ 2 ↔ n / 4 < 0x10000 := hcount 2
  have hthree : (lengthBytes n).length ≤ 3 ↔ n / 4 < 0x1000000 := hcount 3
  have hlength : (if 0x10000 ≤ n / 4 then 3 else if 0x100 ≤ n / 4 then 2 else if 0 < n / 4 then 1 else 0) =
      (lengthBytes n).length := by
    split_ifs <;> omega
  rw [hlength, Nat.toUInt8, UInt8.toNat_ofNat', TypeTag.code]
  omega

/-- A length below `2 ^ 26` is read. -/
theorem readLongTag_ok (hsmall : buf.length < 2 ^ 32) (hn : n < 2 ^ 26)
    (h : Lies buf pos (longTag .string n)) :
    readLongTag buf ⟨pos, depth⟩ = .ok (n, ⟨pos + (longTag .string n).length, depth⟩) := by
  obtain ⟨c, htag, hc⟩ := longTag_eq hn
  have hfew : (lengthBytes n).length < 4 := by
    have hlt := c.toNat_lt
    omega
  rw [htag] at h ⊢
  have hle := h.le
  rw [List.length_cons] at hle ⊢
  have hcount : c.toNat / 64 = (lengthBytes n).length := by omega
  have hcur : cur buf ⟨pos + 1, depth⟩ 0 _ = .ok _ := cur_ok h.tail
  rw [readLongTag, curByte_ok h]
  simp only [bind, Except.bind]
  rw [hcount, require_ok hsmall (by omega)]
  simp only
  rw [consume_ok hsmall (by omega), hcur]
  simp only
  rw [consume_ok hsmall (by omega), decode_lengthBytes]
  congr 2
  · omega
  · rw [BinaryReader.mk.injEq]
    omega

/-- A string is read. -/
theorem readString_ok (hsmall : buf.length < 2 ^ 32) (hs : s.length < 2 ^ 26)
    (h : Lies buf pos (longTag .string s.length ++ s)) :
    readString buf ⟨pos, depth⟩ = .ok (s, ⟨pos + (longTag .string s.length ++ s).length, depth⟩) := by
  have hright := h.right
  have hle := hright.le
  rw [readString, readLongTag_ok hsmall hs h.left]
  simp only [bind, Except.bind]
  rw [require_ok hsmall hle]
  simp only
  have hcur : cur buf ⟨pos + (longTag .string s.length).length, depth⟩ 0 s.length = .ok s := cur_ok hright
  rw [hcur, consume_ok hsmall hle, List.length_append, Nat.add_assoc]

/-- A reference leads back to the string, wherever the reader is. -/
theorem readStringAt_ok {start : ℕ} (hsmall : buf.length < 2 ^ 32) (hs : s.length < 2 ^ 26)
    (h : Lies buf start (longTag .string s.length ++ s)) (hstart : start ≤ pos) :
    readStringAt buf ⟨pos, depth⟩ (pos - start) = .ok s := by
  have hback : pos - (pos - start) = start := by omega
  rw [readStringAt, if_neg (by simp only; omega)]
  simp only [bind, Except.bind]
  rw [hback, readString_ok hsmall hs h]

/-- A value that is no table is parsed by its type. -/
theorem parseNext_scalar {type : TypeTag} (hsmall : buf.length < 2 ^ 32) (h : Lies buf pos (c :: bs))
    (htype : TypeTag.ofByte c = some type) (hscalar : type ≠ .object ∧ type ≠ .array) :
    parseNext buf (fuel + 1) ⟨pos, depth⟩ = parseScalar buf type ⟨pos, depth⟩ := by
  rw [parseNext, peekNext_ok hsmall h, htype]
  cases type with
  | object => exact absurd rfl hscalar.1
  | array => exact absurd rfl hscalar.2
  | _ => rfl

end BinaryReader

/-! ## What is written -/

open BinaryReader

variable {w w' w'' : BinaryWriter}

/-- What is written from one state to another is read as a value. -/
structure Written {α : Type} (parse : Bytes → ℕ → BinaryReader → Except Stop (α × BinaryReader))
    (spare : ℕ) (w w' : BinaryWriter) (depth depth' : ℕ) (v : α) : Prop where
  grows : w.buf <+: w'.buf
  lt : w.pos < w'.pos
  read : ∀ {buf : Bytes} {fuel : ℕ}, w'.buf <+: buf → buf.length < 2 ^ 32 →
    2 * (buf.length - w.pos) + spare ≤ fuel →
    parse buf fuel ⟨w.pos, depth⟩ = .ok (v, ⟨w'.pos, depth'⟩)

/-- A value that is no table is read at once. -/
theorem written_scalar (type : TypeTag) {c : UInt8} {v : Parsed} (hw : w'.buf = w.buf ++ c :: bs)
    (htype : TypeTag.ofByte c = some type) (hscalar : type ≠ .object ∧ type ≠ .array)
    (hread : ∀ {buf : Bytes}, buf.length < 2 ^ 32 → w.buf <+: buf → Lies buf w.pos (c :: bs) →
      parseScalar buf type ⟨w.pos, depth⟩ = .ok (v, consume ⟨w.pos, depth⟩ (bs.length + 1))) :
    Written parseNext 1 w w' depth depth v := by
  have hpos : w'.pos = w.pos + (bs.length + 1) := by
    rw [BinaryWriter.pos, hw, List.length_append, List.length_cons]
    rfl
  refine ⟨⟨_, hw.symm⟩, by omega, fun {buf fuel} hbefore hsmall hfuel => ?_⟩
  obtain ⟨fuel, rfl⟩ := Nat.exists_eq_add_of_le' (by omega : 1 ≤ fuel)
  rw [hw] at hbefore
  have hlies : Lies buf w.pos (c :: bs) := lies_of_prefix hbefore
  have hle : w.pos + (bs.length + 1) ≤ buf.length := hlies.le
  have hstart : w.buf <+: buf := (List.prefix_append _ _).trans hbefore
  rw [parseNext_scalar hsmall hlies htype hscalar, hread hsmall hstart hlies, consume_ok hsmall hle, hpos]

/-- Nothing comes back. -/
theorem written_null (w : BinaryWriter) : Written parseNext 1 w w.null depth depth .nil :=
  written_scalar .null rfl (ofByte_tag _ _) (by decide) fun _ _ _ => rfl

/-- A truth value comes back. -/
theorem written_bool (w : BinaryWriter) (b : Bool) :
    Written parseNext 1 w (w.bool b) depth depth (.boolean b) := by
  refine written_scalar .bool rfl (ofByte_tag _ _) (by decide) fun hsmall _ h => ?_
  rw [parseScalar, typeData_ok h (by cases b <;> decide)]
  cases b <;> rfl

/-- A double comes back as a float. -/
theorem written_double (w : BinaryWriter) (x : Double) :
    Written parseNext 1 w (w.double x) depth depth (.float x.narrow) := by
  refine written_scalar .float rfl (ofByte_tag _ _) (by decide) fun hsmall _ h => ?_
  rw [parseScalar, readPlain_ok hsmall (floatWord_lt x) h, ← wordFloat_floatWord,
    LittleEndian.length_encode]
  rfl

/-- A number in the range of its tag, moved so that it is not negative. -/
theorem written_sized {type : TypeTag} {v : Parsed} (w : BinaryWriter) (hn : n < 256 ^ width * 16)
    (hscalar : type ≠ .object ∧ type ≠ .array)
    (hparse : ∀ {buf : Bytes}, buf.length < 2 ^ 32 → w.buf <+: buf →
      readSized buf ⟨w.pos, depth⟩ width = .ok n →
      parseScalar buf type ⟨w.pos, depth⟩ = .ok (v, consume ⟨w.pos, depth⟩ (width + 1))) :
    Written parseNext 1 w (w.put (sized type width n)) depth depth v := by
  refine written_scalar type rfl (ofByte_tag _ _) hscalar fun hsmall hbefore h => ?_
  rw [hparse hsmall hbefore (readSized_ok hsmall hn h), LittleEndian.length_encode]

theorem signed_mod {i : ℤ} (hlow : -2 ^ 63 ≤ i) (hhigh : i < 2 ^ 63) : signed (i % 2 ^ 64).toNat = i := by
  unfold signed
  split
  · omega
  · omega

/-- An integer comes back. -/
theorem written_int64 (w : BinaryWriter) {i : ℤ} (hlow : -2 ^ 63 ≤ i) (hhigh : i < 2 ^ 63) :
    Written parseNext 1 w (w.int64 i) depth depth (.integer i) := by
  unfold BinaryWriter.int64
  split
  · have hback : ((i + 4).toNat : ℤ) - 4 = i := by omega
    refine written_scalar .int0 rfl (ofByte_tag _ _) (by decide) fun hsmall _ h => ?_
    rw [parseScalar, typeData_ok h (by omega), pow_zero, Nat.div_one]
    exact congrArg (fun j => Except.ok (Parsed.integer j, consume ⟨w.pos, depth⟩ 1)) hback
  · split
    · have hback : ((i + 0x400).toNat : ℤ) - 0x400 = i := by omega
      refine written_sized w (by omega) (by decide) fun _ _ h => ?_
      rw [parseScalar, h]
      exact congrArg (fun j => Except.ok (Parsed.integer j, consume ⟨w.pos, depth⟩ 2)) hback
    · split
      · have hback : ((i + 0x40000).toNat : ℤ) - 0x40000 = i := by omega
        refine written_sized w (by omega) (by decide) fun _ _ h => ?_
        rw [parseScalar, h]
        exact congrArg (fun j => Except.ok (Parsed.integer j, consume ⟨w.pos, depth⟩ 3)) hback
      · split
        · have hback : ((i + 0x400000000).toNat : ℤ) - 0x400000000 = i := by omega
          refine written_sized w (by omega) (by decide) fun _ _ h => ?_
          rw [parseScalar, h]
          exact congrArg (fun j => Except.ok (Parsed.integer j, consume ⟨w.pos, depth⟩ 5)) hback
        · refine written_scalar .int64 rfl (ofByte_tag _ _) (by decide) fun hsmall _ h => ?_
          rw [parseScalar, readPlain_ok hsmall (by omega) h, LittleEndian.length_encode]
          exact congrArg (fun j => Except.ok (Parsed.integer j, consume ⟨w.pos, depth⟩ 9))
            (signed_mod hlow hhigh)

/-! ### Strings -/

/-- Every string that may be referred to lies where its entry says. -/
def BinaryWriter.Sound (w : BinaryWriter) : Prop :=
  ∀ h ref, w.strings h = some ref → ∃ s : Bytes, s.length = ref.length ∧ s.length < 2 ^ 26 ∧
    Lies w.buf ref.tagOffset (longTag .string s.length ++ s) ∧
    ref.stringOffset = ref.tagOffset + (longTag .string s.length).length

/-- A new writer has no strings to refer to. -/
theorem sound_empty : BinaryWriter.empty.Sound := nofun

/-- What the writer refers to stays where it is. -/
theorem BinaryWriter.Sound.put (h : w.Sound) (bs : Bytes) : (w.put bs).Sound := by
  intro i ref href
  obtain ⟨s, hlength, hshort, hlies, hoffset⟩ := h i ref href
  exact ⟨s, hlength, hshort, hlies.of_prefix ⟨bs, rfl⟩, hoffset⟩

/-- A string that is written out comes back. -/
theorem written_newString (w : BinaryWriter) (hs : s.length < 2 ^ 26) :
    Written parseNext 1 w (w.newString hash s) depth depth (.string s) := by
  obtain ⟨c, htag, hc⟩ := longTag_eq hs
  have hbuf : (w.newString hash s).buf = w.buf ++ c :: (lengthBytes s.length ++ s) := by
    rw [BinaryWriter.newString, htag, List.append_assoc, List.cons_append]
  refine written_scalar .string hbuf (ofByte_of_code ?_) (by decide) fun {buf} hsmall _ h => ?_
  · rw [hc, TypeTag.code]
    omega
  · rw [← List.cons_append, ← htag] at h
    have hle : w.pos + ((lengthBytes s.length ++ s).length + 1) ≤ buf.length := by
      rw [← List.length_cons (a := c), ← List.cons_append, ← htag]
      exact h.le
    rw [parseScalar, readString_ok hsmall hs h, consume_ok hsmall hle]
    simp only [bind, Except.bind]
    rw [htag, List.cons_append, List.length_cons]

/-- It can be referred to from then on. -/
theorem sound_newString (h : w.Sound) (hs : s.length < 2 ^ 26) : (w.newString hash s).Sound := by
  intro i ref href
  have hgrows : w.buf <+: (w.newString hash s).buf := ⟨_, (List.append_assoc _ _ _).symm⟩
  simp only [BinaryWriter.newString, Function.update_apply] at href
  split at href
  · obtain rfl := Option.some.inj href
    refine ⟨s, rfl, hs, ?_, rfl⟩
    refine lies_of_prefix ?_
    rw [BinaryWriter.newString, List.append_assoc]
  · obtain ⟨s', hlength, hshort, hlies, hoffset⟩ := h i ref href
    exact ⟨s', hlength, hshort, hlies.of_prefix hgrows, hoffset⟩

/-- An entry of the same bytes lies where the reference leads. -/
theorem lies_of_isSame {ref : PooledString} {i : ℕ} (h : w.Sound) (href : w.strings i = some ref)
    (hsame : w.isSame s ref = true) : s.length < 2 ^ 26 ∧
      Lies w.buf ref.tagOffset (longTag .string s.length ++ s) := by
  obtain ⟨s', hlength, hshort, hlies, hoffset⟩ := h i ref href
  obtain ⟨hlength', hbytes⟩ := Bool.and_eq_true_iff.mp hsame
  have hsize : s.length = s'.length := (of_decide_eq_true hlength').trans hlength.symm
  have heq : s = s' := by
    have hright := hlies.right.eq
    rw [← hoffset, ← hsize] at hright
    exact (of_decide_eq_true hbytes).trans hright
  rw [heq]
  exact ⟨hshort, hlies⟩

/-- A reference to a string comes back as the string. -/
theorem written_stringRef {start : ℕ} (hs : s.length < 2 ^ 26)
    (h : Lies w.buf start (longTag .string s.length ++ s)) :
    Written parseNext 1 w (w.stringRef (w.pos - start)) depth depth (.string s) := by
  have hstart : start ≤ w.pos := (Nat.le_add_right _ _).trans h.le
  have hat {buf : Bytes} (hsmall : buf.length < 2 ^ 32) (hbefore : w.buf <+: buf) :
      readStringAt buf ⟨w.pos, depth⟩ (w.pos - start) = .ok s :=
    readStringAt_ok hsmall hs (h.of_prefix hbefore) hstart
  unfold BinaryWriter.stringRef
  split
  · refine written_sized w (by omega) (by decide) fun hsmall hbefore hread => ?_
    rw [parseScalar, hread]
    simp only [bind, Except.bind]
    rw [hat hsmall hbefore]
  · split
    · refine written_sized w (by omega) (by decide) fun hsmall hbefore hread => ?_
      rw [parseScalar, hread]
      simp only [bind, Except.bind]
      rw [hat hsmall hbefore]
    · refine written_scalar .stringRef32 rfl (ofByte_tag _ _) (by decide)
        fun hsmall hbefore hlies => ?_
      have hle := hlies.le
      rw [parseScalar, readPlain_ok hsmall (by omega) hlies, LittleEndian.length_encode]
      simp only [bind, Except.bind]
      rw [hat hsmall hbefore]

/-- A string is read back, in full or by reference, whatever the hash is. -/
theorem written_string (h : w.Sound) (hs : s.length < 2 ^ 26) :
    (w.string hash s).Sound ∧ Written parseNext 1 w (w.string hash s) depth depth (.string s) := by
  unfold BinaryWriter.string
  split
  · next ref href =>
    obtain ⟨hentry, hsame⟩ := Option.filter_eq_some_iff.mp href
    refine ⟨?_, written_stringRef hs (lies_of_isSame h hentry hsame).2⟩
    unfold BinaryWriter.stringRef
    split_ifs <;> exact h.put _
  · exact ⟨sound_newString h hs, written_newString w hs⟩

/-! ## What a value stands for -/

mutual

/-- The document of a value that is no more than sixty-four levels deep, without a look at
metatables. -/
inductive Stands (host : Host) : ℕ → Value → Document → Prop
  | nil {depth : ℕ} (h : depth ≤ 64) : Stands host depth .nil .null
  | boolean {depth : ℕ} {b : Bool} (h : depth ≤ 64) : Stands host depth (.boolean b) (.boolean b)
  | integer {depth : ℕ} {i : ℤ} (h : depth ≤ 64) : Stands host depth (.integer i) (.integer i)
  | float {depth : ℕ} {x : Double} (h : depth ≤ 64) : Stands host depth (.float x) (.double x)
  | string {depth : ℕ} {s : Bytes} (h : depth ≤ 64) : Stands host depth (.string s) (.string s)
  | array {depth t : ℕ} {ds : List Document} (h : depth ≤ 64)
      (hlinear : (host.table t).isLinearArray = true)
      (hitems : StandsAll host (depth + 1) (host.table t).elements ds) :
      Stands host depth (.table t) (.array ds)
  | object {depth t : ℕ} {ms : List (Bytes × Document)} (h : depth ≤ 64)
      (hlinear : (host.table t).isLinearArray = false)
      (hmembers : StandsMembers host (depth + 1) (host.table t).pairs ms) :
      Stands host depth (.table t) (.object ms)

inductive StandsAll (host : Host) : ℕ → List Value → List Document → Prop
  | nil {depth : ℕ} : StandsAll host depth [] []
  | cons {depth : ℕ} {v : Value} {vs : List Value} {d : Document} {ds : List Document}
      (h : Stands host depth v d) (hrest : StandsAll host depth vs ds) :
      StandsAll host depth (v :: vs) (d :: ds)

inductive StandsMembers (host : Host) : ℕ → List (Value × Value) → List (Bytes × Document) → Prop
  | nil {depth : ℕ} : StandsMembers host depth [] []
  | cons {depth : ℕ} {k v : Value} {rest : List (Value × Value)} {key : Bytes} {d : Document}
      {ms : List (Bytes × Document)} (hkey : keyText host false k = .ok key) (h : Stands host depth v d)
      (hrest : StandsMembers host depth rest ms) :
      StandsMembers host depth ((k, v) :: rest) ((key, d) :: ms)

end

mutual

/-- What a document is read back as. -/
def parsed : Document → Parsed
  | .null => .nil
  | .boolean b => .boolean b
  | .integer i => .integer i
  | .double x => .float x.narrow
  | .string s => .string s
  | .array ds => .array (parsedAll ds)
  | .object ms => .object (parsedMembers ms)

def parsedAll : List Document → List Parsed
  | [] => []
  | d :: ds => parsed d :: parsedAll ds

def parsedMembers : List (Bytes × Document) → List (Parsed × Parsed)
  | [] => []
  | (k, d) :: ms => (.string k, parsed d) :: parsedMembers ms

end

mutual

/-- Integers have sixty-four bits, and strings a length that three bytes and two bits hold. -/
def fits : Document → Bool
  | .integer i => -2 ^ 63 ≤ i && i < 2 ^ 63
  | .string s => s.length < 2 ^ 26
  | .array ds => fitsAll ds
  | .object ms => fitsMembers ms
  | _ => true

def fitsAll : List Document → Bool
  | [] => true
  | d :: ds => fits d && fitsAll ds

def fitsMembers : List (Bytes × Document) → Bool
  | [] => true
  | (k, d) :: ms => k.length < 2 ^ 26 && fits d && fitsMembers ms

end

/-- What is written stands for the value, and is read back where it fits. -/
def Brings (host : Host) (depth : ℕ) (v : Value) (w w' : BinaryWriter) : Prop :=
  ∃ d, Stands host depth v d ∧
    (fits d = true → w.Sound → w'.Sound ∧ Written parseNext 1 w w' depth depth (parsed d))

variable {write : Value → BinaryWriter → Except Bytes BinaryWriter}

/-- The tag that ends a table. -/
theorem written_finish {α : Type} {parse : Bytes → ℕ → BinaryReader → Except Stop (List α × BinaryReader)}
    (hparse : ∀ {buf : Bytes} {fuel pos depth : ℕ}, buf.length < 2 ^ 32 →
      Lies buf pos [tag .finish 0] → parse buf (fuel + 1) ⟨pos, depth⟩ = .ok ([], leave ⟨pos, depth⟩)) :
    Written parse 2 w (w.put [tag .finish 0]) (depth + 1) depth [] := by
  have hpos : (w.put [tag .finish 0]).pos = w.pos + 1 := by
    rw [BinaryWriter.pos, BinaryWriter.put, List.length_append]
    rfl
  refine ⟨List.prefix_append _ _, by omega, fun {buf fuel} hbefore hsmall hfuel => ?_⟩
  obtain ⟨fuel, rfl⟩ := Nat.exists_eq_add_of_le' (by omega : 1 ≤ fuel)
  have hlies : Lies buf w.pos [tag .finish 0] := lies_of_prefix hbefore
  have hle : w.pos + 1 ≤ buf.length := hlies.le
  rw [hparse hsmall hlies, leave, consume_ok hsmall hle, hpos]
  rfl

/-- What is read as a value does not start with the end of a table. -/
theorem peekNext_of_parseNext {r : BinaryReader} {p : Parsed × BinaryReader}
    (h : parseNext buf fuel r = .ok p) : ∃ type, peekNext buf r = .ok type ∧ type ≠ some .finish := by
  cases fuel with
  | zero => rw [parseNext] at h; cases h
  | succ fuel =>
    rw [parseNext] at h
    cases hpeek : peekNext buf r with
    | error e => rw [hpeek] at h; cases h
    | ok type =>
      refine ⟨type, rfl, ?_⟩
      rintro rfl
      rw [hpeek] at h
      cases h

/-- An array is parsed value by value. -/
theorem parseArray_cons {r r₁ r₂ : BinaryReader} {v : Parsed} {vs : List Parsed}
    (hv : parseNext buf fuel r = .ok (v, r₁)) (hrest : parseArray buf fuel r₁ = .ok (vs, r₂)) :
    parseArray buf (fuel + 1) r = .ok (v :: vs, r₂) := by
  obtain ⟨type, hpeek, hne⟩ := peekNext_of_parseNext hv
  rw [parseArray, hpeek]
  simp only [bind, Except.bind]
  rw [if_neg hne, hv]
  simp only
  rw [hrest]

/-- An object is parsed member by member. -/
theorem parseObject_cons {r r₁ r₂ r₃ : BinaryReader} {k v : Parsed} {rest : List (Parsed × Parsed)}
    (hk : parseNext buf fuel r = .ok (k, r₁)) (hv : parseNext buf fuel r₁ = .ok (v, r₂))
    (hkey : setKey k = .ok ()) (hrest : parseObject buf fuel r₂ = .ok (rest, r₃)) :
    parseObject buf (fuel + 1) r = .ok ((k, v) :: rest, r₃) := by
  obtain ⟨type, hpeek, hne⟩ := peekNext_of_parseNext hk
  rw [parseObject, hpeek]
  simp only [bind, Except.bind]
  rw [if_neg hne, hk]
  simp only
  rw [hv]
  simp only
  rw [hkey]
  simp only
  rw [hrest]

/-- An array comes back where its first value and its rest do. -/
theorem written_cons {v : Parsed} {vs : List Parsed}
    (hv : Written parseNext 1 w w' (depth + 1) (depth + 1) v)
    (hrest : Written parseArray 2 w' w'' (depth + 1) depth vs) :
    Written parseArray 2 w w'' (depth + 1) depth (v :: vs) := by
  have hlt := hv.lt
  refine ⟨hv.grows.trans hrest.grows, hlt.trans hrest.lt, fun {buf fuel} hbefore hsmall hfuel => ?_⟩
  obtain ⟨fuel, rfl⟩ := Nat.exists_eq_add_of_le' (by omega : 1 ≤ fuel)
  have hle : w''.pos ≤ buf.length := hbefore.length_le
  have hlt' := hrest.lt
  exact parseArray_cons (hv.read (hrest.grows.trans hbefore) hsmall (by omega))
    (hrest.read hbefore hsmall (by omega))

/-- An object comes back where its first member and its rest do. -/
theorem written_member {w₃ : BinaryWriter} {k : Bytes} {v : Parsed} {rest : List (Parsed × Parsed)}
    (hk : Written parseNext 1 w w' (depth + 1) (depth + 1) (.string k))
    (hv : Written parseNext 1 w' w'' (depth + 1) (depth + 1) v)
    (hrest : Written parseObject 2 w'' w₃ (depth + 1) depth rest) :
    Written parseObject 2 w w₃ (depth + 1) depth ((.string k, v) :: rest) := by
  have hlt := hk.lt
  have hlt' := hv.lt
  have hlt'' := hrest.lt
  refine ⟨hk.grows.trans (hv.grows.trans hrest.grows), by omega, fun {buf fuel} hbefore hsmall hfuel => ?_⟩
  obtain ⟨fuel, rfl⟩ := Nat.exists_eq_add_of_le' (by omega : 1 ≤ fuel)
  have hle : w₃.pos ≤ buf.length := hbefore.length_le
  have hbefore' := hrest.grows.trans hbefore
  exact parseObject_cons (hk.read (hv.grows.trans hbefore') hsmall (by omega))
    (hv.read hbefore' hsmall (by omega)) rfl (hrest.read hbefore hsmall (by omega))

/-- The values of an array are written as those of its document. -/
theorem BinaryWriter.stringifyTableAsArray_brings {vs : List Value}
    (hwrite : ∀ v w w', write v w = .ok w' → Brings host (depth + 1) v w w')
    (h : BinaryWriter.stringifyTableAsArray write vs w = .ok w') :
    ∃ ds, StandsAll host (depth + 1) vs ds ∧ (fitsAll ds = true → w.Sound →
      w'.Sound ∧ Written parseArray 2 w w'.endArray (depth + 1) depth (parsedAll ds)) := by
  induction vs generalizing w with
  | nil =>
    obtain rfl := Except.ok.inj h
    refine ⟨[], .nil, fun _ hsound => ⟨hsound, written_finish fun hsmall hlies => ?_⟩⟩
    rw [parseArray, peekNext_ok hsmall hlies, ofByte_tag]
    rfl
  | cons v vs ih =>
    obtain ⟨w₁, hv, hrest⟩ := bind_eq_ok.mp h
    obtain ⟨d, hd, hread⟩ := hwrite _ _ _ hv
    obtain ⟨ds, hds, hreads⟩ := ih hrest
    refine ⟨d :: ds, .cons hd hds, fun hfits hsound => ?_⟩
    rw [fitsAll, Bool.and_eq_true] at hfits
    obtain ⟨hsound₁, hwritten⟩ := hread hfits.1 hsound
    obtain ⟨hsound', hwrittens⟩ := hreads hfits.2 hsound₁
    exact ⟨hsound', written_cons hwritten hwrittens⟩

/-- The members of an object are written as those of its document. -/
theorem BinaryWriter.stringifyTableAsObjectUnordered_brings {entries : List (Value × Value)}
    (hwrite : ∀ v w w', write v w = .ok w' → Brings host (depth + 1) v w w')
    (h : BinaryWriter.stringifyTableAsObjectUnordered host hash write entries w = .ok w') :
    ∃ ms, StandsMembers host (depth + 1) entries ms ∧ (fitsMembers ms = true → w.Sound →
      w'.Sound ∧ Written parseObject 2 w w'.endObject (depth + 1) depth (parsedMembers ms)) := by
  induction entries generalizing w with
  | nil =>
    obtain rfl := Except.ok.inj h
    refine ⟨[], .nil, fun _ hsound => ⟨hsound, written_finish fun hsmall hlies => ?_⟩⟩
    rw [parseObject, peekNext_ok hsmall hlies, ofByte_tag]
    rfl
  | cons entry entries ih =>
    obtain ⟨k, v⟩ := entry
    obtain ⟨key, hkey, h⟩ := bind_eq_ok.mp h
    obtain ⟨w₁, hv, hrest⟩ := bind_eq_ok.mp h
    obtain ⟨d, hd, hread⟩ := hwrite _ _ _ hv
    obtain ⟨ms, hms, hreads⟩ := ih hrest
    refine ⟨(key, d) :: ms, .cons hkey hd hms, fun hfits hsound => ?_⟩
    rw [fitsMembers, Bool.and_eq_true, Bool.and_eq_true, decide_eq_true_eq] at hfits
    have hstring : (w.string hash key).Sound ∧
        Written parseNext 1 w (w.string hash key) (depth + 1) (depth + 1) (.string key) :=
      written_string hsound hfits.1.1
    obtain ⟨hsoundKey, hwrittenKey⟩ := hstring
    obtain ⟨hsound₁, hwritten⟩ := hread hfits.1.2 hsoundKey
    obtain ⟨hsound', hwrittens⟩ := hreads hfits.2 hsound₁
    exact ⟨hsound', written_member hwrittenKey hwritten hwrittens⟩

/-! ## Whole values -/

/-- A table is read as its elements or its members, up to its end. -/
theorem written_table {α : Type} {type : TypeTag}
    {parse : Bytes → ℕ → BinaryReader → Except Stop (List α × BinaryReader)} (make : List α → Parsed)
    {items : List α} (hdepth : depth ≤ 64)
    (hparse : ∀ {buf : Bytes} {fuel : ℕ} {r r' : BinaryReader}, peekNext buf r = .ok (some type) →
      (r.consume 1).enter = .ok r' →
      parseNext buf (fuel + 1) r = parse buf fuel r' >>= fun p => .ok (make p.1, p.2))
    (h : Written parse 2 (w.put [tag type 0]) w' (depth + 1) depth items) :
    Written parseNext 1 w w' depth depth (make items) := by
  have hpos : (w.put [tag type 0]).pos = w.pos + 1 := by
    rw [BinaryWriter.pos, BinaryWriter.put, List.length_append]
    rfl
  have hgrows : w.buf <+: (w.put [tag type 0]).buf := List.prefix_append _ _
  have hlt := h.lt
  refine ⟨hgrows.trans h.grows, by omega, fun {buf fuel} hbefore hsmall hfuel => ?_⟩
  obtain ⟨fuel, rfl⟩ := Nat.exists_eq_add_of_le' (by omega : 1 ≤ fuel)
  have hlies : Lies buf w.pos [tag type 0] := lies_of_prefix (h.grows.trans hbefore)
  have hle : w.pos + 1 ≤ buf.length := hlies.le
  have hpeek : peekNext buf ⟨w.pos, depth⟩ = .ok (some type) := by rw [peekNext_ok hsmall hlies, ofByte_tag]
  have henter : (consume ⟨w.pos, depth⟩ 1).enter = .ok ⟨w.pos + 1, depth + 1⟩ := by
    rw [consume_ok hsmall hle, enter, if_neg (by simp only; omega)]
  rw [hparse hpeek henter, ← hpos, h.read hbefore hsmall (by omega)]
  rfl

/-- A table is written as its document. -/
theorem BinaryWriter.stringifyTable_brings {t : ℕ} (hdepth : depth ≤ 64)
    (hwrite : ∀ v w w', write v w = .ok w' → Brings host (depth + 1) v w w')
    (h : BinaryWriter.stringifyTable host hash write (host.table t) w = .ok w') :
    Brings host depth (.table t) w w' := by
  unfold BinaryWriter.stringifyTable at h
  split at h
  · next hlinear =>
    obtain ⟨w₁, hitems, h⟩ := bind_eq_ok.mp h
    obtain rfl := Except.ok.inj h
    obtain ⟨ds, hds, hreads⟩ := BinaryWriter.stringifyTableAsArray_brings hwrite hitems
    refine ⟨.array ds, .array hdepth hlinear hds, fun hfits hsound => ?_⟩
    obtain ⟨hsound', hwritten⟩ := hreads hfits (hsound.put _)
    refine ⟨hsound'.put _, written_table Parsed.array hdepth (fun hpeek henter => ?_) hwritten⟩
    rw [parseNext, hpeek]
    simp only [bind, Except.bind]
    rw [henter]
  · next hlinear =>
    obtain ⟨w₁, hmembers, h⟩ := bind_eq_ok.mp h
    obtain rfl := Except.ok.inj h
    obtain ⟨ms, hms, hreads⟩ := BinaryWriter.stringifyTableAsObjectUnordered_brings hwrite hmembers
    refine ⟨.object ms, .object hdepth (Bool.not_eq_true _ ▸ hlinear) hms, fun hfits hsound => ?_⟩
    obtain ⟨hsound', hwritten⟩ := hreads hfits (hsound.put _)
    refine ⟨hsound'.put _, written_table Parsed.object hdepth (fun hpeek henter => ?_) hwritten⟩
    rw [parseNext, hpeek]
    simp only [bind, Except.bind]
    rw [henter]

/-- A value is written as its document. -/
theorem BinaryWriter.stringifyValue_brings {v : Value} (hdepth : depth ≤ 64)
    (hwrite : ∀ v w w', write v w = .ok w' → Brings host (depth + 1) v w w')
    (h : BinaryWriter.stringifyValue host hash unsupported write v w = .ok w') :
    Brings host depth v w w' := by
  cases v with
  | nil =>
    obtain rfl := Except.ok.inj h
    exact ⟨.null, .nil hdepth, fun _ hsound => ⟨hsound.put _, written_null w⟩⟩
  | boolean b =>
    obtain rfl := Except.ok.inj h
    exact ⟨.boolean b, .boolean hdepth, fun _ hsound => ⟨hsound.put _, written_bool w b⟩⟩
  | integer i =>
    obtain rfl := Except.ok.inj h
    refine ⟨.integer i, .integer hdepth, fun hfits hsound => ⟨?_, ?_⟩⟩
    · unfold BinaryWriter.int64
      split_ifs <;> exact hsound.put _
    · rw [fits, Bool.and_eq_true, decide_eq_true_eq, decide_eq_true_eq] at hfits
      exact written_int64 w hfits.1 hfits.2
  | float x =>
    obtain rfl := Except.ok.inj h
    exact ⟨.double x, .float hdepth, fun _ hsound => ⟨hsound.put _, written_double w x⟩⟩
  | string s =>
    obtain rfl := Except.ok.inj h
    refine ⟨.string s, .string hdepth, fun hfits hsound => ?_⟩
    rw [fits, decide_eq_true_eq] at hfits
    exact written_string hsound hfits
  | table t => exact BinaryWriter.stringifyTable_brings hdepth hwrite h
  | userdata u | other o => cases h

/-- So it is to any depth. -/
theorem BinaryWriter.stringify_brings {v : Value}
    (h : BinaryWriter.stringify host hash unsupported fuel depth v w = .ok w') :
    Brings host depth v w w' := by
  induction fuel generalizing depth v w w' with
  | zero => cases h
  | succ fuel ih =>
    rw [BinaryWriter.stringify] at h
    split at h
    · cases h
    · next hdepth => exact BinaryWriter.stringifyValue_brings (not_lt.mp hdepth) (fun _ _ _ => ih) h

/-- What is read of a buffer that a value was written into. -/
theorem parse_written {w : BinaryWriter} {v : Parsed} (hsmall : w.buf.length < 2 ^ 32)
    (h : Written parseNext 1 .empty w 0 0 v) : parse w.buf = .ok v := by
  have hread : parseNext w.buf (2 * w.buf.length + 2) ⟨BinaryWriter.empty.pos, 0⟩ = .ok (v, ⟨w.pos, 0⟩) :=
    h.read (List.prefix_refl _) hsmall (show 2 * (w.buf.length - 0) + 1 ≤ 2 * w.buf.length + 2 by omega)
  have hend : available w.buf ⟨w.pos, 0⟩ = 0 := by
    show (2 ^ 32 - w.buf.length + w.buf.length) % 2 ^ 32 = 0
    rw [Nat.sub_add_cancel hsmall.le, Nat.mod_self]
  unfold parse
  rw [show (⟨0, 0⟩ : BinaryReader) = ⟨BinaryWriter.empty.pos, 0⟩ from rfl, hread]
  simp only [bind, Except.bind]
  rw [if_pos hend]

theorem jsonBinaryDecode_encode {v : Value} (h : jsonBinaryEncode host hash unsupported v = .ok blob)
    (hsmall : blob.length < 2 ^ 31) :
    ∃ d, Stands host 0 v d ∧ (fits d = true → jsonBinaryDecode blob = .ok (parsed d)) := by
  unfold jsonBinaryEncode at h
  cases hwrite : BinaryWriter.stringify host hash unsupported 66 0 v .empty with
  | error e => rw [hwrite] at h; cases h
  | ok w =>
    rw [hwrite] at h
    obtain rfl := Except.ok.inj h
    obtain ⟨d, hd, hread⟩ := BinaryWriter.stringify_brings hwrite
    refine ⟨d, hd, fun hfits => ?_⟩
    exact parse_written (hsmall.trans (by norm_num)) (hread hfits sound_empty).2

/-- A state without tables or views. -/
def bareHost : Host where
  table _ := ⟨[], none⟩
  rawGetMetatable _ := none
  enumLabelOf _ := none
  bitfieldOf _ := none
  isEntity _ := false
  tostring _ := []
  getValueType _ := []
  less s t := s < t
  sort lt items := items.insertionSort fun a b => lt a b
  sort_perm lt items := List.perm_insertionSort (fun a b => lt a b) items

/-- With one hash for all strings, those that come back are still told from those that do not. -/
def repeatingHost : Host where
  __ := bareHost
  table t :=
    if t = 0 then ⟨[], some [(.string (bytes "a"), .table 1), (.string (bytes "b"), .integer (-70000))]⟩
    else ⟨[.string (bytes "b"), .boolean true, .string (bytes "b"), .nil], none⟩

def repeatingBlob : Bytes :=
  [0x0c, 0x18, 0x61, 0x0d, 0x18, 0x62, 0x11, 0x09, 0x03, 0x0e, 0x09, 0x06, 0x24, 0x90, 0xee, 0x0e]

theorem jsonBinaryDecode_encode_repeating : ∃ d, Stands repeatingHost 0 (.table 0) d ∧
    (fits d = true → jsonBinaryDecode repeatingBlob = .ok (parsed d)) :=
  jsonBinaryDecode_encode
    (by decide +kernel :
      jsonBinaryEncode repeatingHost (fun _ => 0) (fun _ => []) (.table 0) = .ok repeatingBlob)
    (by decide +kernel)

/-! ## What has a blob -/

/-- An array that stands for a document is written. -/
theorem BinaryWriter.stringifyTableAsArray_ok {vs : List Value} {ds : List Document}
    (h : StandsAll host depth vs ds)
    (hwrite : ∀ v d, Stands host depth v d → ∀ w, ∃ w', write v w = .ok w') (w : BinaryWriter) :
    ∃ w', BinaryWriter.stringifyTableAsArray write vs w = .ok w' := by
  induction vs generalizing ds w with
  | nil => exact ⟨w, rfl⟩
  | cons v vs ih =>
    cases h with
    | cons h hrest =>
      obtain ⟨w₁, hv⟩ := hwrite _ _ h w
      obtain ⟨w', hvs⟩ := ih hrest w₁
      exact ⟨w', bind_eq_ok.mpr ⟨w₁, hv, hvs⟩⟩

/-- So is an object. -/
theorem BinaryWriter.stringifyTableAsObjectUnordered_ok {entries : List (Value × Value)}
    {ms : List (Bytes × Document)}
    (h : StandsMembers host depth entries ms)
    (hwrite : ∀ v d, Stands host depth v d → ∀ w, ∃ w', write v w = .ok w') (w : BinaryWriter) :
    ∃ w', BinaryWriter.stringifyTableAsObjectUnordered host hash write entries w = .ok w' := by
  induction entries generalizing ms w with
  | nil => exact ⟨w, rfl⟩
  | cons entry entries ih =>
    cases h with
    | cons hkey h hrest =>
      obtain ⟨w₁, hv⟩ := hwrite _ _ h (w.string hash _)
      obtain ⟨w', hvs⟩ := ih hrest w₁
      exact ⟨w', bind_eq_ok.mpr ⟨_, hkey, bind_eq_ok.mpr ⟨w₁, hv, hvs⟩⟩⟩

/-- A value that stands for a document is written. -/
theorem BinaryWriter.stringify_ok {v : Value} {d : Document} (h : Stands host depth v d)
    (hfuel : 66 ≤ fuel + depth) (w : BinaryWriter) :
    ∃ w', BinaryWriter.stringify host hash unsupported fuel depth v w = .ok w' := by
  have hdepth : depth ≤ 64 := by cases h <;> assumption
  induction fuel generalizing depth v d w with
  | zero => omega
  | succ fuel ih =>
    have hwrite : ∀ v d, Stands host (depth + 1) v d → ∀ w, ∃ w',
        BinaryWriter.stringify host hash unsupported fuel (depth + 1) v w = .ok w' := fun v d h w =>
      ih h (by omega) w (by cases h <;> assumption)
    rw [BinaryWriter.stringify, if_neg (not_lt.mpr hdepth)]
    cases h with
    | nil | boolean | integer | float | string => exact ⟨_, rfl⟩
    | array _ hlinear hitems =>
      obtain ⟨w', hw'⟩ := BinaryWriter.stringifyTableAsArray_ok hitems hwrite w.startArray
      rw [BinaryWriter.stringifyValue, BinaryWriter.stringifyTable, if_pos hlinear]
      exact ⟨_, bind_eq_ok.mpr ⟨w', hw', rfl⟩⟩
    | object _ hlinear hmembers =>
      have hok : ∃ w', BinaryWriter.stringifyTableAsObjectUnordered host hash _ _ w.startObject = .ok w' :=
        BinaryWriter.stringifyTableAsObjectUnordered_ok hmembers hwrite _
      obtain ⟨w', hw'⟩ := hok
      rw [BinaryWriter.stringifyValue, BinaryWriter.stringifyTable, hlinear]
      exact ⟨_, bind_eq_ok.mpr ⟨w', hw', rfl⟩⟩

/-- A value is encoded where it stands for a document. -/
theorem exists_blob_iff {v : Value} : (∃ blob, jsonBinaryEncode host hash unsupported v = .ok blob) ↔
    ∃ d, Stands host 0 v d := by
  constructor
  · rintro ⟨blob, h⟩
    cases hwrite : BinaryWriter.stringify host hash unsupported 66 0 v .empty with
    | error e => rw [jsonBinaryEncode, hwrite] at h; cases h
    | ok w =>
      obtain ⟨d, hd, -⟩ := BinaryWriter.stringify_brings hwrite
      exact ⟨d, hd⟩
  · rintro ⟨d, h⟩
    have hok : ∃ w, BinaryWriter.stringify host hash unsupported 66 0 v .empty = .ok w :=
      BinaryWriter.stringify_ok h (by omega) .empty
    obtain ⟨w, hw⟩ := hok
    exact ⟨w.buf, by rw [jsonBinaryEncode, hw]; rfl⟩

end Json
end Bg3le
