import Bg3le.Library.LittleEndian
import Bg3le.Net.Reader
import Mathlib.Tactic.IntervalCases

/-!
# Messages as sequences of fields

A message that is read to its end is a sequence of complete fields, each a key and a value of the
key's wire type. What the writer writes is read as the fields that were written.
-/

namespace Bg3le
namespace Net
namespace Pb

/-- The value of a field, by its wire type. -/
inductive Value
  | varint (n : UInt64)
  | fixed64 (raw : Bytes)
  | bytes (b : Bytes)
  | fixed32 (raw : Bytes)
deriving DecidableEq

structure Field where
  number : UInt32
  value : Value
deriving DecidableEq

/-- Reads a complete value of a wire type. -/
def readValue (wire : UInt32) (data : Bytes) : Option (Value × Bytes) :=
  if wire = 0 then (readVarint data).map fun (n, rest) => (.varint n, rest)
  else if wire = 1 then (readFixed 8 data).map fun (raw, rest) => (.fixed64 raw, rest)
  else if wire = 2 then (readBytes data).map fun (b, rest) => (.bytes b, rest)
  else if wire = 5 then (readFixed 4 data).map fun (raw, rest) => (.fixed32 raw, rest)
  else none

/-- Reads a complete field. -/
def readField (data : Bytes) : Option (Field × Bytes) := do
  let (field, wire, rest) ← next data
  let (value, rest) ← readValue wire rest
  return (⟨field, value⟩, rest)

/-- A message begins with these fields, and after them comes `rest`. -/
inductive Reads : Bytes → List Field → Bytes → Prop
  | nil (data : Bytes) : Reads data [] data
  | cons {data data' rest : Bytes} {f : Field} {fs : List Field} : readField data = some (f, data') →
      Reads data' fs rest → Reads data (f :: fs) rest

variable {σ : Type} {v acc : UInt64} {a b data data' rest rest' more : Bytes} {f : Field}
  {fs gs : List Field} {wire field : UInt32} {value : Value} {shift fuel n : ℕ}

/-! ## What is read is shorter, and does not depend on what follows -/

theorem readVarintFrom_append (h : readVarintFrom acc shift data = some (v, rest)) (more : Bytes) :
    readVarintFrom acc shift (data ++ more) = some (v, rest ++ more) ∧ rest.length < data.length := by
  induction data generalizing acc shift with
  | nil => cases h
  | cons b data ih =>
    rw [List.cons_append]
    rw [readVarintFrom] at h ⊢
    split at h
    · next hlast =>
      rw [if_pos hlast]
      obtain ⟨rfl, rfl⟩ := Prod.mk.inj (Option.some.inj h)
      exact ⟨rfl, Nat.lt_succ_self _⟩
    · next hlast =>
      rw [if_neg hlast]
      split at h
      · cases h
      · next hshift =>
        rw [if_neg hshift]
        obtain ⟨happend, hlt⟩ := ih h
        exact ⟨happend, hlt.trans (Nat.lt_succ_self _)⟩

theorem readFixed_append (h : readFixed n data = some (b, rest)) (more : Bytes) :
    readFixed n (data ++ more) = some (b, rest ++ more) ∧ rest.length ≤ data.length := by
  unfold readFixed at h ⊢
  split at h
  · cases h
  · next hle =>
    obtain ⟨rfl, rfl⟩ := Prod.mk.inj (Option.some.inj h)
    rw [Nat.not_lt] at hle
    rw [if_neg (by rw [List.length_append]; omega), List.take_append_of_le_length hle,
      List.drop_append_of_le_length hle]
    exact ⟨rfl, by rw [List.length_drop]; omega⟩

theorem readBytes_append (h : readBytes data = some (b, rest)) (more : Bytes) :
    readBytes (data ++ more) = some (b, rest ++ more) ∧ rest.length ≤ data.length := by
  obtain ⟨⟨len, rest'⟩, hlen, hfixed⟩ := Option.bind_eq_some_iff.mp h
  obtain ⟨happend, hlt⟩ := readVarintFrom_append hlen more
  obtain ⟨hfixed', hle⟩ := readFixed_append hfixed more
  refine ⟨?_, hle.trans hlt.le⟩
  unfold readBytes readVarint
  rw [happend]
  exact hfixed'

theorem next_append (h : next data = some (field, wire, rest)) (more : Bytes) :
    next (data ++ more) = some (field, wire, rest ++ more) ∧ rest.length < data.length := by
  obtain ⟨⟨k, rest'⟩, hk, heq⟩ := Option.map_eq_some_iff.mp h
  obtain ⟨happend, hlt⟩ := readVarintFrom_append hk more
  simp only [Prod.mk.injEq] at heq
  obtain ⟨rfl, rfl, rfl⟩ := heq
  refine ⟨?_, hlt⟩
  unfold next readVarint
  rw [happend]
  rfl

theorem readValue_append (h : readValue wire data = some (value, rest)) (more : Bytes) :
    readValue wire (data ++ more) = some (value, rest ++ more) ∧ rest.length ≤ data.length := by
  unfold readValue at h ⊢
  split_ifs at h ⊢ with h0 h1 h2 h5
  · obtain ⟨⟨n, rest'⟩, hn, heq⟩ := Option.map_eq_some_iff.mp h
    obtain ⟨happend, hlt⟩ := readVarintFrom_append hn more
    obtain ⟨rfl, rfl⟩ := Prod.mk.inj heq
    exact ⟨by rw [readVarint, happend]; rfl, hlt.le⟩
  · obtain ⟨⟨raw, rest'⟩, hraw, heq⟩ := Option.map_eq_some_iff.mp h
    obtain ⟨happend, hle⟩ := readFixed_append hraw more
    obtain ⟨rfl, rfl⟩ := Prod.mk.inj heq
    exact ⟨by rw [happend]; rfl, hle⟩
  · obtain ⟨⟨b, rest'⟩, hb, heq⟩ := Option.map_eq_some_iff.mp h
    obtain ⟨happend, hle⟩ := readBytes_append hb more
    obtain ⟨rfl, rfl⟩ := Prod.mk.inj heq
    exact ⟨by rw [happend]; rfl, hle⟩
  · obtain ⟨⟨raw, rest'⟩, hraw, heq⟩ := Option.map_eq_some_iff.mp h
    obtain ⟨happend, hle⟩ := readFixed_append hraw more
    obtain ⟨rfl, rfl⟩ := Prod.mk.inj heq
    exact ⟨by rw [happend]; rfl, hle⟩

theorem readField_eq (h : next data = some (field, wire, rest)) :
    readField data = (readValue wire rest).map fun (value, rest) => (⟨field, value⟩, rest) := by
  unfold readField
  rw [h]
  cases hvalue : readValue wire rest with
  | none => simp [hvalue]
  | some read => simp [hvalue]

theorem readField_append (h : readField data = some (f, rest)) (more : Bytes) :
    readField (data ++ more) = some (f, rest ++ more) ∧ rest.length < data.length := by
  obtain ⟨⟨field, wire, data'⟩, hnext, -⟩ := Option.bind_eq_some_iff.mp h
  rw [readField_eq hnext] at h
  obtain ⟨⟨value, rest'⟩, hvalue, heq⟩ := Option.map_eq_some_iff.mp h
  obtain ⟨rfl, rfl⟩ := Prod.mk.inj heq
  obtain ⟨hnext', hlt⟩ := next_append hnext more
  obtain ⟨hvalue', hle⟩ := readValue_append hvalue more
  refine ⟨?_, hle.trans_lt hlt⟩
  rw [readField_eq hnext', hvalue']
  rfl

theorem Reads.append (h : Reads a fs []) (h' : Reads b gs rest) : Reads (a ++ b) (fs ++ gs) rest := by
  generalize hnil : ([] : Bytes) = end_ at h
  induction h with
  | nil => exact hnil ▸ h'
  | cons hread _ ih => exact .cons (readField_append hread b).1 (ih hnil)

/-- A message is read in one way, up to where no key can be read. -/
theorem Reads.unique (h : Reads data fs rest) (h' : Reads data gs rest') (hend : next rest = none)
    (hend' : next rest' = none) : fs = gs ∧ rest = rest' := by
  have hstop {data rest : Bytes} {f : Field} (hread : readField data = some (f, rest)) :
      next data ≠ none := by
    intro hnone
    unfold readField at hread
    rw [hnone] at hread
    cases hread
  induction h generalizing gs with
  | nil =>
    cases h' with
    | nil => exact ⟨rfl, rfl⟩
    | cons hread _ => exact absurd hend (hstop hread)
  | cons hread _ ih =>
    cases h' with
    | nil => exact absurd hend' (hstop hread)
    | cons hread' hrest' =>
      obtain ⟨rfl, rfl⟩ := Prod.mk.inj (Option.some.inj (hread.symm.trans hread'))
      obtain ⟨rfl, rfl⟩ := ih hrest' hend
      exact ⟨rfl, rfl⟩

/-! ## Loops -/

/-- A loop whose handler reads complete values reads complete fields, up to where no key can be
read, and takes each up in order. -/
theorem readFields_eq_some {handle : σ → UInt32 → UInt32 → Bytes → Option (σ × Bytes)}
    {step : σ → Field → σ} (hhandle : ∀ s field wire data, handle s field wire data =
      (readValue wire data).map fun (value, rest) => (step s ⟨field, value⟩, rest)) {s s' : σ}
    (hn : data.length ≤ n) : readFields handle n s data = some s' ↔
      ∃ fs rest, Reads data fs rest ∧ next rest = none ∧ s' = fs.foldl step s := by
  -- on the rounds; a round that reads a field leaves less data
  induction n generalizing s data with
  | zero =>
    obtain rfl := List.length_eq_zero_iff.mp (Nat.le_zero.mp hn)
    constructor
    · intro h
      exact ⟨[], [], .nil [], rfl, (Option.some.inj h).symm⟩
    · rintro ⟨fs, rest, hreads, -, rfl⟩
      cases hreads with
      | nil => rfl
      | cons hread _ => cases hread
  | succ n ih =>
    rw [readFields]
    cases hnext : next data with
    | none =>
      constructor
      · intro h
        exact ⟨[], data, .nil data, hnext, (Option.some.inj h).symm⟩
      · rintro ⟨fs, rest, hreads, hend, rfl⟩
        obtain ⟨rfl, -⟩ := hreads.unique (.nil data) hend hnext
        rfl
    | some key =>
      obtain ⟨field, wire, rest⟩ := key
      have hlt := (next_append hnext []).2
      simp only [hhandle]
      cases hvalue : readValue wire rest with
      | none =>
        constructor
        · intro h
          cases h
        · rintro ⟨fs, rest', hreads, hend, rfl⟩
          cases hreads with
          | nil => rw [hnext] at hend; cases hend
          | cons hread _ =>
            rw [readField_eq hnext, hvalue] at hread
            cases hread
      | some read =>
        obtain ⟨value, data'⟩ := read
        have hle := (readValue_append hvalue []).2
        have hread : readField data = some (⟨field, value⟩, data') := by
          rw [readField_eq hnext, hvalue]
          rfl
        rw [Option.map_some, Option.bind_eq_bind, Option.bind_some,
          ih (show data'.length ≤ n by omega)]
        constructor
        · rintro ⟨fs, rest', hreads, hend, rfl⟩
          exact ⟨_, rest', .cons hread hreads, hend, rfl⟩
        · rintro ⟨fs, rest', hreads, hend, rfl⟩
          cases hreads with
          | nil => rw [hnext] at hend; cases hend
          -- two readings agree on the first field, and then on the rest
          | cons hread' hreads =>
            obtain ⟨rfl, rfl⟩ := Prod.mk.inj (Option.some.inj (hread.symm.trans hread'))
            exact ⟨_, rest', hreads, hend, rfl⟩

/-! ## What is written -/

theorem toNat_low (v : UInt64) : (v &&& 0x7f).toNat = v.toNat % 128 := by
  rw [UInt64.toNat_and]
  exact Nat.and_two_pow_sub_one_eq_mod v.toNat 7

theorem low_bits (b : UInt8) : (b &&& 0x7f).toUInt64.toNat = b.toNat % 128 := by
  rw [UInt8.toNat_toUInt64, UInt8.toNat_and]
  exact Nat.and_two_pow_sub_one_eq_mod b.toNat 7

theorem last_iff (b : UInt8) : b &&& 0x80 = 0 ↔ b.toNat < 128 := by
  have hall : ∀ n < 256, UInt8.ofNat n &&& 0x80 = 0 ↔ n < 128 := by decide +kernel
  have hb := hall b.toNat b.toNat_lt
  rwa [UInt8.ofNat_toNat] at hb

/-- Seven bits above those that have been read. -/
theorem toNat_or_shiftLeft (low : UInt64) (hacc : acc.toNat < 2 ^ shift) (hshift : shift < 64)
    (hfit : low.toNat * 2 ^ shift < 2 ^ 64) :
    (acc ||| (low <<< UInt64.ofNat shift)).toNat = acc.toNat + low.toNat * 2 ^ shift := by
  have hmod : (UInt64.ofNat shift).toNat % 64 = shift := by
    rw [UInt64.toNat_ofNat_of_lt' (hshift.trans (by decide))]
    exact Nat.mod_eq_of_lt hshift
  rw [UInt64.toNat_or, UInt64.toNat_shiftLeft, hmod, Nat.shiftLeft_eq, Nat.mod_eq_of_lt hfit,
    Nat.or_comm, Nat.mul_comm, ← Nat.two_pow_add_eq_or_of_lt hacc, Nat.add_comm]

/-- The first byte of a varint that goes on. -/
theorem toNat_continued (v : UInt64) :
    (((v &&& 0x7f) ||| 0x80).toUInt8).toNat = v.toNat % 128 + 128 := by
  have hor := Nat.two_pow_add_eq_or_of_lt (i := 7) (b := v.toNat % 128) (by omega) 1
  rw [UInt64.toNat_toUInt8, UInt64.toNat_or, toNat_low, Nat.or_comm]
  rw [Nat.mul_one] at hor
  change (2 ^ 7 ||| v.toNat % 128) % 256 = _
  rw [← hor]
  omega

/-- The last byte of a varint holds what is left. -/
theorem readVarintFrom_last (rest : Bytes) {b : UInt8} (hb : b.toNat = v.toNat)
    (hlt : v.toNat < 128) (hshift : shift < 64) (hacc : acc.toNat < 2 ^ shift)
    (hfit : acc.toNat + v.toNat * 2 ^ shift < 2 ^ 64) :
    readVarintFrom acc shift (b :: rest) =
      some (UInt64.ofNat (acc.toNat + v.toNat * 2 ^ shift), rest) := by
  have hlow : (b &&& 0x7f).toUInt64.toNat = v.toNat := by
    rw [low_bits, hb, Nat.mod_eq_of_lt hlt]
  rw [readVarintFrom, if_pos ((last_iff b).mpr (by omega))]
  congr 2
  apply UInt64.toNat_inj.mp
  rw [toNat_or_shiftLeft _ hacc hshift (by rw [hlow]; omega), hlow, UInt64.toNat_ofNat_of_lt' hfit]

theorem readVarintFrom_varintLoop (rest : Bytes) (hshift : shift + 7 * fuel = 63)
    (hacc : acc.toNat < 2 ^ shift) (hfit : acc.toNat + v.toNat * 2 ^ shift < 2 ^ 64) :
    readVarintFrom acc shift (varintLoop fuel v ++ rest) =
      some (UInt64.ofNat (acc.toNat + v.toNat * 2 ^ shift), rest) := by
  induction fuel generalizing acc shift v with
  | zero =>
    obtain rfl : shift = 63 := by omega
    have hb : v.toUInt8.toNat = v.toNat := by
      rw [UInt64.toNat_toUInt8]
      omega
    exact readVarintFrom_last rest hb (by omega) (by decide) hacc hfit
  | succ fuel ih =>
    rw [varintLoop]
    by_cases hv : v ≥ 0x80
    · have hbyte := toNat_continued v
      rw [if_pos hv, List.cons_append, readVarintFrom,
        if_neg (by rw [last_iff]; omega), if_neg (by omega)]
      -- seven bits are read, and the rest are those of `v / 128`
      have hsum : v.toNat * 2 ^ shift =
          v.toNat % 128 * 2 ^ shift + v.toNat / 128 * 2 ^ (shift + 7) := by
        rw [pow_add]
        conv_lhs => rw [← Nat.mod_add_div v.toNat 128]
        ring
      have hlow : ((((v &&& 0x7f) ||| 0x80).toUInt8) &&& 0x7f).toUInt64.toNat = v.toNat % 128 := by
        rw [low_bits, hbyte]
        omega
      have hor := toNat_or_shiftLeft ((((v &&& 0x7f) ||| 0x80).toUInt8) &&& 0x7f).toUInt64 hacc
        (by omega) (by rw [hlow]; omega)
      rw [hlow] at hor
      have hpow : 2 ^ (shift + 7) = 128 * 2 ^ shift := by rw [pow_add, Nat.mul_comm]; rfl
      have hpart : v.toNat % 128 * 2 ^ shift ≤ 127 * 2 ^ shift :=
        Nat.mul_le_mul_right _ (by omega)
      rw [ih (by omega) (by rw [hor]; omega) (by rw [hor, toNat_shiftRight_seven]; omega), hor,
        toNat_shiftRight_seven, hsum, Nat.add_assoc]
    · have hlt : v.toNat < 128 := by
        rw [ge_iff_le, UInt64.le_iff_toNat_le] at hv
        simpa using hv
      rw [if_neg hv]
      refine readVarintFrom_last rest ?_ hlt (by omega) hacc hfit
      rw [UInt64.toNat_toUInt8]
      omega

/-- A varint reads back, whatever follows it. -/
theorem readVarint_varint (v : UInt64) (rest : Bytes) :
    readVarint (varint v ++ rest) = some (v, rest) := by
  have hv := v.toNat_lt
  have hread : readVarintFrom 0 0 (varintLoop 9 v ++ rest) = _ :=
    readVarintFrom_varintLoop rest rfl (by decide) (by simpa using hv)
  unfold readVarint varint
  rw [hread]
  simp

theorem next_key {field wire : UInt64} (hfield : field.toNat < 2 ^ 32) (hwire : wire.toNat < 8)
    (rest : Bytes) :
    next (key field wire ++ rest) = some (field.toUInt32, wire.toUInt32, rest) := by
  have hor := Nat.two_pow_add_eq_or_of_lt (i := 3) (b := wire.toNat) (by omega) field.toNat
  have hkey : ((field <<< 3) ||| wire).toNat = 8 * field.toNat + wire.toNat := by
    rw [UInt64.toNat_or, UInt64.toNat_shiftLeft, Nat.shiftLeft_eq]
    change field.toNat * 2 ^ 3 % 2 ^ 64 ||| wire.toNat = _
    rw [Nat.mod_eq_of_lt (by omega), Nat.mul_comm, ← hor]
  unfold next key
  rw [readVarint_varint, Option.map_some]
  have hnumber : (((field <<< 3) ||| wire) >>> 3).toUInt32 = field.toUInt32 := by
    apply UInt32.toNat_inj.mp
    rw [UInt64.toNat_toUInt32, UInt64.toNat_toUInt32, UInt64.toNat_shiftRight, hkey,
      Nat.shiftRight_eq_div_pow]
    change (8 * field.toNat + wire.toNat) / 2 ^ 3 % 2 ^ 32 = _
    omega
  have htype : (((field <<< 3) ||| wire) &&& 7).toUInt32 = wire.toUInt32 := by
    apply UInt32.toNat_inj.mp
    have hmod := Nat.and_two_pow_sub_one_eq_mod (8 * field.toNat + wire.toNat) 3
    rw [UInt64.toNat_toUInt32, UInt64.toNat_toUInt32, UInt64.toNat_and, hkey]
    change (8 * field.toNat + wire.toNat &&& 2 ^ 3 - 1) % 2 ^ 32 = _
    omega
  simp only [hnumber, htype]

theorem readFixed_of_length (hb : b.length = n) (rest : Bytes) :
    readFixed n (b ++ rest) = some (b, rest) := by
  unfold readFixed
  rw [if_neg (by rw [List.length_append]; omega), ← hb, List.take_left, List.drop_left]

theorem readBytes_bytes (hb : b.length < 2 ^ 64) (rest : Bytes) :
    readBytes (varint (UInt64.ofNat b.length) ++ (b ++ rest)) = some (b, rest) := by
  unfold readBytes
  rw [readVarint_varint, Option.bind_eq_bind, Option.bind_some]
  exact readFixed_of_length (UInt64.toNat_ofNat_of_lt' hb).symm rest

/-! ## Fields that are written -/

/-- A written field reads as itself. -/
theorem reads_varint {number : UInt64} (hnumber : number.toNat < 2 ^ 32) (v : UInt64) :
    Reads (key number 0 ++ varint v) [⟨number.toUInt32, .varint v⟩] [] := by
  refine .cons ?_ (.nil [])
  have hread := readVarint_varint v []
  rw [List.append_nil] at hread
  rw [readField_eq (next_key hnumber (by decide) _), readValue,
    if_pos (by decide), hread]
  rfl

theorem reads_uintField {number : UInt64} (hnumber : number.toNat < 2 ^ 32) (v : UInt64) :
    Reads (uintField number v) (if v = 0 then [] else [⟨number.toUInt32, .varint v⟩]) [] := by
  unfold uintField
  split
  · exact .nil []
  · exact reads_varint hnumber v

theorem reads_bytesField {number : UInt64} (hnumber : number.toNat < 2 ^ 32)
    (hb : b.length < 2 ^ 64) :
    Reads (bytesField number b) [⟨number.toUInt32, .bytes b⟩] [] := by
  unfold bytesField
  refine .cons ?_ (.nil [])
  have hread := readBytes_bytes hb []
  rw [List.append_nil] at hread
  rw [List.append_assoc, readField_eq (next_key hnumber (by decide) _), readValue,
    if_neg (by decide), if_neg (by decide), if_pos (by decide), hread]
  rfl

theorem reads_fixed64 {number : UInt64} (hnumber : number.toNat < 2 ^ 32) (hb : b.length = 8) :
    Reads (key number 1 ++ b) [⟨number.toUInt32, .fixed64 b⟩] [] := by
  refine .cons ?_ (.nil [])
  have hread := readFixed_of_length hb []
  rw [List.append_nil] at hread
  rw [readField_eq (next_key hnumber (by decide) _), readValue, if_neg (by decide),
    if_pos (by decide), hread]
  rfl

end Pb
end Net
end Bg3le
