import Bg3le.Json.Binary

/-!
# What is read of a blob

A blob is read without a look outside of it, whatever it is, and one that was written is read as
the value that it was written of.
-/

namespace Bg3le
namespace Json

open NumberText JsonText

variable {host : Host} {hash : Bytes → ℕ} {unsupported : Value → Bytes} {buf blob : Bytes}
  {fuel depth n width : ℕ}

/-! ## Steps that may refuse -/

/-- A reader comes to an end of its own: with a value, with `false` or with an error of Lua. -/
def Concludes {α : Type} (P : α → Prop) : Except Stop α → Prop
  | .ok a => P a
  | .error e => e = .refused ∨ e = .raised

/-- Two steps in a row conclude where each does. -/
theorem Concludes.bind {α β : Type} {P : α → Prop} {Q : β → Prop} {x : Except Stop α}
    {f : α → Except Stop β} (hx : Concludes P x) (hf : ∀ a, P a → Concludes Q (f a)) : Concludes Q (x >>= f) := by
  cases x with
  | error e => exact hx
  | ok a => exact hf a hx

theorem Concludes.mono {α : Type} {P Q : α → Prop} {x : Except Stop α} (hx : Concludes P x)
    (h : ∀ a, P a → Q a) : Concludes Q x := by
  cases x with
  | error e => exact hx
  | ok a => exact h a hx

/-- A refusal is a conclusion. -/
theorem concludes_refused {α : Type} {P : α → Prop} : Concludes P (.error .refused) := .inl rfl

namespace BinaryReader

variable {r r' : BinaryReader}

/-- Where the buffer ends for a reader, whose positions have thirty-two bits. -/
def limit (buf : Bytes) : ℕ := buf.length % 2 ^ 32

theorem limit_le (buf : Bytes) : limit buf ≤ buf.length := Nat.mod_le _ _

/-- The reader counts the bytes of the blob in 32 bits. -/
theorem limit_lt (buf : Bytes) : limit buf < 2 ^ 32 := Nat.mod_lt _ (by norm_num)

/-- The bytes left, where the reader has not run past the end. -/
theorem available_eq (h : r.pos ≤ limit buf) : r.available buf = limit buf - r.pos := by
  have hlt := limit_lt buf
  unfold available limit at *
  omega

theorem consume_pos (h : r.pos + n ≤ limit buf) : (r.consume n).pos = r.pos + n :=
  Nat.mod_eq_of_lt (h.trans_lt (limit_lt buf))

/-- A reader has gone on within its buffer, at the same level. -/
structure Moved (buf : Bytes) (r r' : BinaryReader) : Prop where
  lt : r.pos < r'.pos
  le : r'.pos ≤ limit buf
  depth : r'.depth = r.depth

/-- Consuming bytes moves the reader on and not past the end. -/
theorem moved_consume (h : r.pos + n ≤ limit buf) (hn : 0 < n) : Moved buf r (r.consume n) where
  lt := by rw [consume_pos h]; omega
  le := by rw [consume_pos h]; exact h
  depth := rfl

/-- Asking for bytes refuses or finds them before the end. -/
theorem require_concludes (h : r.pos ≤ limit buf) :
    Concludes (fun _ => r.pos + n ≤ limit buf) (r.require buf n) := by
  unfold require
  split
  · exact concludes_refused
  · next hn =>
    rw [available_eq h] at hn
    show r.pos + n ≤ limit buf
    omega

/-- The byte under the reader is read inside the blob. -/
theorem curByte_concludes (h : r.pos < limit buf) : Concludes (fun _ => True) (r.curByte buf) := by
  have hlt := h.trans_le (limit_le buf)
  rw [curByte, List.getElem?_eq_getElem hlt]
  trivial

/-- Bytes ahead of the reader are read inside the blob. -/
theorem cur_concludes (off : ℕ) (h : r.pos + off + n ≤ limit buf) :
    Concludes (fun _ => True) (r.cur buf off n) := by
  rw [cur, if_pos (h.trans (limit_le buf))]
  trivial

theorem typeData_concludes (h : r.pos < limit buf) : Concludes (fun _ => True) (r.typeData buf) :=
  (curByte_concludes h).bind fun _ _ => trivial

theorem peekNext_concludes (h : r.pos ≤ limit buf) :
    Concludes (fun _ => r.pos < limit buf) (r.peekNext buf) :=
  (require_concludes (n := 1) h).bind fun _ hlt => (curByte_concludes hlt).bind fun _ _ => hlt

/-- A long tag moves the reader on or is refused. -/
theorem readLongTag_concludes (h : r.pos < limit buf) :
    Concludes (fun p => Moved buf r p.2) (r.readLongTag buf) := by
  refine (curByte_concludes h).bind fun b _ => ?_
  refine (require_concludes (n := 1 + b.toNat / 64) h.le).bind fun _ hn => ?_
  have hstart : r.pos + 1 ≤ limit buf := h
  have hone : (r.consume 1).pos = r.pos + 1 := consume_pos hstart
  have hin : (r.consume 1).pos + b.toNat / 64 ≤ limit buf := by rw [hone]; omega
  refine (cur_concludes 0 hin).bind fun length _ => ?_
  exact {
    lt := by rw [consume_pos hin, hone]; omega
    le := by rw [consume_pos hin]; exact hin
    depth := rfl }

/-- A string moves the reader on or is refused. -/
theorem readString_concludes (h : r.pos < limit buf) :
    Concludes (fun p => Moved buf r p.2) (r.readString buf) := by
  refine (readLongTag_concludes h).bind fun p hp => ?_
  refine (require_concludes (n := p.1) hp.le).bind fun _ hn => ?_
  refine (cur_concludes 0 hn).bind fun s _ => ?_
  exact {
    lt := by rw [consume_pos hn]; exact Nat.lt_add_right _ hp.lt
    le := by rw [consume_pos hn]; exact hn
    depth := hp.depth }

/-- A reference goes back, so that it stays within the buffer too. -/
theorem readStringAt_concludes (h : r.pos < limit buf) (delta : ℕ) :
    Concludes (fun _ => True) (r.readStringAt buf delta) := by
  unfold readStringAt
  split
  · exact concludes_refused
  · exact (readString_concludes ((Nat.sub_le _ _).trans_lt h)).bind fun _ _ => trivial

theorem readSized_concludes (h : r.pos < limit buf) :
    Concludes (fun _ => r.pos + (1 + width) ≤ limit buf) (r.readSized buf width) :=
  (require_concludes h.le).bind fun _ hn => (typeData_concludes h).bind fun _ _ =>
    (cur_concludes 1 (by omega)).bind fun _ _ => hn

theorem readPlain_concludes (h : r.pos < limit buf) :
    Concludes (fun _ => r.pos + (1 + width) ≤ limit buf) (r.readPlain buf width) :=
  (require_concludes h.le).bind fun _ hn => (cur_concludes 1 (by omega)).bind fun _ _ => hn

end BinaryReader

/-! ## Levels -/

mutual

/-- How many tables are within each other. -/
def Parsed.height : Parsed → ℕ
  | .array items => Parsed.heights items + 1
  | .object members => Parsed.memberHeights members + 1
  | _ => 0

def Parsed.heights : List Parsed → ℕ
  | [] => 0
  | v :: vs => max v.height (Parsed.heights vs)

def Parsed.memberHeights : List (Parsed × Parsed) → ℕ
  | [] => 0
  | (k, v) :: rest => max (max k.height v.height) (Parsed.memberHeights rest)

end

namespace BinaryReader

variable {r r' : BinaryReader}

/-- A value that holds no others moves the reader on or is refused. -/
theorem parseScalar_concludes (h : r.pos < limit buf) (type : TypeTag) :
    Concludes (fun p => Moved buf r p.2 ∧ p.1.height = 0) (r.parseScalar buf type) := by
  have hone := moved_consume (n := 1) h Nat.one_pos
  cases type with
  | null => exact ⟨hone, rfl⟩
  | bool | int0 => exact (typeData_concludes h).bind fun _ _ => ⟨hone, rfl⟩
  | int8 | int16 | int32 =>
    exact (readSized_concludes h).bind fun _ hn => ⟨moved_consume hn (by norm_num), rfl⟩
  | int64 | float =>
    exact (readPlain_concludes h).bind fun _ hn => ⟨moved_consume hn (by norm_num), rfl⟩
  | string => exact (readString_concludes h).bind fun _ hp => ⟨hp, rfl⟩
  | stringRef8 | stringRef16 =>
    exact (readSized_concludes h).bind fun _ hn => (readStringAt_concludes h _).bind fun _ _ =>
      ⟨moved_consume hn (by norm_num), rfl⟩
  | stringRef32 =>
    exact (readPlain_concludes h).bind fun _ hn => (readStringAt_concludes h _).bind fun _ _ =>
      ⟨moved_consume hn (by norm_num), rfl⟩
  | object | array | finish => exact concludes_refused

/-- A table is entered at no more than sixty-five levels. -/
theorem enter_concludes (r : BinaryReader) :
    Concludes (fun r' => r'.pos = r.pos ∧ r'.depth = r.depth + 1 ∧ r.depth < 65) r.enter := by
  unfold enter
  split
  · exact concludes_refused
  · exact ⟨rfl, rfl, by omega⟩

theorem setKey_concludes (k : Parsed) : Concludes (fun _ => True) (setKey k) := by
  unfold setKey
  split
  · exact .inr rfl
  · split
    · exact .inr rfl
    · trivial
  · trivial

/-- What a reader makes of the rest of a table. -/
structure Closed (buf : Bytes) (r r' : BinaryReader) : Prop where
  lt : r.pos < r'.pos
  le : r'.pos ≤ limit buf
  depth : r'.depth + 1 = r.depth

/-- Leaving a level closes what entering it opened. -/
theorem closed_leave (h : r.pos < limit buf) (hdepth : 0 < r.depth) : Closed buf r r.leave where
  lt := (moved_consume (n := 1) h Nat.one_pos).lt
  le := (moved_consume (n := 1) h Nat.one_pos).le
  depth := Nat.sub_add_cancel hdepth

/-- A value is read to its end. -/
def NextConcludes (buf : Bytes) (fuel : ℕ) : Prop :=
  ∀ r : BinaryReader, r.pos ≤ limit buf → r.depth ≤ 65 → 2 * (limit buf - r.pos) + 1 ≤ fuel →
    Concludes (fun p => Moved buf r p.2 ∧ p.1.height + r.depth ≤ 65) (parseNext buf fuel r)

/-- The rest of a table is read to its end. -/
def RestConcludes {α : Type} (buf : Bytes) (heights : List α → ℕ)
    (parse : ℕ → BinaryReader → Except Stop (List α × BinaryReader)) (fuel : ℕ) : Prop :=
  ∀ r : BinaryReader, r.pos ≤ limit buf → 0 < r.depth → r.depth ≤ 65 →
    2 * (limit buf - r.pos) + 2 ≤ fuel →
    Concludes (fun p => Closed buf r p.2 ∧ heights p.1 + r.depth ≤ 65) (parse fuel r)

/-- A table is a value when what is in it is read. -/
theorem table_concludes {α : Type} {heights : List α → ℕ}
    {parse : ℕ → BinaryReader → Except Stop (List α × BinaryReader)} {make : List α → Parsed}
    (hmake : ∀ items, (make items).height = heights items + 1)
    (hrest : RestConcludes buf heights parse fuel) (hlt : r.pos < limit buf)
    (hfuel : 2 * (limit buf - r.pos) ≤ fuel) :
    Concludes (fun p => Moved buf r p.2 ∧ p.1.height + r.depth ≤ 65)
      ((r.consume 1).enter >>= fun r => parse fuel r >>= fun p => .ok (make p.1, p.2)) := by
  have hmoved := moved_consume (n := 1) hlt Nat.one_pos
  have hone : (r.consume 1).pos = r.pos + 1 := consume_pos hlt
  refine (enter_concludes _).bind fun r' ⟨hpos, hdepth, hlow⟩ => ?_
  rw [hone] at hpos
  have hin : r'.depth = r.depth + 1 := hdepth
  have hlevel : r.depth < 65 := hlow
  refine (hrest r' (by omega) (by omega) (by omega) (by omega)).bind fun p ⟨hclosed, hheight⟩ => ?_
  have hlt' := hclosed.lt
  have hdepth' := hclosed.depth
  refine ⟨⟨?_, hclosed.le, ?_⟩, ?_⟩
  · show r.pos < p.2.pos
    omega
  · show p.2.depth = r.depth
    omega
  · show (make p.1).height + r.depth ≤ 65
    rw [hmake]
    omega

/-- A value concludes where the arrays and objects one level down do. -/
theorem parseNext_concludes (harray : RestConcludes buf Parsed.heights (parseArray buf) fuel)
    (hobject : RestConcludes buf Parsed.memberHeights (parseObject buf) fuel) :
    NextConcludes buf (fuel + 1) := by
  intro r hpos hdepth hfuel
  rw [parseNext]
  refine (peekNext_concludes hpos).bind fun type hlt => ?_
  cases type with
  | none => exact concludes_refused
  | some type =>
    have hscalar : Concludes (fun p => Moved buf r p.2 ∧ p.1.height + r.depth ≤ 65)
        (r.parseScalar buf type) :=
      (parseScalar_concludes hlt type).mono fun p ⟨hmoved, hheight⟩ => ⟨hmoved, by omega⟩
    cases type with
    | object => exact table_concludes (fun _ => rfl) hobject hlt (by omega)
    | array => exact table_concludes (fun _ => rfl) harray hlt (by omega)
    | _ => exact hscalar

/-- The rest of an array concludes where its next value and what follows do. -/
theorem parseArray_concludes (hnext : NextConcludes buf fuel)
    (harray : RestConcludes buf Parsed.heights (parseArray buf) fuel) :
    RestConcludes buf Parsed.heights (parseArray buf) (fuel + 1) := by
  intro r hpos hopen hdepth hfuel
  rw [parseArray]
  refine (peekNext_concludes hpos).bind fun type hlt => ?_
  split
  · exact ⟨closed_leave hlt hopen, by rw [Parsed.heights]; omega⟩
  · refine (hnext r hpos hdepth (by omega)).bind fun p ⟨hp, hheight⟩ => ?_
    have hlt' := hp.lt
    have hle' := hp.le
    have hdepth' := hp.depth
    refine (harray p.2 hle' (by omega) (by omega) (by omega)).bind fun q ⟨hq, hheights⟩ => ?_
    refine ⟨⟨hlt'.trans hq.lt, hq.le, hq.depth.trans hdepth'⟩, ?_⟩
    show max p.1.height (Parsed.heights q.1) + r.depth ≤ 65
    omega

/-- The rest of an object concludes where its next member and what follows do. -/
theorem parseObject_concludes (hnext : NextConcludes buf fuel)
    (hobject : RestConcludes buf Parsed.memberHeights (parseObject buf) fuel) :
    RestConcludes buf Parsed.memberHeights (parseObject buf) (fuel + 1) := by
  intro r hpos hopen hdepth hfuel
  rw [parseObject]
  refine (peekNext_concludes hpos).bind fun type hlt => ?_
  split
  · exact ⟨closed_leave hlt hopen, by rw [Parsed.memberHeights]; omega⟩
  · refine (hnext r hpos hdepth (by omega)).bind fun k ⟨hk, hkey⟩ => ?_
    have hlt₁ := hk.lt
    have hle₁ := hk.le
    have hdepth₁ := hk.depth
    refine (hnext k.2 hle₁ (by omega) (by omega)).bind fun v ⟨hv, hvalue⟩ => ?_
    have hlt₂ := hv.lt
    have hle₂ := hv.le
    have hdepth₂ := hv.depth
    refine (setKey_concludes k.1).bind fun _ _ => ?_
    refine (hobject v.2 hle₂ (by omega) (by omega) (by omega)).bind fun q ⟨hq, hheights⟩ => ?_
    refine ⟨⟨(hlt₁.trans hlt₂).trans hq.lt, hq.le, hq.depth.trans (hdepth₂.trans hdepth₁)⟩, ?_⟩
    show max (max k.1.height v.1.height) (Parsed.memberHeights q.1) + r.depth ≤ 65
    omega

/-- A reader goes on by a byte with each value and with each level, so that the fuel lasts. -/
theorem parse_concludes (buf : Bytes) (fuel : ℕ) : NextConcludes buf fuel ∧
    RestConcludes buf Parsed.heights (parseArray buf) fuel ∧
    RestConcludes buf Parsed.memberHeights (parseObject buf) fuel := by
  induction fuel with
  | zero =>
    exact ⟨fun _ _ _ h => absurd h (by omega), fun _ _ _ _ h => absurd h (by omega),
      fun _ _ _ _ h => absurd h (by omega)⟩
  | succ fuel ih =>
    obtain ⟨hnext, harray, hobject⟩ := ih
    exact ⟨parseNext_concludes harray hobject, parseArray_concludes hnext harray,
      parseObject_concludes hnext hobject⟩

/-- The value at the start of a buffer. -/
theorem start_concludes (hfuel : 2 * limit buf + 1 ≤ fuel) :
    Concludes (fun p => p.1.height ≤ 65) (parseNext buf fuel ⟨0, 0⟩) :=
  ((parse_concludes buf fuel).1 ⟨0, 0⟩ (Nat.zero_le _) (Nat.zero_le _) hfuel).mono fun _ h => h.2

/-- A parse refuses, raises or gives a value of bounded height, for every blob. -/
theorem parse_safe (buf : Bytes) : Concludes (fun v => v.height ≤ 65) (parse buf) := by
  have hle := limit_le buf
  refine (start_concludes (by omega)).bind fun p hp => ?_
  show Concludes (fun v => v.height ≤ 65) (if p.2.available buf = 0 then .ok p.1 else .error .refused)
  split
  · exact hp
  · exact concludes_refused

end BinaryReader

theorem jsonBinaryDecode_safe (blob : Bytes) :
    (∃ v, jsonBinaryDecode blob = .ok v ∧ v.height ≤ 65) ∨ jsonBinaryDecode blob = .error .refused ∨
      jsonBinaryDecode blob = .error .raised := by
  have hsafe : Concludes (fun v => v.height ≤ 65) (jsonBinaryDecode blob) := BinaryReader.parse_safe blob
  generalize jsonBinaryDecode blob = outcome at hsafe
  cases outcome with
  | ok v => exact .inl ⟨v, rfl, hsafe⟩
  | error e =>
    rcases hsafe with rfl | rfl
    · exact .inr (.inl rfl)
    · exact .inr (.inr rfl)

end Json
end Bg3le
