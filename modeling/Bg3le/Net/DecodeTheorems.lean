import Bg3le.Net.Decode
import Bg3le.Net.ReaderTheorems

/-!
# What `decode` accepts

The three loops of `decode` and `decode_var` take complete fields up and end where no key can be
read. That is at the end of the bytes, or at a key that breaks off or runs over ten bytes; and a
variable that does not decode is left out of a message that does.
-/

namespace Bg3le
namespace Net

open Pb

variable {data rest : Bytes} {w : Wrapper} {fs gs : List Field} {f : Field} {kind : WrapperField}
  {body : Bytes}

/-! ## What a field does -/

/-- A variable with one more field read. -/
def varStep (s : VarState) (f : Field) : VarState :=
  match f.value with
  | .varint n =>
    if f.number = 1 then { s with lo := n }
    else if f.number = 2 then { s with hi := n }
    else if f.number = 4 then { s with v := { s.v with kind := .int, i := n } }
    else if f.number = 9 then { s with v := { s.v with kind := .bool, b := n ≠ 0 } }
    else if f.number = 8 then { s with v := { s.v with module := n = 1 } }
    else s
  | .fixed64 raw =>
    if f.number = 5 then
      { s with v := { s.v with kind := .double, d := UInt64.ofNat (LittleEndian.decode raw) } }
    else s
  | .bytes b =>
    if f.number = 3 then { s with v := { s.v with key := b } }
    else if f.number = 6 then { s with v := { s.v with kind := .string, s := b } }
    else if f.number = 7 then { s with v := { s.v with kind := .json, s := b } }
    else if f.number = 10 then { s with v := { s.v with kind := .binary, s := b } }
    else s
  | .fixed32 _ => s

/-- The last known member with one more field read. -/
def outerStep (s : Option WrapperField × Bytes) (f : Field) : Option WrapperField × Bytes :=
  match WrapperField.ofNumber f.number, f.value with
  | some kind, .bytes body => (some kind, body)
  | _, _ => s

/-- A message with one more field of its body read. -/
def bodyStep (w : Wrapper) (f : Field) : Wrapper :=
  match w.kind, f.value with
  | .postLua, .bytes b =>
    if f.number = 1 then { w with channel := b }
    else if f.number = 2 then { w with payload := b }
    else if f.number = 3 then { w with module := b }
    else w
  | .postLua, .varint n =>
    if f.number = 4 then { w with requestId := n.toUInt32 }
    else if f.number = 5 then { w with replyId := n.toUInt32 }
    else if f.number = 6 then { w with binary := n = 1 }
    else w
  | .resetLua, .varint n => if f.number = 1 then { w with bootstrap := n ≠ 0 } else w
  | .hello, .varint n => if f.number = 1 then { w with version := n.toUInt32 } else w
  | .kick, .bytes b => if f.number = 1 then { w with kick := b } else w
  | .userVars, .bytes var =>
    if f.number = 1 then
      match decodeVar var with
      | some v => { w with vars := w.vars ++ [v] }
      | none => w
    else w
  | _, _ => w

theorem skip_eq (wire : UInt32) (data : Bytes) :
    skip wire data = (readValue wire data).map Prod.snd := by
  unfold skip readValue
  split_ifs <;> simp [Option.map_map, Function.comp_def]

/-- The four wire types that have values. -/
theorem wire_cases (wire : UInt32) :
    wire = 0 ∨ wire = 1 ∨ wire = 2 ∨ wire = 5 ∨
      wire ≠ 0 ∧ wire ≠ 1 ∧ wire ≠ 2 ∧ ∀ data, readValue wire data = none := by
  by_cases h0 : wire = 0
  · exact .inl h0
  by_cases h1 : wire = 1
  · exact .inr (.inl h1)
  by_cases h2 : wire = 2
  · exact .inr (.inr (.inl h2))
  by_cases h5 : wire = 5
  · exact .inr (.inr (.inr (.inl h5)))
  refine .inr (.inr (.inr (.inr ⟨h0, h1, h2, fun data => ?_⟩)))
  unfold readValue
  rw [if_neg h0, if_neg h1, if_neg h2, if_neg h5]

theorem readValue_zero (data : Bytes) :
    readValue 0 data = (readVarint data).map fun (n, rest) => (.varint n, rest) := rfl

theorem readValue_one (data : Bytes) :
    readValue 1 data = (readFixed 8 data).map fun (raw, rest) => (.fixed64 raw, rest) := rfl

theorem readValue_two (data : Bytes) :
    readValue 2 data = (readBytes data).map fun (b, rest) => (.bytes b, rest) := rfl

theorem readValue_five (data : Bytes) :
    readValue 5 data = (readFixed 4 data).map fun (raw, rest) => (.fixed32 raw, rest) := rfl

theorem varField_eq (s : VarState) (field wire : UInt32) (data : Bytes) :
    varField s field wire data =
      (readValue wire data).map fun (value, rest) => (varStep s ⟨field, value⟩, rest) := by
  unfold varField
  rw [skip_eq]
  rcases wire_cases wire with rfl | rfl | rfl | rfl | ⟨h0, h1, h2, hnone⟩
  · rw [readValue_zero]
    cases readVarint data with
    | none => simp
    | some read =>
      simp only [Option.map_some, varStep, show ¬ (0 : UInt32) = 2 by decide,
        show ¬ (0 : UInt32) = 1 by decide, and_true, and_false, if_false]
      split_ifs <;> rfl
  · rw [readValue_one]
    cases readFixed 8 data with
    | none => simp
    | some read =>
      simp only [Option.map_some, varStep, show ¬ (1 : UInt32) = 0 by decide,
        show ¬ (1 : UInt32) = 2 by decide, and_true, and_false, if_false]
      split_ifs <;> rfl
  · rw [readValue_two]
    cases readBytes data with
    | none => simp
    | some read =>
      simp only [Option.map_some, varStep, show ¬ (2 : UInt32) = 0 by decide,
        show ¬ (2 : UInt32) = 1 by decide, and_true, and_false, if_false]
      split_ifs <;> first | rfl | simp_all
  · rw [readValue_five]
    simp [varStep, Option.map_map, Function.comp_def]
  · simp [h0, h1, h2, hnone]

theorem outerField_eq (s : Option WrapperField × Bytes) (field wire : UInt32) (data : Bytes) :
    outerField s field wire data =
      (readValue wire data).map fun (value, rest) => (outerStep s ⟨field, value⟩, rest) := by
  unfold outerField outerStep
  rw [skip_eq]
  cases hkind : WrapperField.ofNumber field with
  | none => simp [hkind, Option.map_map, Function.comp_def]
  | some kind =>
    rcases wire_cases wire with rfl | rfl | rfl | rfl | ⟨h0, h1, h2, hnone⟩
    · simp [hkind, readValue_zero, Option.map_map, Function.comp_def]
    · simp [hkind, readValue_one, Option.map_map, Function.comp_def]
    · simp [hkind, readValue_two, Option.map_map, Function.comp_def]
    · simp [hkind, readValue_five, Option.map_map, Function.comp_def]
    · simp [h2, hnone]

theorem bodyField_eq (w : Wrapper) (field wire : UInt32) (data : Bytes) :
    bodyField w field wire data =
      (readValue wire data).map fun (value, rest) => (bodyStep w ⟨field, value⟩, rest) := by
  unfold bodyField
  rw [skip_eq]
  rcases wire_cases wire with rfl | rfl | rfl | rfl | ⟨h0, h1, h2, hnone⟩
  · rw [readValue_zero]
    cases readVarint data with
    | none => cases w.kind <;> simp
    | some read =>
      cases hkind : w.kind <;>
        simp only [Option.map_some, bodyStep, hkind, show ¬ (0 : UInt32) = 2 by decide, true_and,
          false_and, if_false] <;>
        split_ifs <;> rfl
  · rw [readValue_one]
    cases hkind : w.kind <;> simp [bodyStep, hkind, Option.map_map, Function.comp_def]
  · rw [readValue_two]
    cases readBytes data with
    | none => cases w.kind <;> simp
    | some read =>
      cases hkind : w.kind <;>
        simp only [Option.map_some, bodyStep, hkind, show ¬ (2 : UInt32) = 0 by decide, true_and,
          false_and, if_false] <;>
        split_ifs <;> first | rfl | cases hvar : decodeVar read.1 <;> rfl
  · rw [readValue_five]
    cases hkind : w.kind <;> simp [bodyStep, hkind, Option.map_map, Function.comp_def]
  · cases w.kind <;> simp [h0, h2, hnone]

/-! ## What is decoded -/

/-- The last known member, with its body. -/
def lastMember (fs : List Field) : Option WrapperField × Bytes := fs.foldl outerStep (none, [])

theorem decodeVar_eq_some {v : NetUserVar} : decodeVar data = some v ↔
    ∃ fs rest, Reads data fs rest ∧ next rest = none ∧
      v = { (fs.foldl varStep {}).v with
        guid := formatGuid (fs.foldl varStep {}).lo (fs.foldl varStep {}).hi } := by
  unfold decodeVar
  rw [Option.map_eq_some_iff]
  constructor
  · rintro ⟨s, hs, rfl⟩
    obtain ⟨fs, rest, hreads, hend, rfl⟩ := (readFields_eq_some varField_eq le_rfl).mp hs
    exact ⟨fs, rest, hreads, hend, rfl⟩
  · rintro ⟨fs, rest, hreads, hend, rfl⟩
    exact ⟨_, (readFields_eq_some varField_eq le_rfl).mpr ⟨fs, rest, hreads, hend, rfl⟩, rfl⟩

theorem decode_eq_some : decode data = some w ↔
    ∃ fs rest kind body gs rest', Reads data fs rest ∧ next rest = none ∧
      lastMember fs = (some kind, body) ∧ Reads body gs rest' ∧ next rest' = none ∧
      w = gs.foldl bodyStep { kind } := by
  unfold decode
  simp only [Option.bind_eq_bind, Option.bind_eq_some_iff, Prod.exists]
  constructor
  · rintro ⟨member, body, houter, kind, rfl, hbody⟩
    obtain ⟨fs, rest, hreads, hend, hlast⟩ := (readFields_eq_some outerField_eq le_rfl).mp houter
    obtain ⟨gs, rest', hreads', hend', rfl⟩ := (readFields_eq_some bodyField_eq le_rfl).mp hbody
    exact ⟨fs, rest, kind, body, gs, rest', hreads, hend, hlast.symm, hreads', hend', rfl⟩
  · rintro ⟨fs, rest, kind, body, gs, rest', hreads, hend, hlast, hreads', hend', rfl⟩
    refine ⟨some kind, body, ?_, kind, rfl, ?_⟩
    · exact (readFields_eq_some outerField_eq le_rfl).mpr ⟨fs, rest, hreads, hend, hlast.symm⟩
    · exact (readFields_eq_some bodyField_eq le_rfl).mpr ⟨gs, rest', hreads', hend', rfl⟩

@[simp] theorem kind_bodyStep (w : Wrapper) (f : Field) : (bodyStep w f).kind = w.kind := by
  unfold bodyStep
  repeat' split
  all_goals rfl

theorem kind_foldl_bodyStep (gs : List Field) (w : Wrapper) :
    (gs.foldl bodyStep w).kind = w.kind := by
  induction gs generalizing w with
  | nil => rfl
  | cons f gs ih => rw [List.foldl_cons, ih, kind_bodyStep]

/-- The variable submessages of a body. -/
def submessages (gs : List Field) : List Bytes :=
  gs.filterMap fun f =>
    match f.value with
    | .bytes var => if f.number = 1 then some var else none
    | _ => none

/-- Every variable that decodes is added to the message. -/
theorem vars_foldl_bodyStep (gs : List Field) (hw : w.kind = .userVars) :
    (gs.foldl bodyStep w).vars = w.vars ++ (submessages gs).filterMap decodeVar := by
  induction gs generalizing w with
  | nil => simp [submessages]
  | cons f gs ih =>
    rw [List.foldl_cons, ih (by rw [kind_bodyStep, hw])]
    unfold submessages bodyStep
    rw [List.filterMap_cons, hw]
    obtain ⟨number, value⟩ := f
    cases value with
    | varint n => rfl
    | fixed64 raw => rfl
    | fixed32 raw => rfl
    | bytes var =>
      by_cases hnumber : number = 1
      · cases hvar : decodeVar var <;> simp [hnumber, hvar]
      · simp [hnumber]

/-! ## Whole messages -/

/-- The message is complete fields, of which one is a known member, whose body is complete fields;
and for variables every submessage is, and has its entry. -/
structure Whole (data : Bytes) (w : Wrapper) (fs gs : List Field) (body : Bytes) : Prop where
  message : Reads data fs []
  member : lastMember fs = (some w.kind, body)
  body : Reads body gs []
  nested (h : w.kind = .userVars) : ∀ var ∈ submessages gs, ∃ hs, Reads var hs []
  entries (h : w.kind = .userVars) : w.vars.length = (submessages gs).length

/-- After complete fields come bytes that no key is read from: it breaks off, or runs over ten
bytes. -/
def BreaksOff (data : Bytes) : Prop := ∃ fs rest, Reads data fs rest ∧ next rest = none ∧ rest ≠ []

/-- After complete fields comes a key whose value is not complete, or that has no wire type. -/
def CutShort (data : Bytes) : Prop :=
  ∃ fs rest field wire value, Reads data fs rest ∧ next rest = some (field, wire, value) ∧
    readValue wire value = none

/-- Where complete fields end in the message and in the body of its last known member, nothing is
left; and no variable of the body breaks off in a key or in a value. -/
structure Unbroken (data : Bytes) : Prop where
  message {fs gs : List Field} {kind : WrapperField} {rest body rest' : Bytes}
    (hdata : Reads data fs rest) (hend : next rest = none) (hmember : lastMember fs = (some kind, body))
    (hbody : Reads body gs rest') (hend' : next rest' = none) : rest = [] ∧ rest' = []
  nested {fs gs : List Field} {rest body rest' : Bytes}
    (hdata : Reads data fs rest) (hend : next rest = none)
    (hmember : lastMember fs = (some .userVars, body))
    (hbody : Reads body gs rest') (hend' : next rest' = none) :
    ∀ var ∈ submessages gs, ¬ CutShort var ∧ ¬ BreaksOff var

/-- What is read up to where no key can be read is not cut short. -/
theorem not_cutShort (h : Reads data fs rest) (hend : next rest = none) : ¬ CutShort data := by
  rintro ⟨gs, rest', field, wire, value, hreads, hnext, hnone⟩
  have hfield : readField rest' = none := by
    rw [readField_eq hnext, hnone]
    rfl
  induction hreads generalizing fs with
  | nil =>
    cases h with
    | nil => exact absurd hend (by rw [hnext]; exact nofun)
    | cons hread _ => exact absurd hread (by rw [hfield]; exact nofun)
  | cons hread _ ih =>
    cases h with
    | nil =>
      unfold readField at hread
      rw [hend] at hread
      cases hread
    | cons hread' hrest =>
      obtain ⟨rfl, rfl⟩ := Prod.mk.inj (Option.some.inj (hread.symm.trans hread'))
      exact ih hrest hnext hfield

/-- What is not cut short is complete fields, up to where no key can be read. -/
theorem reads_of_not_cutShort (h : ¬ CutShort data) :
    ∃ fs rest, Reads data fs rest ∧ next rest = none := by
  -- on the length; a field that is read leaves less data
  induction hlen : data.length using Nat.strong_induction_on generalizing data with
  | h n ih =>
    cases hnext : next data with
    | none => exact ⟨[], data, .nil data, hnext⟩
    | some key =>
      obtain ⟨field, wire, value⟩ := key
      cases hvalue : readValue wire value with
      | none => exact absurd ⟨[], data, field, wire, value, .nil data, hnext, hvalue⟩ h
      | some read =>
        have hread : readField data = some (⟨field, read.1⟩, read.2) := by
          rw [readField_eq hnext, hvalue]
          rfl
        have hlt := (readField_append hread []).2
        have hrest : ¬ CutShort read.2 := by
          rintro ⟨fs, rest, field, wire, value, hreads, hcut⟩
          exact h ⟨_, rest, field, wire, value, .cons hread hreads, hcut⟩
        obtain ⟨fs, rest, hreads, hend⟩ := ih _ (hlen ▸ hlt) hrest rfl
        exact ⟨_, rest, .cons hread hreads, hend⟩

theorem next_nil : next [] = none := rfl

/-- What `decode` accepts is whole exactly where no loop ends early and no variable is refused. -/
theorem decode_whole_iff (data : Bytes) :
    (∀ w, decode data = some w → ∃ fs gs body, Whole data w fs gs body) ↔ Unbroken data := by
  constructor
  · intro hwhole
    -- a message is read in one way only, so the reading at hand is the one that `Whole` names
    have hsame {fs gs : List Field} {kind : WrapperField} {rest body rest' : Bytes}
        (hdata : Reads data fs rest) (hend : next rest = none)
        (hmember : lastMember fs = (some kind, body)) (hbody : Reads body gs rest')
        (hend' : next rest' = none) :
        rest = [] ∧ rest' = [] ∧ (kind = .userVars → ∀ var ∈ submessages gs, ∃ hs, Reads var hs []) := by
      obtain ⟨fs', gs', body', hw⟩ := hwhole _
        (decode_eq_some.mpr ⟨fs, rest, kind, body, gs, rest', hdata, hend, hmember, hbody, hend', rfl⟩)
      obtain ⟨rfl, hrest⟩ := hdata.unique hw.message hend next_nil
      have hbodies := hmember.symm.trans hw.member
      rw [Prod.mk.injEq] at hbodies
      obtain ⟨-, rfl⟩ := hbodies
      obtain ⟨rfl, hrest'⟩ := hbody.unique hw.body hend' next_nil
      exact ⟨hrest, hrest', fun hkind => hw.nested ((kind_foldl_bodyStep gs _).trans hkind)⟩
    refine ⟨fun hdata hend hmember hbody hend' => ?_, fun hdata hend hmember hbody hend' var hvar => ?_⟩
    · obtain ⟨hrest, hrest', -⟩ := hsame hdata hend hmember hbody hend'
      exact ⟨hrest, hrest'⟩
    · obtain ⟨hs, hreads⟩ := (hsame hdata hend hmember hbody hend').2.2 rfl var hvar
      refine ⟨not_cutShort hreads next_nil, ?_⟩
      rintro ⟨fs, rest, hreads', hend, hne⟩
      exact hne (hreads'.unique hreads hend next_nil).2
  · intro hunbroken w hw
    obtain ⟨fs, rest, kind, body, gs, rest', hdata, hend, hmember, hbody, hend', rfl⟩ :=
      decode_eq_some.mp hw
    obtain ⟨rfl, rfl⟩ := hunbroken.message hdata hend hmember hbody hend'
    have hkind := kind_foldl_bodyStep gs { kind }
    refine ⟨fs, gs, body, hdata, by rw [hkind]; exact hmember, hbody, fun h => ?_, fun h => ?_⟩
    · obtain rfl : kind = .userVars := hkind.symm.trans h
      intro var hvar
      obtain ⟨hcut, hkey⟩ := hunbroken.nested hdata hend hmember hbody hend' var hvar
      obtain ⟨hs, rest, hreads, hstop⟩ := reads_of_not_cutShort hcut
      by_cases hrest : rest = []
      · exact ⟨hs, hrest ▸ hreads⟩
      · exact absurd ⟨hs, rest, hreads, hstop, hrest⟩ hkey
    · obtain rfl : kind = .userVars := hkind.symm.trans h
      have hall := hunbroken.nested hdata hend hmember hbody hend'
      rw [vars_foldl_bodyStep gs rfl, List.nil_append]
      -- `filterMap` drops none of them, as each one decodes
      have hlength (vars : List Bytes) (h : ∀ var ∈ vars, (decodeVar var).isSome = true) :
          (vars.filterMap decodeVar).length = vars.length := by
        induction vars with
        | nil => rfl
        | cons var vars ih =>
          obtain ⟨v, hv⟩ := Option.isSome_iff_exists.mp (h var List.mem_cons_self)
          rw [List.filterMap_cons_some hv, List.length_cons, List.length_cons,
            ih fun var hvar => h var (List.mem_cons_of_mem _ hvar)]
      refine hlength _ fun var hvar => ?_
      obtain ⟨hs, rest, hreads, hstop⟩ := reads_of_not_cutShort (hall var hvar).1
      exact Option.isSome_iff_exists.mpr ⟨_, decodeVar_eq_some.mpr ⟨hs, rest, hreads, hstop, rfl⟩⟩

/-- A message of one variable, whose submessage breaks off. -/
def brokenVariable : Bytes := [0x42, 3, 0x0a, 1, 8]

/-- It is accepted, and the variable is missing. -/
theorem brokenVariable_not_whole : ¬ ∀ data w, decode data = some w →
    ∃ fs gs body, Whole data w fs gs body := by
  intro hall
  have hdecode : decode brokenVariable = some { kind := .userVars } := by decide +kernel
  obtain ⟨fs, gs, body, hw⟩ := hall brokenVariable _ hdecode
  have hdata : Reads brokenVariable [⟨8, .bytes [0x0a, 1, 8]⟩] [] :=
    .cons (by decide +kernel) (.nil [])
  have hbody : Reads [0x0a, 1, 8] [⟨1, .bytes [8]⟩] [] := .cons (by decide +kernel) (.nil [])
  obtain ⟨rfl, -⟩ := hw.message.unique hdata next_nil next_nil
  obtain rfl : [0x0a, 1, 8] = body := (Prod.mk.inj hw.member).2
  obtain ⟨rfl, -⟩ := hw.body.unique hbody next_nil next_nil
  exact absurd (hw.entries rfl) (by decide)

end Net
end Bg3le
