import Bg3le.Json.BinaryRoundTrip
import Bg3le.Json.Options
import Bg3le.Json.StringifyTheorems

/-!
# What `Ext.Json.Stringify` returns

The text shows the value under the context of the options. The binary form is the writer's own, of
the value or, where that cannot be walked, of what is parsed from its compact text.
-/

namespace Bg3le
namespace Json

open NumberText JsonText

variable {host : Host} {hash : Bytes → ℕ} {unsupported : Value → Bytes}
  {parse : Bytes → Except Bytes (Value × (ℕ → LuaTable))} {args : Arguments} {ctx : Context}
  {v : Value} {result text : Bytes}

/-- The text is a document that shows the value. -/
def ShownBy (host : Host) (ctx : Context) (v : Value) (text : Bytes) : Prop :=
  ∃ d seen, Text d text ∧ read text = some d ∧ Shows host ctx 0 [] v d seen

/-- What the binary form is: what the writer makes of the value or, where it makes nothing of that, of
what a text is parsed to that shows it. -/
def EncodedBy (host : Host) (hash : Bytes → ℕ) (unsupported : Value → Bytes)
    (parse : Bytes → Except Bytes (Value × (ℕ → LuaTable))) (ctx : Context) (v : Value)
    (blob : Bytes) : Prop :=
  jsonBinaryEncode host hash unsupported v = .ok blob ∨
    (∀ other, jsonBinaryEncode host hash unsupported v ≠ .ok other) ∧
      ∃ text parsed tables, ShownBy host { ctx with beautify := false } v text ∧
        parse text = .ok (parsed, tables) ∧
          jsonBinaryEncode { host with table := tables } hash unsupported parsed = .ok blob

theorem stringifyBinary_eq_ok :
    stringifyBinary host hash unsupported parse ctx v = .ok result ↔
      jsonBinaryEncode host hash unsupported v = .ok result ∨
        (∀ other, jsonBinaryEncode host hash unsupported v ≠ .ok other) ∧
          ∃ text parsed tables, stringifyText host { ctx with beautify := false } v = .ok text ∧
            parse text = .ok (parsed, tables) ∧
              jsonBinaryEncode { host with table := tables } hash unsupported parsed = .ok result := by
  unfold stringifyBinary
  cases hencode : jsonBinaryEncode host hash unsupported v with
  | ok blob => simp
  | error e => simp [bind_eq_ok]

/-- Whatever is returned, for any options, shows the value. -/
theorem stringifyWith_shows
    (h : stringifyWith host hash unsupported parse args v = .ok result) :
    if args.binary then EncodedBy host hash unsupported parse args.context v result
    else ShownBy host args.context v result := by
  unfold stringifyWith at h
  split at h
  · cases h
  · split at h
    · next hbinary =>
      rw [if_pos hbinary]
      obtain hblob | ⟨hnone, text, parsed, tables, htext, hparse, hblob⟩ :=
        stringifyBinary_eq_ok.mp h
      · exact .inl hblob
      · exact .inr ⟨hnone, text, parsed, tables, stringifyText_shows htext, hparse, hblob⟩
    · next hbinary =>
      rw [if_neg hbinary]
      exact stringifyText_shows h

/-- Without `AvoidRecursion` something is returned exactly where a document shows the value, or for the
binary form where the writer can walk the value or what is parsed from its compact text. -/
theorem stringifyWith_isOk_iff (havoid : args.context.avoidRecursion = false) :
    (∃ result, stringifyWith host hash unsupported parse args v = .ok result) ↔ args.count ≤ 3 ∧
      if args.binary then
        (∃ d, Stands host 0 v d) ∨
          ∃ text parsed tables, stringifyText host { args.context with beautify := false } v = .ok text ∧
            parse text = .ok (parsed, tables) ∧ ∃ d, Stands { host with table := tables } 0 parsed d
      else ∃ d seen, Shows host args.context 0 [] v d seen := by
  unfold stringifyWith
  by_cases hcount : 3 < args.count
  · have hmany : ¬args.count ≤ 3 := by omega
    simp [hcount, hmany]
  · have hfew : args.count ≤ 3 := by omega
    rw [if_neg hcount, and_iff_right hfew]
    by_cases hbinary : args.binary
    · simp only [if_pos hbinary, stringifyBinary_eq_ok]
      rw [← @exists_blob_iff host hash unsupported v]
      constructor
      · rintro ⟨blob, hblob | ⟨-, text, parsed, tables, htext, hparse, hblob⟩⟩
        · exact .inl ⟨blob, hblob⟩
        · exact .inr ⟨text, parsed, tables, htext, hparse, exists_blob_iff.mp ⟨blob, hblob⟩⟩
      · rintro (⟨blob, hblob⟩ | ⟨text, parsed, tables, htext, hparse, hwritable⟩)
        · exact ⟨blob, .inl hblob⟩
        · by_cases hnone : ∃ blob, jsonBinaryEncode host hash unsupported v = .ok blob
          · obtain ⟨blob, hblob⟩ := hnone
            exact ⟨blob, .inl hblob⟩
          · obtain ⟨blob, hblob⟩ := exists_blob_iff.mpr hwritable
            exact ⟨blob, .inr ⟨fun other hother => hnone ⟨other, hother⟩, text, parsed, tables,
              htext, hparse, hblob⟩⟩
    · simp only [if_neg hbinary]
      exact stringifyText_isOk_iff havoid

/-! ## A view -/

/-- A state with a view of two members, of which one is a table. -/
def viewHost : Host where
  __ := bareHost
  table _ := ⟨[.boolean true, .string (bytes "x\n"), .nil], none⟩
  rawGetMetatable v :=
    if v = .userdata 0 then
      some ⟨some [(.string (bytes "b"), .integer 2), (.string (bytes "a"), .table 1)], true, none, none,
        false⟩
    else none

/-- `{Beautify = false, IterateUserdata = true}`, and `Binary`. -/
def viewOptions (binary : Bool) : Options where
  get k :=
    if k = bytes "Beautify" then .boolean false
    else if k = bytes "IterateUserdata" then .boolean true
    else if k = bytes "Binary" then .boolean binary
    else .nil
  bounded x h := by
    rw [if_neg (by decide), if_neg (by decide), if_neg (by decide)] at h
    cases h

/-- The text of the view. -/
def viewText : Bytes := bytes "\x7b\"a\":[true,\"x\\n\"],\"b\":2\x7d"

/-- What the text of the view is parsed to. -/
def viewParse (text : Bytes) : Except Bytes (Value × (ℕ → LuaTable)) :=
  if text = viewText then
    .ok (.table 0, fun t =>
      if t = 0 then ⟨[], some [(.string (bytes "b"), .integer 2), (.string (bytes "a"), .table 1)]⟩
      else ⟨[.boolean true, .string (bytes "x\n")], none⟩)
  else .error (bytes "JSON parse error")

/-- What the writer makes of that. -/
def viewBlob : Bytes := [12, 24, 98, 98, 24, 97, 13, 17, 40, 120, 10, 14, 14]

/-- The members of the text come in the order of their names. -/
theorem stringifyWith_shows_view :
    ShownBy viewHost (viewOptions false).context (.userdata 0) viewText ∧
      EncodedBy viewHost LittleEndian.decode (fun _ => []) viewParse (viewOptions true).context
        (.userdata 0) viewBlob :=
  ⟨@stringifyWith_shows viewHost LittleEndian.decode (fun _ => []) viewParse
      (.options (viewOptions false) 0) (.userdata 0) viewText (by decide +kernel),
    @stringifyWith_shows viewHost LittleEndian.decode (fun _ => []) viewParse
      (.options (viewOptions true) 0) (.userdata 0) viewBlob (by decide +kernel)⟩

/-- The view has a document, and a function has none. -/
theorem stringifyWith_isOk_iff_view :
    (∃ d seen, Shows viewHost (viewOptions false).context 0 [] (.userdata 0) d seen) ∧
      ¬∃ d seen, Shows viewHost (viewOptions false).context 0 [] (.other 0) d seen := by
  have hview := (@stringifyWith_isOk_iff viewHost LittleEndian.decode (fun _ => []) viewParse
    (.options (viewOptions false) 0) (.userdata 0) rfl).mp ⟨viewText, by decide +kernel⟩
  have hother := (@stringifyWith_isOk_iff viewHost LittleEndian.decode (fun _ => []) viewParse
    (.options (viewOptions false) 0) (.other 0) rfl).mpr
  refine ⟨hview.2, fun hshows => ?_⟩
  obtain ⟨result, hresult⟩ := hother ⟨by decide, hshows⟩
  have hraises : (stringifyWith viewHost LittleEndian.decode (fun _ => []) viewParse
      (.options (viewOptions false) 0) (.other 0)).isOk = false := by
    decide +kernel
  rw [hresult] at hraises
  cases hraises

end Json
end Bg3le
