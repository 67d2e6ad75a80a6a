import Bg3le.Net.Reader
import Bg3le.Net.Wrapper

/-!
# Reading the extender's messages

`format_guid`, `decode_var` and `decode` of `src/net.cpp`.
-/

namespace Bg3le
namespace Net

open Pb

/-- `format_guid`. -/
def formatGuid (lo hi : UInt64) : Bytes :=
  let b := LittleEndian.encode 8 lo.toNat ++ LittleEndian.encode 8 hi.toNat
  Guid.toString ⟨fun i => b.getD i 0⟩

/-! ## Variables -/

/-- What `decode_var` has read of a variable. -/
structure VarState where
  v : NetUserVar := {}
  lo : UInt64 := 0
  hi : UInt64 := 0

/-- One field of a variable. -/
def varField (s : VarState) (field wire : UInt32) (data : Bytes) : Option (VarState × Bytes) :=
  if field = 1 ∧ wire = 0 then (readVarint data).map fun (n, rest) => ({ s with lo := n }, rest)
  else if field = 2 ∧ wire = 0 then
    (readVarint data).map fun (n, rest) => ({ s with hi := n }, rest)
  else if field = 3 ∧ wire = 2 then
    (readBytes data).map fun (b, rest) => ({ s with v := { s.v with key := b } }, rest)
  else if field = 4 ∧ wire = 0 then
    (readVarint data).map fun (n, rest) => ({ s with v := { s.v with kind := .int, i := n } }, rest)
  else if field = 5 ∧ wire = 1 then
    (readFixed 8 data).map fun (raw, rest) =>
      ({ s with v := { s.v with kind := .double, d := UInt64.ofNat (LittleEndian.decode raw) } }, rest)
  else if (field = 6 ∨ field = 7 ∨ field = 10) ∧ wire = 2 then
    (readBytes data).map fun (b, rest) =>
      let kind := if field = 6 then Kind.string else if field = 7 then .json else .binary
      ({ s with v := { s.v with kind, s := b } }, rest)
  else if field = 9 ∧ wire = 0 then
    (readVarint data).map fun (n, rest) =>
      ({ s with v := { s.v with kind := .bool, b := n ≠ 0 } }, rest)
  else if field = 8 ∧ wire = 0 then
    (readVarint data).map fun (n, rest) => ({ s with v := { s.v with module := n = 1 } }, rest)
  else (skip wire data).map fun rest => (s, rest)

/-- `decode_var`. -/
def decodeVar (data : Bytes) : Option NetUserVar :=
  (readFields varField data.length {} data).map fun s => { s.v with guid := formatGuid s.lo s.hi }

/-! ## Messages -/

/-- The kind of message that a field number stands for. -/
def WrapperField.ofNumber (field : UInt32) : Option WrapperField :=
  if field = 1 then some .postLua
  else if field = 2 then some .resetLua
  else if field = 5 then some .hello
  else if field = 7 then some .kick
  else if field = 8 then some .userVars
  else none

/-- One field around the body: the last known one counts. -/
def outerField (s : Option WrapperField × Bytes) (field wire : UInt32) (data : Bytes) :
    Option ((Option WrapperField × Bytes) × Bytes) :=
  match WrapperField.ofNumber field with
  | some kind =>
    if wire = 2 then (readBytes data).map fun (body, rest) => ((some kind, body), rest)
    else (skip wire data).map fun rest => (s, rest)
  | none => (skip wire data).map fun rest => (s, rest)

/-- One field of the body. A variable that does not decode is left out. -/
def bodyField (w : Wrapper) (field wire : UInt32) (data : Bytes) : Option (Wrapper × Bytes) :=
  match w.kind with
  | .postLua =>
    if wire = 2 ∧ field = 1 then
      (readBytes data).map fun (b, rest) => ({ w with channel := b }, rest)
    else if wire = 2 ∧ field = 2 then
      (readBytes data).map fun (b, rest) => ({ w with payload := b }, rest)
    else if wire = 2 ∧ field = 3 then
      (readBytes data).map fun (b, rest) => ({ w with module := b }, rest)
    else if wire = 0 ∧ field = 4 then
      (readVarint data).map fun (n, rest) => ({ w with requestId := n.toUInt32 }, rest)
    else if wire = 0 ∧ field = 5 then
      (readVarint data).map fun (n, rest) => ({ w with replyId := n.toUInt32 }, rest)
    else if wire = 0 ∧ field = 6 then
      (readVarint data).map fun (n, rest) => ({ w with binary := n = 1 }, rest)
    else (skip wire data).map fun rest => (w, rest)
  | .resetLua =>
    if wire = 0 ∧ field = 1 then
      (readVarint data).map fun (n, rest) => ({ w with bootstrap := n ≠ 0 }, rest)
    else (skip wire data).map fun rest => (w, rest)
  | .hello =>
    if wire = 0 ∧ field = 1 then
      (readVarint data).map fun (n, rest) => ({ w with version := n.toUInt32 }, rest)
    else (skip wire data).map fun rest => (w, rest)
  | .kick =>
    if wire = 2 ∧ field = 1 then (readBytes data).map fun (b, rest) => ({ w with kick := b }, rest)
    else (skip wire data).map fun rest => (w, rest)
  | .userVars =>
    if wire = 2 ∧ field = 1 then
      (readBytes data).map fun (var, rest) =>
        match decodeVar var with
        | some v => ({ w with vars := w.vars ++ [v] }, rest)
        | none => (w, rest)
    else (skip wire data).map fun rest => (w, rest)

/-- `decode`, into a wrapper that nothing has been read into. -/
def decode (data : Bytes) : Option Wrapper := do
  let (kind, body) ← readFields outerField data.length (none, []) data
  let kind ← kind
  readFields bodyField body.length { kind } body

end Net
end Bg3le
