import Bg3le.Net.DecodeTheorems

/-!
# `decode` after `encode`

A message comes back with the values of its kind. What a oneof does not hold comes back as its
default, and so does the GUID of a variable where it does not parse.
-/

namespace Bg3le
namespace Net

open Pb

variable {v : NetUserVar} {w : Wrapper} {b : Bytes}

/-! ## GUIDs -/

/-- `parse_guid` accepts the text, and `format_guid` writes its digits in the same case. -/
structure WellFormed (guid : Bytes) : Prop where
  parses : (parseGuid guid).isSome = true
  lower : Guid.IsLower guid

/-- The GUID whose bytes are all zero. -/
def zeroGuid : Bytes := bytes "00000000-0000-0000-0000-000000000000"

/-- The text that the halves of a GUID are sent as comes back from them. -/
def receivedGuid (guid : Bytes) : Bytes :=
  let halves := (parseGuid guid).getD (0, 0)
  formatGuid halves.1 halves.2

theorem receivedGuid_of_wellFormed {guid : Bytes} (h : WellFormed guid) :
    receivedGuid guid = guid := by
  obtain ⟨halves, hhalves⟩ := Option.isSome_iff_exists.mp h.parses
  unfold receivedGuid
  rw [hhalves, Option.getD_some]
  obtain ⟨b, hb, hpair⟩ := Option.bind_eq_some_iff.mp hhalves
  obtain rfl := Option.some.inj hpair
  have hlength : b.length = 16 := Guid.length_parseBytes hb
  have hhalf (half : Bytes) (hhalf : half.length = 8) :
      LittleEndian.encode 8 (UInt64.ofNat (LittleEndian.decode half)).toNat = half := by
    have hlt := LittleEndian.decode_lt half
    rw [hhalf] at hlt
    rw [UInt64.toNat_ofNat_of_lt' hlt, ← hhalf]
    exact LittleEndian.encode_decode half
  simp only [formatGuid]
  rw [hhalf _ (by rw [List.length_take]; omega), hhalf _ (by rw [List.length_drop]; omega)]
  simp only [List.take_append_drop]
  exact Guid.toString_parseBytes hb h.lower

theorem receivedGuid_of_none {guid : Bytes} (h : parseGuid guid = none) :
    receivedGuid guid = zeroGuid := by
  unfold receivedGuid
  rw [h]
  decide +kernel

/-! ## What comes back -/

/-- A variable after it is sent. -/
def NetUserVar.received (v : NetUserVar) : NetUserVar where
  module := v.module
  guid := receivedGuid v.guid
  key := v.key
  kind := v.kind
  b := if v.kind = .bool then v.b else false
  i := if v.kind = .int then v.i else 0
  d := if v.kind = .double then v.d else 0
  s := if v.kind = .string ∨ v.kind = .json ∨ v.kind = .binary then v.s else []

/-- A message after it is sent. -/
def Wrapper.received (w : Wrapper) : Wrapper :=
  match w.kind with
  | .postLua =>
    { kind := .postLua, channel := w.channel, payload := w.payload, module := w.module,
      requestId := w.requestId, replyId := w.replyId, binary := w.binary }
  | .resetLua => { kind := .resetLua, bootstrap := w.bootstrap }
  | .hello => { kind := .hello, version := w.version }
  | .kick => { kind := .kick, kick := w.kick }
  | .userVars => { kind := .userVars, vars := w.vars.map NetUserVar.received }

/-! ## The fields that are written -/

/-- A scalar that is not zero, and a string that is not empty. -/
def uintFields (number : UInt32) (n : UInt64) : List Field :=
  if n = 0 then [] else [⟨number, .varint n⟩]

def strFields (number : UInt32) (b : Bytes) : List Field :=
  if b = [] then [] else [⟨number, .bytes b⟩]

def valueFields (v : NetUserVar) : List Field :=
  match v.kind with
  | .int => [⟨4, .varint v.i⟩]
  | .double => [⟨5, .fixed64 (LittleEndian.encode 8 v.d.toNat)⟩]
  | .string => [⟨6, .bytes v.s⟩]
  | .json => [⟨7, .bytes v.s⟩]
  | .bool => [⟨9, .varint (if v.b then 1 else 0)⟩]
  | .binary => [⟨10, .bytes v.s⟩]
  | .null => []

def varFields (v : NetUserVar) : List Field :=
  let guid := (parseGuid v.guid).getD (0, 0)
  uintFields 1 guid.1 ++ uintFields 2 guid.2 ++ strFields 3 v.key ++ valueFields v
    ++ uintFields 8 (if v.module then 1 else 0)

def bodyFields (w : Wrapper) : List Field :=
  match w.kind with
  | .postLua =>
    strFields 1 w.channel ++ strFields 2 w.payload ++ strFields 3 w.module
      ++ uintFields 4 w.requestId.toUInt64 ++ uintFields 5 w.replyId.toUInt64
      ++ uintFields 6 (if w.binary then 1 else 0)
  | .resetLua => uintFields 1 (if w.bootstrap then 1 else 0)
  | .hello => uintFields 1 w.version.toUInt64
  | .kick => strFields 1 w.kick
  | .userVars => w.vars.map fun v => ⟨1, .bytes (encodeVar v)⟩

theorem length_le_bytesField (number : UInt64) (b : Bytes) :
    b.length ≤ (bytesField number b).length := by
  rw [length_bytesField]
  omega

theorem reads_strField {number : UInt64} (hnumber : number.toNat < 2 ^ 32)
    (hb : (strField number b).length < 2 ^ 64) :
    Reads (strField number b) (strFields number.toUInt32 b) [] := by
  unfold strField strFields at *
  split
  · exact .nil []
  · next hne =>
    rw [if_neg hne] at hb
    exact reads_bytesField hnumber ((length_le_bytesField number b).trans_lt hb)

theorem reads_valueFields (hv : (encodeValue v).length < 2 ^ 64) :
    Reads (encodeValue v) (valueFields v) [] := by
  unfold encodeValue valueFields at *
  cases hkind : v.kind <;> simp only [hkind] at hv ⊢
  case null => exact .nil []
  case bool => exact reads_varint (by decide) _
  case int => exact reads_varint (by decide) _
  case double => exact reads_fixed64 (by decide) (LittleEndian.length_encode 8 _)
  all_goals exact reads_bytesField (by decide) ((length_le_bytesField _ _).trans_lt hv)

theorem reads_varFields (hv : (encodeVar v).length < 2 ^ 64) :
    Reads (encodeVar v) (varFields v) [] := by
  unfold encodeVar at *
  simp only [List.length_append] at hv
  refine Reads.append (.append (.append (.append ?_ ?_) ?_) ?_) ?_
  · exact reads_uintField (by decide) _
  · exact reads_uintField (by decide) _
  · exact reads_strField (by decide) (by omega)
  · exact reads_valueFields (by omega)
  · exact reads_uintField (by decide) _

theorem reads_bodyFields (hw : (encodeBody w).length < 2 ^ 64) :
    Reads (encodeBody w) (bodyFields w) [] := by
  unfold encodeBody bodyFields at *
  cases hkind : w.kind with
  | postLua =>
    simp only [hkind, List.length_append] at hw ⊢
    refine Reads.append (.append (.append (.append (.append ?_ ?_) ?_) ?_) ?_) ?_
    · exact reads_strField (by decide) (by omega)
    · exact reads_strField (by decide) (by omega)
    · exact reads_strField (by decide) (by omega)
    · exact reads_uintField (by decide) _
    · exact reads_uintField (by decide) _
    · exact reads_uintField (by decide) _
  | resetLua => exact reads_uintField (by decide) _
  | hello => exact reads_uintField (by decide) _
  | kick =>
    rw [hkind] at hw
    exact reads_strField (by decide) hw
  | userVars =>
    simp only [hkind] at hw ⊢
    generalize w.vars = vars at hw ⊢
    induction vars with
    | nil => exact .nil []
    | cons v vars ih =>
      rw [List.flatMap_cons, List.length_append] at hw
      rw [List.flatMap_cons, List.map_cons]
      refine Reads.append (reads_bytesField (by decide) ?_) (ih (by omega))
      exact (length_le_bytesField 1 _).trans_lt (by omega)

/-! ## Taking them up -/

theorem foldl_uintFields {σ : Type} (step : σ → Field → σ) (s : σ) (number : UInt32) (n : UInt64) :
    (uintFields number n).foldl step s = if n = 0 then s else step s ⟨number, .varint n⟩ := by
  unfold uintFields
  split_ifs <;> rfl

theorem foldl_strFields {σ : Type} (step : σ → Field → σ) (s : σ) (number : UInt32) (b : Bytes) :
    (strFields number b).foldl step s = if b = [] then s else step s ⟨number, .bytes b⟩ := by
  unfold strFields
  split_ifs <;> rfl

/-- What the value of a variable adds to it. -/
theorem foldl_valueFields (s : VarState) (hs : s.v = { key := v.key }) :
    (valueFields v).foldl varStep s =
      { s with v := { v.received with module := false, guid := [] } } := by
  obtain ⟨w, lo, hi⟩ := s
  obtain rfl := hs
  unfold valueFields NetUserVar.received
  cases hkind : v.kind
  case double =>
    have hd : LittleEndian.decode (LittleEndian.encode 8 v.d.toNat) = v.d.toNat :=
      LittleEndian.decode_encode_of_lt v.d.toNat_lt
    simp [varStep, hd]
  case bool => cases hb : v.b <;> simp [varStep]
  all_goals simp [varStep]

theorem foldl_varFields (v : NetUserVar) : (varFields v).foldl varStep {} =
    { v := { v.received with guid := [] }, lo := ((parseGuid v.guid).getD (0, 0)).1,
      hi := ((parseGuid v.guid).getD (0, 0)).2 } := by
  have hhalves (guid : UInt64 × UInt64) : (strFields 3 v.key).foldl varStep
      ((uintFields 2 guid.2).foldl varStep ((uintFields 1 guid.1).foldl varStep {})) =
      { v := { key := v.key }, lo := guid.1, hi := guid.2 } := by
    obtain ⟨lo, hi⟩ := guid
    rw [foldl_uintFields, foldl_uintFields, foldl_strFields]
    split_ifs <;> simp_all [varStep]
  unfold varFields
  rw [List.foldl_append, List.foldl_append, List.foldl_append, List.foldl_append, hhalves,
    foldl_valueFields _ rfl, foldl_uintFields]
  cases hmodule : v.module <;> simp [varStep, NetUserVar.received, hmodule]

theorem decodeVar_encodeVar (hv : (encodeVar v).length < 2 ^ 64) :
    decodeVar (encodeVar v) = some v.received := by
  rw [decodeVar_eq_some]
  refine ⟨varFields v, [], reads_varFields hv, next_nil, ?_⟩
  rw [foldl_varFields]
  rfl

theorem toUInt64_eq_zero {n : UInt32} (h : n.toUInt64 = 0) : n = 0 := by
  rw [← UInt32.toUInt32_toUInt64 n, h]
  rfl

/-- The scalars and strings of a `PostLua` message, one after another. -/
theorem foldl_postLua (w : Wrapper) (hkind : w.kind = .postLua) :
    (bodyFields w).foldl bodyStep { kind := .postLua } = w.received := by
  have hchannel : (strFields 1 w.channel).foldl bodyStep { kind := .postLua } =
      { kind := .postLua, channel := w.channel } := by
    rw [foldl_strFields]
    split_ifs with h
    · rw [h]
    · rfl
  have hpayload : (strFields 2 w.payload).foldl bodyStep { kind := .postLua, channel := w.channel } =
      { kind := .postLua, channel := w.channel, payload := w.payload } := by
    rw [foldl_strFields]
    split_ifs with h
    · rw [h]
    · rfl
  have hmodule : (strFields 3 w.module).foldl bodyStep
      { kind := .postLua, channel := w.channel, payload := w.payload } =
      { kind := .postLua, channel := w.channel, payload := w.payload, module := w.module } := by
    rw [foldl_strFields]
    split_ifs with h
    · rw [h]
    · rfl
  -- a number that is zero is not written, and is what the reader starts with
  have hrequest (v : Wrapper) (hv : v.kind = .postLua) (hid : v.requestId = 0) :
      (uintFields 4 w.requestId.toUInt64).foldl bodyStep v = { v with requestId := w.requestId } := by
    rw [foldl_uintFields]
    split_ifs with h
    · rw [toUInt64_eq_zero h, ← hid]
    · simp [bodyStep, hv]
  have hreply (v : Wrapper) (hv : v.kind = .postLua) (hid : v.replyId = 0) :
      (uintFields 5 w.replyId.toUInt64).foldl bodyStep v = { v with replyId := w.replyId } := by
    rw [foldl_uintFields]
    split_ifs with h
    · rw [toUInt64_eq_zero h, ← hid]
    · simp [bodyStep, hv]
  have hbinary (v : Wrapper) (hv : v.kind = .postLua) (hflag : v.binary = false) :
      (uintFields 6 (if w.binary then 1 else 0)).foldl bodyStep v = { v with binary := w.binary } := by
    rw [foldl_uintFields]
    cases hb : w.binary
    · rw [if_pos (show (if false = true then (1 : UInt64) else 0) = 0 from rfl), ← hflag]
    · simp [bodyStep, hv]
  unfold bodyFields Wrapper.received
  simp only [hkind, List.foldl_append, hchannel, hpayload, hmodule]
  rw [hrequest _ rfl rfl, hreply _ rfl rfl, hbinary _ rfl rfl]

theorem foldl_bodyFields (hw : (encodeBody w).length < 2 ^ 64) :
    (bodyFields w).foldl bodyStep { kind := w.kind } = w.received := by
  cases hkind : w.kind with
  | postLua => exact foldl_postLua w hkind
  | resetLua =>
    unfold bodyFields Wrapper.received
    simp only [hkind, foldl_uintFields]
    cases w.bootstrap <;> rfl
  | hello =>
    unfold bodyFields Wrapper.received
    simp only [hkind, foldl_uintFields]
    split_ifs with hzero
    · rw [toUInt64_eq_zero hzero]
    · simp [bodyStep]
  | kick =>
    unfold bodyFields Wrapper.received
    simp only [hkind, foldl_strFields]
    split_ifs with hnil
    · rw [hnil]
    · rfl
  | userVars =>
    unfold bodyFields encodeBody Wrapper.received at *
    simp only [hkind] at hw ⊢
    have hadd (vars : List NetUserVar) (sent : Wrapper) (hsent : sent.kind = .userVars)
        (hsize : (vars.flatMap fun v => bytesField 1 (encodeVar v)).length < 2 ^ 64) :
        (vars.map fun v => (⟨1, .bytes (encodeVar v)⟩ : Field)).foldl bodyStep sent =
          { sent with vars := sent.vars ++ vars.map NetUserVar.received } := by
      induction vars generalizing sent with
      | nil => simp
      | cons v vars ih =>
        rw [List.flatMap_cons, List.length_append] at hsize
        have hv : (encodeVar v).length < 2 ^ 64 :=
          (length_le_bytesField 1 _).trans_lt (by omega)
        have hstep : bodyStep sent ⟨1, .bytes (encodeVar v)⟩ =
            { sent with vars := sent.vars ++ [v.received] } := by
          simp [bodyStep, hsent, decodeVar_encodeVar hv]
        rw [List.map_cons, List.foldl_cons, hstep,
          ih { sent with vars := sent.vars ++ [v.received] } hsent (by omega)]
        simp
    exact hadd w.vars _ rfl hw

theorem decode_encode (hw : (encode w).length < 2 ^ 64) : decode (encode w) = some w.received := by
  have hbody := (length_le_bytesField w.kind.number (encodeBody w)).trans_lt hw
  have hreads : Reads (encode w) [⟨w.kind.number.toUInt32, .bytes (encodeBody w)⟩] [] :=
    reads_bytesField (by cases w.kind <;> decide) hbody
  have hmember : lastMember [⟨w.kind.number.toUInt32, .bytes (encodeBody w)⟩] =
      (some w.kind, encodeBody w) := by
    cases w.kind <;> rfl
  rw [decode_eq_some]
  exact ⟨_, [], w.kind, encodeBody w, _, [], hreads, next_nil, hmember, reads_bodyFields hbody,
    next_nil, (foldl_bodyFields hbody).symm⟩

/-! ## The values that come back -/

/-- A variable came back: its GUID where it is one, all zero where it is none, and all the rest. -/
structure SameVar (v v' : NetUserVar) : Prop where
  module : v'.module = v.module
  key : v'.key = v.key
  kind : v'.kind = v.kind
  bool (h : v.kind = .bool) : v'.b = v.b
  int (h : v.kind = .int) : v'.i = v.i
  double (h : v.kind = .double) : v'.d = v.d
  text (h : v.kind = .string ∨ v.kind = .json ∨ v.kind = .binary) : v'.s = v.s
  guid (h : WellFormed v.guid) : v'.guid = v.guid
  noGuid (h : parseGuid v.guid = none) : v'.guid = zeroGuid

/-- A message came back: its kind, and every field of that kind. -/
structure SameMessage (w w' : Wrapper) : Prop where
  kind : w'.kind = w.kind
  postLua (h : w.kind = .postLua) : w'.channel = w.channel ∧ w'.payload = w.payload ∧
    w'.module = w.module ∧ w'.requestId = w.requestId ∧ w'.replyId = w.replyId ∧
    w'.binary = w.binary
  resetLua (h : w.kind = .resetLua) : w'.bootstrap = w.bootstrap
  hello (h : w.kind = .hello) : w'.version = w.version
  kick (h : w.kind = .kick) : w'.kick = w.kick
  userVars (h : w.kind = .userVars) : List.Forall₂ SameVar w.vars w'.vars

theorem sameVar_received (v : NetUserVar) : SameVar v v.received where
  module := rfl
  key := rfl
  kind := rfl
  bool h := if_pos h
  int h := if_pos h
  double h := if_pos h
  text h := if_pos h
  guid h := receivedGuid_of_wellFormed h
  noGuid h := receivedGuid_of_none h

theorem sameMessage_received (w : Wrapper) : SameMessage w w.received := by
  unfold Wrapper.received
  refine ⟨?_, fun h => ?_, fun h => ?_, fun h => ?_, fun h => ?_, fun h => ?_⟩
  · cases w.kind <;> rfl
  · rw [h]; exact ⟨rfl, rfl, rfl, rfl, rfl, rfl⟩
  · rw [h]
  · rw [h]
  · rw [h]
  · rw [h, List.forall₂_map_right_iff, List.forall₂_same]
    exact fun v _ => sameVar_received v

/-- Every message that fits a string is read back as itself. -/
theorem decode_encode_same (w : Wrapper) (hw : (encode w).length < 2 ^ 64) :
    ∃ w', decode (encode w) = some w' ∧ SameMessage w w' :=
  ⟨w.received, decode_encode hw, sameMessage_received w⟩

/-- A variable with a GUID and one without, and a negative integer. -/
def twoVars : Wrapper where
  kind := .userVars
  vars :=
    [ { guid := bytes "0123abcd-4567-89ef-0011-223344556677", key := bytes "a", kind := .int
        i := 0xffffffffffffffff },
      { module := true, guid := bytes "x", kind := .string } ]

theorem decode_encode_twoVars : ∃ w', decode (encode twoVars) = some w' ∧ SameMessage twoVars w' :=
  decode_encode_same twoVars (by decide +kernel)

end Net
end Bg3le
