import Bg3le.Osiris.Tuple
import Mathlib.Data.List.Forall2
import Mathlib.Tactic.FinCases

/-!
# A tuple that is handed over reads back as it was given

The list is threaded through its own header, whose fields from `Last` on serve as the sentinel:
the store that links the first node writes `First`. What a value reads back as is decided by the
column's base type and by the field of the argument that the encoding takes, so that the field
has to carry the argument's value.
-/

namespace Bg3le
namespace OsirisTuple

open Engine

variable {env : Env} {key : Bytes} {locals : Locals} {frame frame' : Frame} {i n slot : ℕ}
  {declared : UInt16} {arg cleared : Value} {args : List Value} {types : List UInt16}
  {record : TypedValueRec} {records : List TypedValueRec}

/-! ## What an argument is -/

/-- The number that an argument is, as an integer. -/
def Value.asInteger (arg : Value) : Int64 :=
  if arg.type = kReal then Binary64.toInt64 arg.real else arg.integer

/-- The number that an argument is, as a double. -/
def Value.asReal (arg : Value) : UInt64 :=
  if arg.type = kReal then arg.real else Binary64.ofInt64 arg.integer

/-- An argument converted to a base type. -/
def Value.convert (base : UInt16) (arg : Value) : Value :=
  if isString base then { type := kString, text := arg.text }
  else if base = kReal then
    { type := kReal, real := Binary64.ofBinary32 (Binary64.toBinary32 arg.asReal) }
  else if base = kInteger64 then { type := kInteger64, integer := arg.asInteger }
  else { type := kInteger, integer := arg.asInteger.toInt32.toInt64 }

/-- What an argument is to read back as, where `cleared` stands for nil. -/
def returned (env : Env) (cleared : Value) (declared : UInt16) (arg : Value) : Value :=
  if arg.type = kNone then cleared else arg.convert (resolveAlias env.aliases declared)

/-- The node that `First` and so many times `Next` lead to. -/
def Frame.nth (frame : Frame) (list : ℕ) : ℕ → ℕ
  | 0 => frame.word (list + 16)
  | k + 1 => frame.word (frame.nth list k + 8)

/-- A list with the arguments, as the node gets it. -/
structure Hands (env : Env) (cleared : Value) (locals : Locals) (types : List UInt16)
    (args : List Value) (frame : Frame) : Prop where
  values : tupleValues env frame locals.list =
    (types.zip args).map fun p => returned env cleared p.1 p.2
  /-- Nil is a value with no type and without `IsValid`. -/
  nil : ∀ k arg, args[k]? = some arg → arg.type = kNone →
    frame.record (locals.value k) = some { type := kNone, flags := 0x02 }
  count : frame.word (locals.list + 24) = args.length
  ends : frame.nth locals.list args.length = sentinel locals.list
  goesOn : ∀ k < args.length, frame.nth locals.list k ≠ sentinel locals.list

/-- The handle of a string that a call takes a reference to. The empty string has none. -/
def Call.obtained : Call Frame → Option UInt64
  | .addStr _ _ handle => if stringIndex handle = 0 then none else some handle
  | _ => none

def Call.released : Call Frame → Option UInt64
  | .removeStr handle => some handle
  | _ => none

/-- The list that a call hands to a node's function. -/
def Call.handed : Call Frame → Option (ℕ × ℕ × ℕ × Frame)
  | .tuple proc node list frame => some (proc, node, list, frame)
  | _ => none

/-- `encode_arg` takes every argument. -/
def Accepts (env : Env) (key : Bytes) (types : List UInt16) (args : List Value) : Prop :=
  ∀ (k : ℕ) p, (types.zip args)[k]? = some p →
    ∃ record, (encodeArg (M := Frame) env key k p.1 p.2).1 = .ok record

/-- What `insertTuple` owes: the references go back, and where it takes the arguments, the node
gets them. -/
structure Returns (env : Env) (cleared : Value) (locals : Locals) (key : Bytes)
    (args : List Value) (slot : ℕ) (calls : List (Call Frame)) : Prop where
  balanced : calls.filterMap Call.released = calls.filterMap Call.obtained
  handed : ∀ target, tupleTarget env key args slot = .ok target →
    Accepts env key target.types args → ∃ frame,
      calls.filterMap Call.handed = [(target.proc, target.node, locals.list, frame)] ∧
        Hands env cleared locals target.types args frame

/-- The field that the column takes carries the argument's value; nil is what a cleared value
reads as. -/
def Carries (env : Env) (cleared : Value) (declared : UInt16) (arg : Value) : Prop :=
  let base := resolveAlias env.aliases declared
  if arg.type = kNone then cleared = { type := kInteger }
  else if isString base then cStr arg.text = arg.text
  else if base = kReal then
    Binary64.ofBinary32 (Binary64.toBinary32 arg.real) =
      Binary64.ofBinary32 (Binary64.toBinary32 arg.asReal)
  else if base = kInteger64 then arg.integer = arg.asInteger
  else arg.integer.toInt32.toInt64 = arg.asInteger.toInt32.toInt64

/-- The column's type comes down to a base type that is known. -/
structure Known (env : Env) (declared : UInt16) : Prop where
  known : typeKnown env.aliases declared = true
  base : kInteger ≤ resolveAlias env.aliases declared ∧
    resolveAlias env.aliases declared ≤ kGuidString

/-- The story function has columns of known types, and no more than a tuple is read to. -/
def KnownFunction (env : Env) (key : Bytes) : Prop :=
  ∀ function types, env.database key = some (function, types) →
    types.length ≤ kMaxParams ∧ ∀ declared ∈ types, Known env declared.toUInt16

/-- `AddStr` and `GetStr` are inverse on the arguments' texts. -/
def Inverse (env : Env) (args : List Value) : Prop :=
  ∀ arg ∈ args, ∀ addStr, env.addStr = some addStr → poolNow env ≠ none →
    ∀ guid, stringOf env (addStr (cStr arg.text) guid) = some (cStr arg.text)

/-- The locals of a call are apart from each other, and not at the start of the memory. -/
structure Locals.Placed (locals : Locals) (n : ℕ) : Prop where
  list : 0x1000 ≤ locals.list
  nodes : 0x1000 ≤ locals.nodes
  values : 0x1000 ≤ locals.values
  apart : locals.nodes + 24 * n ≤ locals.list ∨ locals.list + 32 ≤ locals.nodes

/-! ## One value -/

/-- A basic type is no alias. -/
theorem resolveFrom_of_le {base : ℕ → UInt16} {type : UInt16} (h : type ≤ kGuidString)
    (steps : ℕ) : resolveFrom base steps type = type := by
  cases steps with
  | zero => rfl
  | succ steps => rw [resolveFrom, if_pos (.inl h)]

theorem resolveAlias_of_le {aliases : Aliases} {type : UInt16} (h : type ≤ kGuidString) :
    resolveAlias aliases type = type := by
  rw [resolveAlias, resolveFrom_of_le h, ite_self]

/-- A cleared value reads as the integer zero. -/
theorem readValue_cleared :
    readValue env { type := kNone, flags := 0x02 } = { type := kInteger } := by
  have hle : kNone ≤ kGuidString := by decide
  have hknown : typeKnown env.aliases kNone = true := by simp [typeKnown, hle]
  simp only [readValue, hknown, resolveAlias_of_le hle]
  rfl

/-- What an argument that is not nil is stored as, read back. -/
def Value.stored (base : UInt16) (arg : Value) : Value :=
  if isString base then { type := kString, text := cStr arg.text }
  else if base = kReal then
    { type := kReal, real := Binary64.ofBinary32 (Binary64.toBinary32 arg.real) }
  else if base = kInteger64 then { type := kInteger64, integer := arg.integer }
  else { type := kInteger, integer := arg.integer.toInt32.toInt64 }

/-- A value is stored as it is converted where its type carries it. -/
theorem stored_eq_convert_iff (hnil : arg.type ≠ kNone) :
    arg.stored (resolveAlias env.aliases declared) =
      arg.convert (resolveAlias env.aliases declared) ↔ Carries env cleared declared arg := by
  simp only [Value.stored, Value.convert, Carries, if_neg hnil]
  split
  · simp
  · split
    · simp
    · split <;> simp

/-- An argument that is not nil and is taken has the kind of its column. -/
theorem encodeArg_ok (hknown : Known env declared) (hnil : arg.type ≠ kNone)
    (hencode : (encodeArg (M := Frame) env key i declared arg).1 = .ok record) :
    if isString (resolveAlias env.aliases declared) then ∃ guid,
      record = { value := (internString (M := Frame) env arg.text guid).1,
                 type := declared, flags := 0x02 ||| 0x08 } ∧
        ((internString (M := Frame) env arg.text guid).1 = 0 → arg.text = [])
    else record =
      { value := if resolveAlias env.aliases declared = kReal then
            (Binary64.toBinary32 arg.real).toUInt64
          else if resolveAlias env.aliases declared = kInteger64 then arg.integer.toUInt64
          else arg.integer.toInt32.toUInt32.toUInt64,
        type := declared, flags := 0x02 ||| 0x08 } := by
  have hbase : baseFor env declared arg = resolveAlias env.aliases declared := by
    simp [baseFor, hknown.known]
  simp only [encodeArg, if_neg hnil, hbase, hknown.known, true_and] at hencode
  split at hencode
  · exact absurd hencode (by simp)
  · split at hencode
    · next hstring =>
      rw [if_pos hstring]
      split at hencode
      · exact absurd hencode (by simp)
      · next hhandle =>
        refine ⟨_, (Except.ok.inj hencode).symm, fun hzero => ?_⟩
        by_contra htext
        exact hhandle ⟨hzero, htext⟩
    · next hnumber =>
      rw [if_neg hnumber]
      exact (Except.ok.inj hencode).symm

theorem encodeArg_nil (h : arg.type = kNone) : encodeArg (M := Frame) env key i declared arg =
    (.ok { type := kNone, flags := 0x02 }, [], []) := by
  simp only [encodeArg, h, if_true]

/-- The empty string has the handle 0, also without a table. -/
theorem stringOf_zero : (stringOf env 0).getD [] = [] := by
  cases hpool : poolNow env with
  | none => simp [stringOf, hpool]
  | some pool => simp [stringOf, hpool, stringIndex]

/-- A text that is interned reads back up to its NUL. -/
theorem stringOf_internString {text : Bytes} {guid : Bool} (hinverse : ∀ addStr,
      env.addStr = some addStr → poolNow env ≠ none →
        ∀ guid, stringOf env (addStr (cStr text) guid) = some (cStr text))
    (hempty : (internString (M := Frame) env text guid).1 = 0 → text = []) :
    (stringOf env (internString (M := Frame) env text guid).1).getD [] = cStr text := by
  have hnone (h : (internString (M := Frame) env text guid).1 = 0) :
      (stringOf env (internString (M := Frame) env text guid).1).getD [] = cStr text := by
    rw [h, stringOf_zero, hempty h]
    rfl
  cases hpool : poolNow env with
  | none => exact hnone (by simp [internString, hpool])
  | some pool =>
    cases hadd : env.addStr with
    | none => exact hnone (by simp [internString, hpool, hadd])
    | some addStr =>
      have hheld := hinverse addStr hadd (by simp [hpool]) guid
      simp only [internString, hpool, hadd, hheld, Option.getD_some]

/-- A value that was encoded is read as its converted one. -/
theorem readValue_encoded (hknown : Known env declared) (hinverse : ∀ addStr,
      env.addStr = some addStr → poolNow env ≠ none →
        ∀ guid, stringOf env (addStr (cStr arg.text) guid) = some (cStr arg.text))
    (hnil : arg.type ≠ kNone)
    (hencode : (encodeArg (M := Frame) env key i declared arg).1 = .ok record) :
    readValue env record = arg.stored (resolveAlias env.aliases declared) := by
  have hok := encodeArg_ok hknown hnil hencode
  by_cases hstring : isString (resolveAlias env.aliases declared) = true
  · rw [if_pos hstring] at hok
    obtain ⟨guid, rfl, hempty⟩ := hok
    simp only [readValue, hknown.known, hstring, Value.stored, Bool.not_true, Bool.false_eq_true,
      if_false, if_true]
    rw [stringOf_internString hinverse hempty]
  · rw [if_neg hstring] at hok
    subst hok
    simp only [readValue, hknown.known, hstring, Value.stored, Bool.not_true, Bool.false_eq_true,
      if_false]
    split
    · simp
    · split
      · simp
      · simp [lowInteger]

/-! ## References -/

/-- What is kept of an argument is what is to be released of it. -/
structure Balances (env : Env) (interned : List UInt64) (calls : List (Call Frame)) : Prop where
  released : (interned.flatMap (releaseString env)).filterMap Call.released =
    calls.filterMap Call.obtained
  only : ∀ call ∈ calls, call.released = none ∧ call.handed = none

theorem Balances.nil : Balances env [] [] := ⟨rfl, fun _ h => absurd h List.not_mem_nil⟩

/-- Calls that give back what they took do so together. -/
theorem Balances.append {interned interned' : List UInt64} {calls calls' : List (Call Frame)}
    (h : Balances env interned calls) (h' : Balances env interned' calls') :
    Balances env (interned ++ interned') (calls ++ calls') := by
  refine ⟨?_, fun call hcall => ?_⟩
  · rw [List.flatMap_append, List.filterMap_append, List.filterMap_append, h.released, h'.released]
  · cases List.mem_append.mp hcall with
    | inl hcall => exact h.only call hcall
    | inr hcall => exact h'.only call hcall

/-- An interned text is to be given back. -/
theorem internString_balances (hremove : env.removeStr = true) (text : Bytes) (guid : Bool) :
    Balances env (if (internString (M := Frame) env text guid).1 = 0 then []
        else [(internString (M := Frame) env text guid).1])
      (internString (M := Frame) env text guid).2 := by
  cases hpool : poolNow env with
  | none =>
    simp only [internString, hpool, if_true]
    exact .nil
  | some pool =>
    have htable : env.tableNow ≠ 0 := by
      intro hzero
      simp [poolNow, hzero] at hpool
    cases hadd : env.addStr with
    | none =>
      simp only [internString, hpool, hadd, if_true]
      exact .nil
    | some addStr =>
      simp only [internString, hpool, hadd]
      generalize addStr (cStr text) guid = handle
      refine ⟨?_, fun call hcall => ?_⟩
      · by_cases hindex : stringIndex handle = 0
        · have hrelease : releaseString (M := Frame) env handle = [] := by
            rw [releaseString, if_pos (.inr hindex)]
          split <;> simp [hrelease, hindex, Call.obtained]
        · have hhandle : handle ≠ 0 := by
            intro hzero
            exact hindex (by rw [hzero]; rfl)
          simp [hhandle, hindex, htable, hremove, releaseString, Call.obtained, Call.released]
      · rw [List.mem_singleton.mp hcall]
        exact ⟨rfl, rfl⟩

/-- So is what an argument interns. -/
theorem encodeArg_balances (hremove : env.removeStr = true) (key : Bytes) (i : ℕ)
    (declared : UInt16) (arg : Value) :
    Balances env (encodeArg (M := Frame) env key i declared arg).2.1
      (encodeArg (M := Frame) env key i declared arg).2.2 := by
  simp only [encodeArg]
  split
  · exact .nil
  · split
    · exact .nil
    · split
      · have hbalances :=
          internString_balances hremove arg.text (baseFor env declared arg == kGuidString)
        split
        · next hfailed =>
          rw [if_pos hfailed.1] at hbalances
          exact hbalances
        · exact hbalances
      · exact .nil

/-- So is what all arguments intern. -/
theorem fillFrom_balances (hremove : env.removeStr = true) (key : Bytes) (locals : Locals) (i : ℕ)
    (pairs : List (UInt16 × Value)) (frame : Frame) :
    Balances env (fillFrom env key locals i pairs frame).interned
      (fillFrom env key locals i pairs frame).calls := by
  induction pairs generalizing i frame with
  | nil => exact .nil
  | cons pair rest ih =>
    have hfirst := encodeArg_balances hremove key i pair.1 pair.2
    simp only [fillFrom]
    cases hencoded : (encodeArg (M := Frame) env key i pair.1 pair.2).1 with
    | error why => exact hfirst
    | ok record => exact hfirst.append (ih _ _)

/-! ## The list -/

/-- What the `i`th node's predecessor is. -/
def Locals.prev (locals : Locals) : ℕ → ℕ
  | 0 => sentinel locals.list
  | i + 1 => locals.node i

/-- The list has the records so far: `Next` of each predecessor is the node, also where that is
the sentinel and its `Next` is the list's `First`. -/
structure Built (locals : Locals) (frame : Frame) (records : List TypedValueRec) : Prop where
  count : frame.word (locals.list + 24) = records.length
  last : frame.word (locals.list + 8) = locals.prev records.length
  next : ∀ k ≤ records.length, frame.word (locals.prev k + 8) =
    if k < records.length then locals.node k else sentinel locals.list
  item : ∀ k < records.length, frame.word (locals.node k + 16) = locals.value k
  record : ∀ k < records.length, frame.record (locals.value k) = records[k]?

/-- The frame begins with an empty list. -/
theorem built_init (locals : Locals) (frame : Frame) (vtable : ℕ) :
    Built locals (frame.init locals.list vtable) [] := by
  refine ⟨?_, ?_, fun k hk => ?_, fun k hk => absurd hk (Nat.not_lt_zero k),
    fun k hk => absurd hk (Nat.not_lt_zero k)⟩
  · simp [Frame.init, Frame.store]
  · simp [Frame.init, Frame.store, Locals.prev]
  · have hzero : k = 0 := by simpa using hk
    subst hzero
    simp [Frame.init, Frame.store, Locals.prev, sentinel]

theorem Frame.store_word (frame : Frame) (addr value at' : ℕ) :
    (frame.store addr value).word at' = if at' = addr then value else frame.word at' := by
  simp only [Frame.store, Function.update_apply]

@[simp] theorem Frame.store_record (frame : Frame) (addr value : ℕ) :
    (frame.store addr value).record = frame.record := rfl

@[simp] theorem Frame.append_record (frame : Frame) (list node value : ℕ) :
    (frame.append list node value).record = frame.record := rfl

/-- What `append` leaves in the words, the last store first. -/
theorem Frame.append_word {list node prev : ℕ} (value : ℕ) (hprev : frame.word (list + 8) = prev)
    (hapart : node + 24 ≤ list ∨ list + 32 ≤ node) (hcount : prev + 8 ≠ list + 24) (addr : ℕ) :
    (frame.append list node value).word addr =
      if addr = list + 24 then frame.word (list + 24) + 1
      else if addr = list + 8 then node
      else if addr = prev + 8 then node
      else if addr = node then prev
      else if addr = node + 8 then sentinel list
      else if addr = node + 16 then value
      else frame.word addr := by
  have h8 : list + 8 ≠ node + 8 ∧ list + 8 ≠ node + 16 ∧ list + 8 ≠ node := by omega
  have h24 : list + 24 ≠ node + 8 ∧ list + 24 ≠ node + 16 ∧ list + 24 ≠ node := by omega
  have hlist : list + 24 ≠ list + 8 := by omega
  simp only [Frame.append, Frame.store_word, h8.1, h8.2.1, h8.2.2, h24.1, h24.2.1, h24.2.2, hlist,
    hcount.symm, if_false, hprev]
  split
  · rfl
  · split
    · rfl
    · split
      · rfl
      · split
        · rfl
        · split
          · rfl
          · rfl

/-- A predecessor is the sentinel or the node before. -/
theorem prev_cases (locals : Locals) (k : ℕ) :
    (k = 0 ∧ locals.prev k = locals.list + 8) ∨
      (0 < k ∧ locals.prev k + 24 = locals.nodes + 24 * k) := by
  cases k with
  | zero => exact .inl ⟨rfl, rfl⟩
  | succ j =>
    refine .inr ⟨Nat.succ_pos j, ?_⟩
    show locals.nodes + 24 * j + 24 = locals.nodes + 24 * (j + 1)
    omega

/-- A record is appended to the list. -/
theorem Built.append (h : Built locals frame records) (hplaced : locals.Placed n)
    (hroom : records.length < n) (new : TypedValueRec) (frame' : Frame)
    (hword : frame'.word = frame.word) (hrecord : frame'.record =
      Function.update frame.record (locals.value records.length) (some new)) :
    Built locals (frame'.append locals.list (locals.node records.length)
      (locals.value records.length)) (records ++ [new]) := by
  have hapart := hplaced.apart
  have hnodes (k : ℕ) : locals.node k = locals.nodes + 24 * k := rfl
  have hnew := hnodes records.length
  have hnode : locals.node records.length + 24 ≤ locals.list ∨
      locals.list + 32 ≤ locals.node records.length := by omega
  have hprev : frame'.word (locals.list + 8) = locals.prev records.length := by
    rw [hword, h.last]
  have hprevs := prev_cases locals records.length
  have hcount : locals.prev records.length + 8 ≠ locals.list + 24 := by omega
  have hwords := Frame.append_word (locals.value records.length) hprev hnode hcount
  refine ⟨?_, ?_, fun k hk => ?_, fun k hk => ?_, fun k hk => ?_⟩
  · rw [hwords, if_pos rfl, hword, h.count, List.length_append, List.length_singleton]
  · rw [hwords, if_neg (by omega), if_pos rfl, List.length_append, List.length_singleton]
    rfl
  · rw [List.length_append, List.length_singleton] at hk ⊢
    have hprevk := prev_cases locals k
    rw [hwords, if_neg (by omega), if_neg (by omega)]
    by_cases hlt : k < records.length
    · -- what a predecessor before it has for `Next` stays
      rw [if_neg (by omega), if_neg (by omega), if_neg (by omega), if_neg (by omega), hword,
        h.next k (by omega), if_pos hlt, if_pos (by omega)]
    · by_cases heq : k = records.length
      · rw [if_pos (by rw [heq]), if_pos (by omega), heq]
      · rw [if_neg (by omega), if_neg (by omega), if_pos (by omega), if_neg (by omega)]
  · rw [List.length_append, List.length_singleton] at hk
    have hitem := h.item k
    have hold := hnodes k
    rw [hwords, if_neg (by omega), if_neg (by omega), if_neg (by omega), if_neg (by omega),
      if_neg (by omega)]
    by_cases hlt : k < records.length
    · rw [if_neg (by omega), hword, hitem hlt]
    · have heq : k = records.length := by omega
      rw [heq, if_pos rfl]
  · rw [List.length_append, List.length_singleton] at hk
    rw [Frame.append_record, hrecord]
    by_cases hlast : k = records.length
    · subst hlast
      simp
    · have hlt : k < records.length := by omega
      have hne : locals.value k ≠ locals.value records.length := by
        simp only [Locals.value]
        omega
      rw [Function.update_of_ne hne, h.record k hlt, List.getElem?_append_left hlt]

/-- `Next` leads from node to node and to the sentinel. -/
theorem Built.nth (h : Built locals frame records) {k : ℕ} (hk : k ≤ records.length) :
    frame.nth locals.list k =
      if k < records.length then locals.node k else sentinel locals.list := by
  have hnext := h.next k hk
  induction k with
  | zero => exact hnext
  | succ k ih =>
    have hbefore := ih (by omega) (h.next k (by omega))
    rw [if_pos (by omega)] at hbefore
    rw [Frame.nth, hbefore]
    exact hnext

theorem Locals.Placed.node_ne_sentinel (hplaced : locals.Placed n) {k : ℕ} (hk : k < n) :
    locals.node k ≠ sentinel locals.list := by
  have hapart := hplaced.apart
  simp only [Locals.node, sentinel]
  omega

/-- What is read of a list is its records, as many as are read. -/
theorem Built.tupleValuesFrom (h : Built locals frame records) (hplaced : locals.Placed n)
    (hroom : records.length ≤ n) {turns k : ℕ} (hk : k ≤ records.length)
    (hturns : records.length ≤ k + turns) :
    tupleValuesFrom env frame locals.list turns (frame.word (locals.prev k + 8)) =
      (records.drop k).map (readValue env) := by
  induction turns generalizing k with
  | zero =>
    rw [List.drop_of_length_le (by omega)]
    rfl
  | succ turns ih =>
    rw [h.next k hk]
    by_cases hlt : k < records.length
    · have hnode := hplaced.nodes
      have hvalue := hplaced.values
      have hsentinel := hplaced.node_ne_sentinel (show k < n by omega)
      have hzero : locals.node k ≠ 0 := by
        simp only [Locals.node]
        omega
      have hreadable : 0x1000 ≤ locals.value k := by
        simp only [Locals.value]
        omega
      have hnext : frame.word (locals.node k + 8) = frame.word (locals.prev (k + 1) + 8) := rfl
      rw [if_pos hlt, OsirisTuple.tupleValuesFrom, if_neg (not_or.mpr ⟨hzero, hsentinel⟩)]
      simp only [h.item k hlt, h.record k hlt, List.getElem?_eq_getElem hlt, hnext,
        Option.filter_some, hreadable, decide_true, if_true]
      rw [ih (by omega) (by omega), List.drop_eq_getElem_cons hlt, List.map_cons]
    · rw [if_neg hlt, List.drop_of_length_le (by omega)]
      simp only [OsirisTuple.tupleValuesFrom, or_true, if_true, List.map_nil]

/-- The list is walked record by record. -/
theorem Built.tupleValues (h : Built locals frame records) (hplaced : locals.Placed n)
    (hroom : records.length ≤ n) (hlength : records.length ≤ kMaxParams) :
    tupleValues env frame locals.list = records.map (readValue env) := by
  have hlist := hplaced.list
  rw [OsirisTuple.tupleValues, if_neg (by omega)]
  exact h.tupleValuesFrom hplaced hroom (Nat.zero_le _) (by omega)

/-! ## The loop -/

/-- A record is what `encode_arg` makes of a column and its argument. -/
def Encodes (env : Env) (key : Bytes) (p : UInt16 × Value) (record : TypedValueRec) : Prop :=
  ∃ i, (encodeArg (M := Frame) env key i p.1 p.2).1 = .ok record

/-- Where every argument is taken, the list is built from the records of all. -/
theorem fillFrom_ok (hplaced : locals.Placed n) (pairs : List (UInt16 × Value))
    (h : Built locals frame records) (hroom : records.length + pairs.length ≤ n)
    (haccepts : ∀ (k : ℕ) p, pairs[k]? = some p → ∃ record,
      (encodeArg (M := Frame) env key (records.length + k) p.1 p.2).1 = .ok record) :
    ∃ frame' new, (fillFrom env key locals records.length pairs frame).result = .ok frame' ∧
      Built locals frame' (records ++ new) ∧ List.Forall₂ (Encodes env key) pairs new := by
  induction pairs generalizing frame records with
  | nil => exact ⟨frame, [], rfl, by rwa [List.append_nil], .nil⟩
  | cons pair rest ih =>
    rw [List.length_cons] at hroom
    obtain ⟨record, hrecord⟩ := haccepts 0 pair rfl
    rw [Nat.add_zero] at hrecord
    have happended := h.append hplaced (by omega) record ⟨frame.word,
      Function.update frame.record (locals.value records.length) (some record)⟩ rfl rfl
    have hlength : (records ++ [record]).length = records.length + 1 := by simp
    have hrest := ih happended (by rw [hlength]; omega) fun k p hp => by
      have hk : records.length + 1 + k = records.length + (k + 1) := by omega
      rw [hlength, hk]
      exact haccepts (k + 1) p hp
    obtain ⟨frame', new, hresult, hbuilt, hnew⟩ := hrest
    refine ⟨frame', record :: new, ?_, ?_, .cons ⟨_, hrecord⟩ hnew⟩
    · rw [hlength] at hresult
      simp only [fillFrom, hrecord, hresult]
    · rwa [List.append_assoc] at hbuilt

/-- All values are read as given where each one is. -/
theorem map_eq_map_iff {pairs : List (UInt16 × Value)}
    (h : List.Forall₂ (Encodes env key) pairs records)
    {f : UInt16 × Value → Value} {g : TypedValueRec → Value} {C : UInt16 × Value → Prop}
    (hiff : ∀ p ∈ pairs, ∀ record, Encodes env key p record → (g record = f p ↔ C p)) :
    records.map g = pairs.map f ↔ ∀ p ∈ pairs, C p := by
  induction h with
  | nil => simp
  | @cons p record pairs records hp _ ih =>
    have hfirst := hiff p List.mem_cons_self record hp
    have hrest := ih fun q hq => hiff q (List.mem_cons_of_mem p hq)
    rw [List.map_cons, List.map_cons, List.cons.injEq, hfirst, hrest, List.forall_mem_cons]

theorem exists_of_getElem? {pairs : List (UInt16 × Value)} {p : UInt16 × Value} {k : ℕ}
    (h : List.Forall₂ (Encodes env key) pairs records) (hp : pairs[k]? = some p) :
    ∃ record, records[k]? = some record ∧ Encodes env key p record := by
  induction h generalizing k with
  | nil => exact absurd hp (by simp)
  | @cons q record pairs records hq _ ih =>
    cases k with
    | zero =>
      have hqp : q = p := Option.some.inj hp
      exact ⟨record, rfl, hqp ▸ hq⟩
    | succ k => exact ih hp

/-- A value reads back as it is to just if its field carries it. -/
theorem readValue_eq_returned_iff (hknown : Known env declared) (hinverse : ∀ addStr,
      env.addStr = some addStr → poolNow env ≠ none →
        ∀ guid, stringOf env (addStr (cStr arg.text) guid) = some (cStr arg.text))
    (hencodes : Encodes env key (declared, arg) record) :
    readValue env record = returned env cleared declared arg ↔
      Carries env cleared declared arg := by
  obtain ⟨i, hencode⟩ := hencodes
  by_cases hnil : arg.type = kNone
  · rw [encodeArg_nil hnil] at hencode
    rw [← Except.ok.inj hencode, readValue_cleared]
    simp only [returned, Carries, hnil, if_true]
    exact eq_comm
  · rw [readValue_encoded hknown hinverse hnil hencode, returned, if_neg hnil]
    exact stored_eq_convert_iff hnil

/-- A tuple goes only to a function that has as many columns. -/
theorem tupleTarget_ok {target : Target} (h : tupleTarget env key args slot = .ok target) :
    ∃ function types, env.database key = some (function, types) ∧ types.length = args.length ∧
      target.types = types.map UInt8.toUInt16 := by
  have herror {why : Bytes} {P : Prop} (h : Except.error why = Except.ok target) : P :=
    absurd h (by simp)
  simp only [tupleTarget] at h
  split at h
  · exact herror h
  · split at h
    · exact herror h
    · split at h
      · exact herror h
      · exact herror h
      · next function types _ hentry =>
        split at h
        · exact herror h
        · next hlength =>
          refine ⟨function, types, hentry, not_not.mp hlength, ?_⟩
          split at h
          · exact herror h
          · split at h
            · exact herror h
            · split at h
              · exact herror h
              · split at h
                · exact herror h
                · split at h
                  · exact herror h
                  · rw [← Except.ok.inj h]

/-- Giving back hands nothing out. -/
theorem filterMap_release (env : Env) (handles : List UInt64) :
    (handles.flatMap (releaseString (M := Frame) env)).filterMap Call.handed = [] ∧
      (handles.flatMap (releaseString (M := Frame) env)).filterMap Call.obtained = [] := by
  have hcalls : ∀ call ∈ handles.flatMap (releaseString (M := Frame) env),
      call.handed = none ∧ call.obtained = none := by
    intro call hcall
    obtain ⟨handle, _, hcall⟩ := List.mem_flatMap.mp hcall
    simp only [releaseString] at hcall
    split at hcall
    · exact absurd hcall List.not_mem_nil
    · split at hcall
      · rw [List.mem_singleton.mp hcall]
        exact ⟨rfl, rfl⟩
      · exact absurd hcall List.not_mem_nil
  exact ⟨List.filterMap_eq_nil_iff.mpr fun call hcall => (hcalls call hcall).1,
    List.filterMap_eq_nil_iff.mpr fun call hcall => (hcalls call hcall).2⟩

/-- Interning gives nothing back. -/
theorem Balances.filterMap {interned : List UInt64} {calls : List (Call Frame)}
    (h : Balances env interned calls) :
    calls.filterMap Call.released = [] ∧ calls.filterMap Call.handed = [] :=
  ⟨List.filterMap_eq_nil_iff.mpr fun call hcall => (h.only call hcall).1,
    List.filterMap_eq_nil_iff.mpr fun call hcall => (h.only call hcall).2⟩

/-- The references go back whatever becomes of the tuple. -/
theorem insertTuple_balanced (hremove : env.removeStr = true) :
    (insertTuple env locals frame key args slot).2.filterMap Call.released =
      (insertTuple env locals frame key args slot).2.filterMap Call.obtained := by
  simp only [insertTuple]
  cases htarget : tupleTarget env key args slot with
  | error why => rfl
  | ok target =>
    have hbalances := fillFrom_balances hremove key locals 0 (target.types.zip args)
      (frame.init locals.list env.tupleVtable)
    simp only
    generalize fillFrom env key locals 0 (target.types.zip args)
      (frame.init locals.list env.tupleVtable) = filled at hbalances ⊢
    have hfilled := hbalances.filterMap
    have hreleases := filterMap_release env filled.interned
    cases hresult : filled.result with
    | error why =>
      simp only [List.filterMap_append, hfilled.1, hreleases.2, List.nil_append, List.append_nil]
      exact hbalances.released
    | ok frame' =>
      simp only [List.filterMap_append, hfilled.1, hreleases.2, List.append_nil, List.nil_append,
        List.filterMap_cons, List.filterMap_nil, Call.released, Call.obtained]
      exact hbalances.released

/-- Where every argument is taken, the node gets a list of their records. -/
theorem insertTuple_handed {target : Target} (frame : Frame) (hplaced : locals.Placed args.length)
    (hremove : env.removeStr = true) (htarget : tupleTarget env key args slot = .ok target)
    (haccepts : Accepts env key target.types args) :
    ∃ frame' records,
      (insertTuple env locals frame key args slot).2.filterMap Call.handed =
        [(target.proc, target.node, locals.list, frame')] ∧
      Built locals frame' records ∧
      List.Forall₂ (Encodes env key) (target.types.zip args) records := by
  have hroom : (target.types.zip args).length ≤ args.length := by
    rw [List.length_zip]
    omega
  have hinit := built_init locals frame env.tupleVtable
  obtain ⟨frame', records, hresult, hbuilt, hencodes⟩ :=
    fillFrom_ok hplaced (target.types.zip args) hinit (by rwa [List.length_nil, Nat.zero_add])
      fun k p hp => by
        rw [List.length_nil, Nat.zero_add]
        exact haccepts k p hp
  have hbalances := fillFrom_balances hremove key locals 0 (target.types.zip args)
    (frame.init locals.list env.tupleVtable)
  have hreleases := filterMap_release env
    (fillFrom env key locals 0 (target.types.zip args)
      (frame.init locals.list env.tupleVtable)).interned
  refine ⟨frame', records, ?_, by simpa using hbuilt, hencodes⟩
  rw [List.length_nil] at hresult
  simp only [insertTuple, htarget, hresult, List.filterMap_append, hbalances.filterMap.2,
    hreleases.1, List.nil_append, List.append_nil, List.filterMap_cons, List.filterMap_nil,
    Call.handed]

/-- There is a record for each argument. -/
theorem encodes_length {pairs : List (UInt16 × Value)}
    (h : List.Forall₂ (Encodes env key) pairs records) : records.length = pairs.length :=
  h.length_eq.symm

/-- A list of the arguments' records reads back as it is to just if every field carries its
argument. -/
theorem hands_iff {types : List UInt16} (hplaced : locals.Placed args.length)
    (hlength : types.length = args.length) (hmax : types.length ≤ kMaxParams)
    (hknown : ∀ declared ∈ types, Known env declared) (hinverse : Inverse env args)
    (hbuilt : Built locals frame records)
    (hencodes : List.Forall₂ (Encodes env key) (types.zip args) records) :
    Hands env cleared locals types args frame ↔
      ∀ p ∈ types.zip args, Carries env cleared p.1 p.2 := by
  have hrecords : records.length = args.length := by
    rw [encodes_length hencodes, List.length_zip, hlength]
    omega
  have hvalues : tupleValues env frame locals.list = records.map (readValue env) :=
    hbuilt.tupleValues hplaced (by omega) (by omega)
  have hiff := map_eq_map_iff hencodes (f := fun p => returned env cleared p.1 p.2)
    (g := readValue env) (C := fun p => Carries env cleared p.1 p.2) fun p hp record hencode =>
      have hmem := List.of_mem_zip hp
      readValue_eq_returned_iff (hknown p.1 hmem.1) (hinverse p.2 hmem.2) hencode
  constructor
  · intro h
    have hsame := h.values
    rw [hvalues] at hsame
    exact hiff.mp hsame
  · intro h
    refine ⟨hvalues.trans (hiff.mpr h), fun k arg harg hnil => ?_, ?_, ?_, fun k hk => ?_⟩
    · have hk : k < args.length := (List.getElem?_eq_some_iff.mp harg).1
      have hpair : (types.zip args)[k]? = some (types[k], arg) := by
        simp [List.getElem?_zip_eq_some, harg]
      obtain ⟨record, hrecord, i, hencode⟩ := exists_of_getElem? hencodes hpair
      rw [encodeArg_nil hnil] at hencode
      rw [hbuilt.record k (by omega), hrecord, Except.ok.inj hencode]
    · rw [hbuilt.count, hrecords]
    · rw [hbuilt.nth (by omega), if_neg (by omega)]
    · rw [hbuilt.nth (by omega), if_pos (by omega)]
      exact hplaced.node_ne_sentinel hk

/-- The words of a process with a node, its class, and a string table that has one string. -/
def sampleWord (addr : ℕ) : ℕ :=
  if addr = 0x10000 then 0x11000
  else if addr = 0x11068 then 0x12000
  else if addr = 0x13000 then 0x14000
  else if addr = 0x14028 then 0x15000
  else if addr = 0x14030 then 0x15800
  else if addr = 0x15020 then 0x16000
  else if addr = 0x16000 then 0x6968
  else 0

def sampleEnv : Env where
  mapping := fun addr => some (UInt8.ofNat (sampleWord (addr / 8 * 8) / 256 ^ (addr % 8)))
  aliases := ⟨false, fun _ => 0⟩
  tableNow := 0x13000
  addStr := some fun text _ => if text = [] then 0 else 0x200001
  removeStr := true
  bindDefs := true
  findStringTable := true
  database := fun key =>
    if key = bytes "PROC_Say/3" then some (0x17000, [1, 4, 3])
    else if key = bytes "DB_Speed/1" then some (0x17000, [3])
    else none
  nodeFor := fun _ => 0x10000
  classOf := fun _ => bytes "9CReteFact"
  tupleSlotsOk := true
  plausibleMethod := fun _ => true
  tupleVtable := 0x18000

def sampleLocals : Locals := ⟨0x20000, 0x21000, 0x22000⟩

def sampleFrame : Frame := ⟨fun _ => 0, fun _ => none⟩

/-- The types of the function are known. -/
theorem sampleEnv_known (key : Bytes) : KnownFunction sampleEnv key := by
  intro function types hentry
  simp only [sampleEnv] at hentry
  split at hentry
  · obtain ⟨rfl, rfl⟩ := Prod.mk.inj (Option.some.inj hentry)
    refine ⟨by decide, fun declared hdeclared => ?_⟩
    fin_cases hdeclared <;> exact ⟨by decide, by decide, by decide⟩
  · split at hentry
    · obtain ⟨rfl, rfl⟩ := Prod.mk.inj (Option.some.inj hentry)
      refine ⟨by decide, fun declared hdeclared => ?_⟩
      fin_cases hdeclared
      exact ⟨by decide, by decide, by decide⟩
    · exact absurd hentry (by simp)

/-- The number 7, a string, and nil. -/
def sayArgs : List Value :=
  [{ type := kInteger, integer := 7 }, { type := kString, text := bytes "hi" }, {}]

/-- The texts of the arguments read back. -/
theorem sayArgs_inverse : Inverse sampleEnv sayArgs := by
  intro arg harg addStr hadd _ guid
  rw [← Option.some.inj hadd]
  have hhi : stringOf sampleEnv 0x200001 = some (bytes "hi") := by decide +kernel
  have hempty : stringOf sampleEnv 0 = some [] := by decide +kernel
  fin_cases harg
  · exact hempty
  · exact hhi
  · exact hempty

end OsirisTuple
end Bg3le
