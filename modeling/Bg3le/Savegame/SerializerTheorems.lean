import Bg3le.Savegame.Serializer

/-!
# What a rewritten save gives back

A variable read from a save, written by the fallback and read again is the same variable, unless
it is of type 6: nothing is visited for its value when writing, so the next read drops it.
-/

namespace Bg3le
namespace Savegame

variable {longest : ℕ}

/-! ## Strings -/

theorem cStr_eq_self {text : Bytes} (h : 0 ∉ text) : cStr text = text := by
  rw [cStr, List.takeWhile_eq_self_iff]
  intro c hc
  simpa using ne_of_mem_of_not_mem hc h

/-- The text of a FixedString interns to one of the same text. -/
theorem fixedStringText_intern (id : StringId longest) :
    fixedStringText (intern longest (fixedStringText id)) = fixedStringText id := by
  cases id with
  | none => simp [fixedStringText, intern, cStr]
  | some s =>
    simp [fixedStringText, intern, cStr_eq_self s.nul_free, s.fits]

theorem readRaw_makeRaw {text : Bytes} (h : text.length < 2 ^ 32) : readRaw (makeRaw text) = text := by
  unfold makeRaw
  split_ifs with hinline
  · have hlast : (UInt8.ofNat text.length).toNat % 16 = text.length := by
      rw [UInt8.toNat_ofNat']
      omega
    rw [readRaw, hlast, List.take_length]
  · rw [readRaw, UInt32.toNat_ofNat_of_lt' h, List.take_length]

theorem length_readRaw_lt (raw : RawString) : (readRaw raw).length < 2 ^ 32 := by
  cases raw with
  | inline bytes last =>
    have := List.length_take_le (last.toNat % 16) bytes
    simp only [readRaw]
    omega
  | buffer data size =>
    have := List.length_take_le size.toNat data
    have := size.toNat_lt
    simp only [readRaw]
    omega

@[simp] theorem readRaw_makeRaw_readRaw (raw : RawString) :
    readRaw (makeRaw (readRaw raw)) = readRaw raw :=
  readRaw_makeRaw (length_readRaw_lt raw)

/-! ## GUIDs -/

theorem hexChar_ne_zero : ∀ n < 16, Guid.hexChar n ≠ 0 := by decide

theorem not_mem_digits (guid : Guid) (places : List (Fin 16)) : 0 ∉ guid.digits places := by
  intro h
  obtain ⟨i, -, hi⟩ := List.mem_flatMap.mp h
  have := (guid.bytes i).toNat_lt
  rcases List.mem_pair.mp hi with hi | hi
  · exact hexChar_ne_zero _ (by omega) hi.symm
  · exact hexChar_ne_zero _ (by omega) hi.symm

/-- The text of a GUID is read as that GUID. -/
theorem guidBytes_guidText (guid : Guid) : guidBytes (guidText guid) = some guid := by
  have h : 0 ∉ guid.toString := by simp [Guid.toString, not_mem_digits]
  rw [guidBytes, guidText, cStr_eq_self h, Guid.parseGuidString_toString]

/-! ## Variables -/

/-- The variables a read can give: each type sets the member its value is in and no other. -/
inductive Readable (longest : ℕ) : SavedVariable → Prop
  | int (owner : Bytes) (name : StringId longest) (int : Int64) :
    Readable longest { owner, name := fixedStringText name, type := 1, int }
  | double (owner : Bytes) (name : StringId longest) (num : UInt64) :
    Readable longest { owner, name := fixedStringText name, type := 2, num }
  | string (owner : Bytes) (name value : StringId longest) :
    Readable longest
      { owner, name := fixedStringText name, type := 3, str := fixedStringText value }
  | composite (owner : Bytes) (name : StringId longest) (raw : RawString) :
    Readable longest { owner, name := fixedStringText name, type := 4, str := readRaw raw }
  | boolean (owner : Bytes) (name : StringId longest) (bool : Bool) :
    Readable longest { owner, name := fixedStringText name, type := 5, bool }
  | binary (owner : Bytes) (name : StringId longest) (str : Bytes) :
    Readable longest { owner, name := fixedStringText name, type := 6, str }
  | other (owner : Bytes) (name : StringId longest) (type : UInt8) (h : 6 < type.toNat) :
    Readable longest { owner, name := fixedStringText name, type }

theorem readVariable_owner (owner : Bytes) (node : Node longest) :
    (readVariable owner node).owner = owner := by
  unfold readVariable readValue
  dsimp only
  split
  all_goals try rfl
  split <;> rfl

/-- A type past 6 has no value to read. -/
theorem readValue_of_other {node : Node longest} {var : SavedVariable}
    (h : 6 < (node.visitUInt8 .type 0).toNat) :
    readValue node var = { var with type := node.visitUInt8 .type 0 } := by
  unfold readValue
  dsimp only
  split
  all_goals first
    | rfl
    | omega

/-- Every variable that is read and not dropped is one of these. -/
theorem readable_readVariable {owner : Bytes} {node : Node longest}
    (h : (readVariable owner node).type ≠ 0) : Readable longest (readVariable owner node) := by
  by_cases hother : 6 < (node.visitUInt8 .type 0).toNat
  · rw [readVariable, readValue_of_other hother]
    exact .other _ _ _ hother
  have hof : ∀ {n : ℕ}, (node.visitUInt8 .type 0).toNat = n →
      node.visitUInt8 .type 0 = UInt8.ofNat n := fun hn => by rw [← hn, UInt8.ofNat_toNat]
  unfold readVariable readValue at h ⊢
  dsimp only at h ⊢
  split at h
  next ht => rw [hof ht]; exact .boolean _ _ _
  next ht => rw [hof ht]; exact .int _ _ _
  next ht => rw [hof ht]; exact .double _ _ _
  next ht => rw [hof ht]; exact .string _ _ _
  next ht => rw [hof ht]; exact .composite _ _ _
  next ht =>
    rw [hof ht] at h ⊢
    split at h
    next hbuffer => simpa [hbuffer] using Readable.binary owner _ _
    next => exact absurd rfl h
  next _ h5 h1 h2 h3 h4 h6 =>
    rw [imp_false] at h5 h1 h2 h3 h4 h6
    have h0 : (node.visitUInt8 .type 0).toNat = 0 := by omega
    exact absurd (hof h0) h

/-- A variable of any type but 6 reads back from the node it is written to. -/
theorem readVariable_writeVariable {var : SavedVariable} (h : Readable longest var)
    (h6 : var.type ≠ 6) : readVariable var.owner (writeVariable var : Node longest) = var := by
  cases h with
  | binary => exact absurd rfl h6
  | other owner name type htype =>
    have htype' : (writeVariable { owner, name := fixedStringText name, type } :
        Node longest).visitUInt8 .type 0 = type := by
      simp [writeVariable, writeValue, Node.visitUInt8, Node.visit]
    rw [readVariable, readValue_of_other (by rwa [htype']), htype']
    simp [writeVariable, Node.visitFixedString, Node.visit, fixedStringText_intern]
  | _ =>
    simp [readVariable, writeVariable, readValue, writeValue, Node.visitUInt8, Node.visitBool,
      Node.visitInt64, Node.visitDouble, Node.visitFixedString, Node.visitSTDString, Node.visit,
      fixedStringText_intern]

/-- A variable of type 6 reads back as dropped. -/
theorem type_readVariable_writeVariable {var : SavedVariable} (h6 : var.type = 6) (owner : Bytes) :
    (readVariable owner (writeVariable var : Node longest)).type = 0 := by
  simp [readVariable, writeVariable, readValue, writeValue, Node.visitUInt8, Node.readBuffer,
    Node.visit, h6]

/-- The variables of a node, and of the one they are written to. -/
theorem readVariables_of_writeVariables {node : Node longest} {vars : List SavedVariable}
    {owner : Bytes} (hvars : ∀ var ∈ vars, Readable longest var ∧ var.owner = owner)
    (hnode : node.children = writeVariables vars) :
    readVariables node owner = vars.filter (·.type ≠ 6) := by
  have hnamed : node.named .variable = writeVariables vars := by
    rw [Node.named, hnode, List.filter_eq_self]
    intro child hchild
    obtain ⟨var, -, rfl⟩ := List.mem_map.mp hchild
    rfl
  rw [readVariables, hnamed]
  clear hnode hnamed
  induction vars with
  | nil => rfl
  | cons var vars ih =>
    obtain ⟨hvar, rfl⟩ := hvars var (by simp)
    have ih := ih fun v hv => hvars v (by simp [hv])
    have htype0 : var.type ≠ 0 := by
      cases hvar with
      | other _ _ type h => rintro rfl; simp at h
      | _ => simp
    by_cases h6 : var.type = 6
    · have h0 : (readVariable var.owner (writeVariable var : Node longest)).type = 0 :=
        type_readVariable_writeVariable h6 var.owner
      simpa [writeVariables, h0, h6] using ih
    · have hvar := readVariable_writeVariable hvar h6
      simpa [writeVariables, hvar, h6, htype0] using ih

/-! ## Grouping by owner -/

/-- Every group holds variables of its owner, and owners do not repeat. -/
structure Grouped (groups : List (Bytes × List SavedVariable)) : Prop where
  owners : ∀ group ∈ groups, ∀ var ∈ group.2, var.owner = group.1
  nodup : (groups.map Prod.fst).Nodup

theorem mem_addToGroup_fst {var : SavedVariable} {owner : Bytes} :
    ∀ groups : List (Bytes × List SavedVariable),
      owner ∈ (addToGroup var groups).map Prod.fst ↔
        owner = var.owner ∨ owner ∈ groups.map Prod.fst
  | [] => by simp [addToGroup]
  | (first, list) :: groups => by
    have ih := @mem_addToGroup_fst var owner groups
    unfold addToGroup
    split_ifs with h
    · subst h
      simp
    · rw [List.map_cons, List.mem_cons, ih, List.map_cons, List.mem_cons]
      tauto

theorem grouped_addToGroup {var : SavedVariable} :
    ∀ groups : List (Bytes × List SavedVariable), Grouped groups → Grouped (addToGroup var groups)
  | [], _ => ⟨by simp [addToGroup], by simp [addToGroup]⟩
  | (first, list) :: groups, h => by
    obtain ⟨hfirst, hrest⟩ := List.forall_mem_cons.mp h.owners
    obtain ⟨hnew, hnodup⟩ := List.nodup_cons.mp h.nodup
    unfold addToGroup
    split_ifs with hf
    · refine ⟨List.forall_mem_cons.mpr ⟨?_, hrest⟩, h.nodup⟩
      intro v hv
      rcases List.mem_append.mp hv with hv | hv
      · exact hfirst v hv
      · rw [List.mem_singleton.mp hv, hf]
    · have ih := @grouped_addToGroup var groups ⟨hrest, hnodup⟩
      refine ⟨List.forall_mem_cons.mpr ⟨hfirst, ih.owners⟩, List.nodup_cons.mpr ⟨?_, ih.nodup⟩⟩
      intro hmem
      rcases (mem_addToGroup_fst groups).mp hmem with hmem | hmem
      · exact hf hmem
      · exact hnew hmem

/-- Adding a variable puts it last among those of its owner. -/
theorem filter_addToGroup {var : SavedVariable} (owner : Bytes) :
    ∀ groups : List (Bytes × List SavedVariable), Grouped groups →
      ((addToGroup var groups).flatMap Prod.snd).filter (·.owner = owner) =
        (groups.flatMap Prod.snd).filter (·.owner = owner) ++ [var].filter (·.owner = owner)
  | [], _ => by simp [addToGroup]
  | (first, list) :: groups, h => by
    obtain ⟨hfirst, hrest⟩ := List.forall_mem_cons.mp h.owners
    obtain ⟨hnew, hnodup⟩ := List.nodup_cons.mp h.nodup
    unfold addToGroup
    split_ifs with hf
    · have hothers : ∀ v ∈ groups.flatMap Prod.snd, v.owner ≠ var.owner := by
        intro v hv howner
        obtain ⟨group, hgroup, hv⟩ := List.mem_flatMap.mp hv
        refine hnew (List.mem_map.mpr ⟨group, hgroup, ?_⟩)
        rw [← hrest group hgroup v hv, howner, hf]
      by_cases howner : var.owner = owner
      · have hnone : (groups.flatMap Prod.snd).filter (·.owner = owner) = [] := by
          rw [List.filter_eq_nil_iff]
          intro v hv
          simpa [← howner] using hothers v hv
        simp [List.flatMap_cons, List.filter_append, hnone, howner]
      · simp [List.flatMap_cons, List.filter_append, howner]
    · have ih := @filter_addToGroup var owner groups ⟨hrest, hnodup⟩
      rw [List.flatMap_cons, List.filter_append, ih, List.flatMap_cons, List.filter_append,
        List.append_assoc]

theorem grouped_concat (vars : List SavedVariable) (var : SavedVariable) :
    grouped (vars ++ [var]) = addToGroup var (grouped vars) := by
  simp [grouped]

theorem grouped_grouped (vars : List SavedVariable) : Grouped (grouped vars) := by
  induction vars using List.reverseRecOn with
  | nil => exact ⟨by simp [grouped], by simp [grouped]⟩
  | append_singleton vars var ih =>
    rw [grouped_concat]
    exact grouped_addToGroup _ ih

/-- Grouping keeps each owner's variables, in order. -/
theorem filter_grouped (vars : List SavedVariable) (owner : Bytes) :
    ((grouped vars).flatMap Prod.snd).filter (·.owner = owner) =
      vars.filter (·.owner = owner) := by
  induction vars using List.reverseRecOn with
  | nil => rfl
  | append_singleton vars var ih =>
    rw [grouped_concat, filter_addToGroup owner _ (grouped_grouped vars), ih, List.filter_append]

theorem mem_grouped_fst (vars : List SavedVariable) (owner : Bytes) :
    owner ∈ (grouped vars).map Prod.fst ↔ owner ∈ vars.map SavedVariable.owner := by
  induction vars using List.reverseRecOn with
  | nil => simp [grouped]
  | append_singleton vars var ih =>
    rw [grouped_concat, mem_addToGroup_fst, ih, List.map_append, List.mem_append]
    simp [or_comm]

theorem mem_of_mem_grouped {vars list : List SavedVariable} {owner : Bytes} {var : SavedVariable}
    (hgroup : (owner, list) ∈ grouped vars) (hvar : var ∈ list) : var ∈ vars := by
  have hmem : var ∈ ((grouped vars).flatMap Prod.snd).filter (·.owner = var.owner) := by
    rw [List.mem_filter]
    exact ⟨List.mem_flatMap.mpr ⟨_, hgroup, hvar⟩, by simp⟩
  rw [filter_grouped] at hmem
  exact (List.mem_filter.mp hmem).1

/-! ## Owners -/

/-- The variables a read gives for its owners: readable, and the owner's text is a GUID's. -/
def OwnedReadable (longest : ℕ) (vars : List SavedVariable) : Prop :=
  ∀ var ∈ vars, Readable longest var ∧ ∃ guid, var.owner = guidText guid

theorem ownedReadable_readOwned (region : Node longest) (outer inner key : Name) :
    OwnedReadable longest (readOwned region outer inner key) := by
  intro var hvar
  unfold readOwned at hvar
  split at hvar
  next node _ =>
    obtain ⟨owner, -, hvar⟩ := List.mem_flatMap.mp hvar
    obtain ⟨hread, htype⟩ := List.mem_filter.mp hvar
    obtain ⟨child, -, rfl⟩ := List.mem_map.mp hread
    exact ⟨readable_readVariable (by simpa using htype), _, readVariable_owner _ _⟩
  next => simp at hvar

/-- A group reads back from its owner's node, without the variables of type 6. -/
theorem readVariables_writeOwner {inner key : Name} {guid : Guid} {list : List SavedVariable}
    (hlist : ∀ var ∈ list, Readable longest var ∧ var.owner = guidText guid) :
    ∃ node : Node longest, writeOwner inner key (guidText guid, list) = some node ∧
      node.name = inner ∧
      readVariables node (guidText (node.visitGuid key)) = list.filter (·.type ≠ 6) := by
  refine ⟨_, by rw [writeOwner, guidBytes_guidText, Option.map_some], rfl, ?_⟩
  have hguid : ∀ children, (⟨inner, key, [(key, .guid guid)], children⟩ : Node longest).visitGuid key =
      guid := fun children => by simp [Node.visitGuid, Node.visit]
  rw [hguid]
  exact readVariables_of_writeVariables hlist rfl

/-- Written groups read back in order. -/
theorem flatMap_readVariables_writeOwner {inner key : Name} :
    ∀ groups : List (Bytes × List SavedVariable),
      (∀ group ∈ groups, ∃ guid, group.1 = guidText guid ∧
        ∀ var ∈ group.2, Readable longest var ∧ var.owner = guidText guid) →
      ((groups.filterMap (writeOwner inner key) : List (Node longest)).filter (·.name = inner)).flatMap
          (fun owner => readVariables owner (guidText (owner.visitGuid key))) =
        groups.flatMap fun group => group.2.filter (·.type ≠ 6)
  | [], _ => rfl
  | (owner, list) :: groups, h => by
    obtain ⟨⟨guid, howner, hlist⟩, hrest⟩ := List.forall_mem_cons.mp h
    obtain rfl : owner = guidText guid := howner
    obtain ⟨node, hnode, hname, hread⟩ := @readVariables_writeOwner _ inner key _ _ hlist
    have ih := @flatMap_readVariables_writeOwner inner key groups hrest
    rw [List.filterMap_cons_some hnode, List.filter_cons_of_pos (by simpa using hname),
      List.flatMap_cons, hread, ih, List.flatMap_cons]

theorem readOwned_of_writeOwned {region : Node longest} {outer inner key : Name}
    {vars : List SavedVariable} (hvars : OwnedReadable longest vars)
    (hregion : region.enter outer = some (writeOwned outer inner key vars)) :
    readOwned region outer inner key =
      ((grouped vars).flatMap Prod.snd).filter (·.type ≠ 6) := by
  rw [readOwned, hregion, List.filter_flatMap]
  refine flatMap_readVariables_writeOwner (grouped vars) fun group hgroup => ?_
  obtain ⟨owner, list⟩ := group
  have howner := (mem_grouped_fst vars owner).mp (List.mem_map.mpr ⟨_, hgroup, rfl⟩)
  obtain ⟨var, hvar, rfl⟩ := List.mem_map.mp howner
  obtain ⟨-, guid, hguid⟩ := hvars var hvar
  refine ⟨guid, hguid, fun v hv => ⟨(hvars v (mem_of_mem_grouped hgroup hv)).1, ?_⟩⟩
  rw [(grouped_grouped vars).owners _ hgroup v hv, ← hguid]

/-- Every owner's variables read back, in order, without those of type 6. -/
theorem filter_readOwned_of_writeOwned {region : Node longest} {outer inner key : Name}
    {vars : List SavedVariable} (hvars : OwnedReadable longest vars)
    (hregion : region.enter outer = some (writeOwned outer inner key vars)) (owner : Bytes) :
    (readOwned region outer inner key).filter (·.owner = owner) =
      (vars.filter (·.owner = owner)).filter (·.type ≠ 6) := by
  rw [readOwned_of_writeOwned hvars hregion, List.filter_comm, filter_grouped]

/-- Nothing is lost of any owner exactly when no variable is of type 6. -/
theorem filter_owners_iff (vars : List SavedVariable) :
    (∀ owner, (vars.filter (·.owner = owner)).filter (·.type ≠ 6) = vars.filter (·.owner = owner)) ↔
      ∀ var ∈ vars, var.type ≠ 6 := by
  constructor
  · intro h var hvar
    have hmem := List.filter_eq_self.mp (h var.owner) var (List.mem_filter.mpr ⟨hvar, by simp⟩)
    simpa using hmem
  · intro h owner
    rw [List.filter_eq_self]
    intro var hvar
    simpa using h var (List.mem_filter.mp hvar).1

/-! ## Timers -/

/-- A timer reads back from the node it is written to. -/
theorem readTimer_writeTimer (node : Node longest) :
    readTimer (writeTimer (readTimer node) : Node longest) = readTimer node := by
  simp [readTimer, writeTimer, Node.visitFloat, Node.visitBool, Node.visitFixedString,
    Node.visitSTDString, Node.visit, fixedStringText_intern]

/-- Timers read from a save. -/
def ReadableTimers (longest : ℕ) (timers : List SavedTimer) : Prop :=
  ∀ t ∈ timers, readTimer (writeTimer t : Node longest) = t

theorem readableTimers_readTimers (region : Node longest) :
    ReadableTimers longest (readTimers region) := by
  intro t ht
  unfold readTimers at ht
  split at ht
  next =>
    obtain ⟨node, -, rfl⟩ := List.mem_map.mp ht
    exact readTimer_writeTimer node
  next => simp at ht

theorem readTimers_of_writeTimers {region : Node longest} {timers : List SavedTimer}
    (htimers : ReadableTimers longest timers)
    (hregion : region.enter .persistentTimers = some (writeTimers timers)) :
    readTimers region = timers := by
  have hgame : (writeTimers timers : Node longest).enter .gameTimers =
      some { name := .gameTimers, children := timers.map writeTimer } := by
    simp [Node.enter, writeTimers]
  have hnamed : ({ name := .gameTimers, children := timers.map writeTimer } :
      Node longest).named .timer = timers.map writeTimer := by
    rw [Node.named, List.filter_eq_self]
    intro child hchild
    obtain ⟨t, -, rfl⟩ := List.mem_map.mp hchild
    rfl
  rw [readTimers, hregion]
  simp only [Option.bind_eq_bind, Option.bind_some, hgame, hnamed, List.map_map]
  exact (List.map_congr_left htimers).trans (List.map_id timers)

/-! ## The whole fallback -/

/-- The same variables of every owner in the same order, and the same timers. -/
structure SameForEveryOwner (a b : SaveExtras) : Prop where
  user : ∀ owner, a.user.filter (·.owner = owner) = b.user.filter (·.owner = owner)
  mod : ∀ owner, a.mod.filter (·.owner = owner) = b.mod.filter (·.owner = owner)
  timers : a.timers = b.timers

/-- What a read of the written save puts into the cache. -/
theorem readSave_writeSave_extras (caches caches' : Caches) (lua : LuaState) :
    (readSave caches (writeSave caches' lua : Save longest)).extras =
      readExtras (writeRegion caches' lua : Node longest) := by
  have hregion : enterRegion (writeSave caches' lua : Save longest) .scriptExtenderSave =
      some (writeRegion caches' lua) := by
    simp [enterRegion, writeSave, writeRegion]
  have hversion : (writeRegion caches' lua : Node longest).visitUInt32 .extenderVersion 0 = 12 := by
    simp [writeRegion, Node.visitUInt32, Node.visit, kSavegameVersion]
  simp [readSave, hregion, hversion, kSavegameVersion]

/-- Where the written region has its extras. -/
theorem enter_writeRegion (longest : ℕ) (caches : Caches) (lua : LuaState) :
    let extras := lua.extras.getD caches.extras
    let region : Node longest := writeRegion caches lua
    region.enter .userVariables =
        some (writeOwned .userVariables .entityVariables .entity extras.user) ∧
      region.enter .modVariables =
        some (writeOwned .modVariables .modVariables .module extras.mod) ∧
      region.enter .persistentTimers = some (writeTimers extras.timers) := by
  simp [Node.enter, writeRegion, writePersistentVariables, writeExtras, writeOwned, writeTimers]

/-- What a save held of extras, written by the fallback and read again, is the same for every
owner exactly when no variable is of type 6. -/
theorem fallback_roundTrip_iff (region : Node longest) (caches : Caches) (lua : LuaState) :
    let held := readExtras region
    let cached := { caches with extras := held }
    let written : Save longest := writeSave cached { lua with extras := none }
    SameForEveryOwner (readSave cached written).extras held ↔
      ∀ var ∈ held.user ++ held.mod, var.type ≠ 6 := by
  intro held cached written
  obtain ⟨hu, hm, ht⟩ := enter_writeRegion longest cached { lua with extras := none }
  have huser := filter_readOwned_of_writeOwned (ownedReadable_readOwned region _ _ _) hu
  have hmod := filter_readOwned_of_writeOwned (ownedReadable_readOwned region _ _ _) hm
  have htimers := readTimers_of_writeTimers (readableTimers_readTimers region) ht
  rw [readSave_writeSave_extras, List.forall_mem_append, ← filter_owners_iff, ← filter_owners_iff]
  constructor
  · rintro ⟨hu, hm, -⟩
    exact ⟨fun owner => (huser owner).symm.trans (hu owner),
      fun owner => (hmod owner).symm.trans (hm owner)⟩
  · rintro ⟨hu, hm⟩
    exact ⟨fun owner => (huser owner).trans (hu owner), fun owner => (hmod owner).trans (hm owner),
      htimers⟩

/-! ## A binary variable -/

/-- A region with one user variable of type 6, written by the original extender. -/
def binaryRegion : Node 0 where
  name := .scriptExtenderSave
  children := [{ name := .userVariables, children := [{ name := .entityVariables, children := [
    { name := .variable
      attributes := [(.name, .fixedString (intern 0 (bytes "Data"))), (.type, .uint8 6),
        (.value, .buffer (bytes "packed"))] }] }] }]

/-- The fallback writes no buffer for it, and the next read drops it. -/
theorem binary_lost :
    let held := readExtras binaryRegion
    let cached : Caches := { extras := held }
    held.user.map (·.type) = [6] ∧
      (readSave cached (writeSave cached {} : Save 0)).extras.user = [] ∧
      ¬ SameForEveryOwner (readSave cached (writeSave cached {} : Save 0)).extras held := by
  have hheld : (readExtras binaryRegion).user.map (·.type) = [6] := by decide
  refine ⟨hheld, by decide, fun h => ?_⟩
  exact absurd (h.user (guidText Guid.null)) (by decide)

end Savegame
end Bg3le
