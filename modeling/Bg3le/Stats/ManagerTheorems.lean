import Bg3le.Engine.FixedStringMapTheorems
import Bg3le.Stats.Manager

/-!
# An insertion keeps a manager's three structures together

The array, the map and the counter move together or not at all: an append that the map then
refuses is undone by the old header, whichever way the array grew.
-/

namespace Bg3le
namespace StatsSets

open Engine

variable {E : Type} {nameOf : E → UInt32} {hash : UInt32 → Option ℕ} {ready given : Bool}
  {heap : Heap} {mgr mgr' : Manager E} {element : E}

def Manager.elements (mgr : Manager E) : List E := mgr.values.elements mgr.memory

/-- The element that a name leads to, through the map. -/
def Manager.leads (hash : UInt32 → Option ℕ) (mgr : Manager E) (name : UInt32) : Option E :=
  (mgr.nameToHandle.lookup hash name).bind fun handle =>
    if 0 ≤ handle.toInt then mgr.elements[handle.toInt.toNat]? else none

/-- The next handle is the number of values, and the map gives each value's name its index. -/
structure Manager.Related (nameOf : E → UInt32) (hash : UInt32 → Option ℕ) (mgr : Manager E) :
    Prop where
  array : mgr.values.Valid mgr.memory
  kept : mgr.nameToHandle.Kept hash
  counted : mgr.nextHandle.toInt = mgr.elements.length
  named {i : ℕ} {value : E} (h : mgr.elements[i]? = some value) :
    mgr.nameToHandle.lookup hash (nameOf value) = some (Int32.ofNat i)

/-- What an insertion owes. -/
def KeepsManager (nameOf : E → UInt32) (hash : UInt32 → Option ℕ) (mgr : Manager E)
    (element : E) : Option (Bool × Manager E) → Prop
  | none => False
  | some (true, mgr') => mgr'.Related nameOf hash ∧
      mgr'.leads hash (nameOf element) = some element ∧
      (∀ name ≠ nameOf element, mgr'.leads hash name = mgr.leads hash name) ∧
      ∀ i, mgr'.nameToHandle.lookup hash (nameOf element) ≠ some (Int32.ofNat i) →
        mgr'.elements[i]? = mgr.elements[i]?
  | some (false, mgr') => mgr'.values = mgr.values ∧ mgr'.elements = mgr.elements ∧
      mgr'.nameToHandle = mgr.nameToHandle ∧ mgr'.nextHandle = mgr.nextHandle

/-- The insertion gets as far as the map: the name is new and the array has taken it. -/
structure AddsElement (nameOf : E → UInt32) (ready given : Bool) (mgr : Manager E)
    (element : E) : Prop where
  read : mgr.elements.length ≤ 2 ^ 22
  new : ∀ value ∈ mgr.elements, nameOf value ≠ nameOf element
  appends : mgr.values.Takes ready given

/-- The insertion puts the element at an index that had another or none. -/
structure Changes (nameOf : E → UInt32) (hash : UInt32 → Option ℕ) (ready given : Bool)
    (heap : Heap) (mgr : Manager E) (element : E) (i : ℕ) : Prop where
  other : mgr.elements[i]? ≠ some element
  written : (mgr.elements.length ≤ 2 ^ 22 ∧
      ∃ value, mgr.elements[i]? = some value ∧ nameOf value = nameOf element) ∨
    (i = mgr.elements.length ∧ AddsElement nameOf ready given mgr element ∧
      StoresKey hash heap mgr.nameToHandle (nameOf element))

/-- No other name has the index that is changed. -/
def Alone (nameOf : E → UInt32) (hash : UInt32 → Option ℕ) (ready given : Bool) (heap : Heap)
    (mgr : Manager E) (element : E) : Prop :=
  ∀ i, Changes nameOf hash ready given heap mgr element i →
    ∀ name ≠ nameOf element, mgr.nameToHandle.lookup hash name ≠ some (Int32.ofNat i)

namespace Manager

theorem Related.length_elements (h : mgr.Related nameOf hash) :
    mgr.elements.length = mgr.values.size.toNat :=
  h.array.length_elements

/-- The next handle, where the elements are few enough to be counted by it. -/
theorem Related.nextHandle_eq (h : mgr.Related nameOf hash) (hlength : mgr.elements.length < 2 ^ 31) :
    mgr.nextHandle = Int32.ofNat mgr.elements.length := by
  rw [← Int32.toInt_inj, h.counted, Int32.toInt_ofNat_of_lt hlength]

/-- All the elements are read, or none where they are too many. -/
theorem managerValues_of_valid (h : mgr.values.Valid mgr.memory)
    (hlength : mgr.elements.length ≤ 2 ^ 22) : managerValues mgr = mgr.elements := by
  have hsize : mgr.elements.length = mgr.values.size.toNat := h.length_elements
  unfold managerValues
  by_cases hempty : mgr.elements.length = 0
  · have hnil := List.eq_nil_of_length_eq_zero hempty
    split
    · exact hnil.symm
    · split
      · rfl
      · exact hnil.symm
  · have hbuffer : mgr.values.buffer ≠ none := by
      intro hnull
      have := h.size_of_null hnull
      omega
    rw [if_neg (by push Not; exact ⟨hbuffer, by omega⟩), h.readable (by omega)]
    rfl

theorem Related.managerValues_eq (h : mgr.Related nameOf hash)
    (hlength : mgr.elements.length ≤ 2 ^ 22) : managerValues mgr = mgr.elements :=
  managerValues_of_valid h.array hlength

theorem length_managerValues_le (mgr : Manager E) : (managerValues mgr).length ≤ 2 ^ 22 := by
  unfold managerValues
  split
  · exact Nat.zero_le _
  · next hread =>
    split
    · unfold RawArray.elements
      split
      · exact Nat.zero_le _
      · rw [List.length_map, List.length_range]
        exact Nat.not_lt.mp (not_or.mp hread).2
    · exact Nat.zero_le _

theorem mem_elements_of_mem_managerValues {value : E} (h : value ∈ managerValues mgr) :
    value ∈ mgr.elements := by
  unfold managerValues at h
  split at h
  · exact absurd h (List.not_mem_nil)
  · split at h
    · exact h
    · exact absurd h (List.not_mem_nil)

theorem managerValues_of_many (hsize : 2 ^ 22 < mgr.values.size.toNat) : managerValues mgr = [] := by
  unfold managerValues
  rw [if_pos (.inr hsize)]

/-- A name leads to the element at its handle. -/
theorem leads_of_lookup {name : UInt32} {i : ℕ} (hi : i < 2 ^ 31)
    (h : mgr.nameToHandle.lookup hash name = some (Int32.ofNat i)) :
    mgr.leads hash name = mgr.elements[i]? := by
  have hint := Int32.toInt_ofNat_of_lt hi
  rw [leads, h, Option.bind_some, if_pos (by omega), hint, Int.toNat_natCast]

end Manager

theorem Manager.leads_none {name : UInt32} (h : mgr.nameToHandle.lookup hash name = none) :
    mgr.leads hash name = none := by
  rw [leads, h, Option.bind_none]

/-- A manager whose elements are as before but at one index, and whose map gives every other name
what it gave before. -/
structure Moved (nameOf : E → UInt32) (hash : UInt32 → Option ℕ) (mgr mgr' : Manager E)
    (element : E) (i : ℕ) : Prop where
  small : i < 2 ^ 31
  array : mgr'.values.Valid mgr'.memory
  kept : mgr'.nameToHandle.Kept hash
  counted : mgr'.nextHandle.toInt = mgr'.elements.length
  at_index : mgr'.elements[i]? = some element
  elsewhere : ∀ j ≠ i, mgr'.elements[j]? = mgr.elements[j]?
  named : mgr'.nameToHandle.lookup hash (nameOf element) = some (Int32.ofNat i)
  others : ∀ name ≠ nameOf element,
    mgr'.nameToHandle.lookup hash name = mgr.nameToHandle.lookup hash name
  old : ∀ j ≠ i, ∀ value, mgr.elements[j]? = some value → nameOf value ≠ nameOf element

/-- It is kept just where no other name has the index, or nothing has changed there. -/
theorem Moved.keeps_iff {i : ℕ} (h : mgr.Related nameOf hash)
    (hmoved : Moved nameOf hash mgr mgr' element i) :
    KeepsManager nameOf hash mgr element (some (true, mgr')) ↔
      (mgr.elements[i]? ≠ some element →
        ∀ name ≠ nameOf element, mgr.nameToHandle.lookup hash name ≠ some (Int32.ofNat i)) := by
  have hleads (name : UInt32) (hlookup : mgr'.nameToHandle.lookup hash name = some (Int32.ofNat i)) :
      mgr'.leads hash name = some element := by
    rw [Manager.leads_of_lookup hmoved.small hlookup, hmoved.at_index]
  constructor
  -- a name that led to the position would now lead to the new element
  · rintro ⟨-, -, hothers, -⟩ hchanged name hne hlookup
    have hlookup' := hmoved.others name hne
    rw [hlookup] at hlookup'
    have hsame := hothers name hne
    rw [hleads name hlookup', Manager.leads_of_lookup hmoved.small hlookup] at hsame
    exact hchanged hsame.symm
  · intro hfree
    refine ⟨⟨hmoved.array, hmoved.kept, hmoved.counted, ?_⟩, hleads _ hmoved.named, ?_, ?_⟩
    · intro j value hj
      by_cases heq : j = i
      · subst heq
        rw [hmoved.at_index] at hj
        rw [← Option.some.inj hj, hmoved.named]
      · rw [hmoved.elsewhere j heq] at hj
        rw [hmoved.others _ (hmoved.old j heq value hj)]
        exact h.named hj
    · intro name hne
      cases hlookup : mgr.nameToHandle.lookup hash name with
      | none =>
        rw [Manager.leads_none hlookup, Manager.leads_none ((hmoved.others name hne).trans hlookup)]
      | some handle =>
        have hlookup' := (hmoved.others name hne).trans hlookup
        simp only [Manager.leads, hlookup, hlookup', Option.bind_some]
        split
        · next hpos =>
          -- another name may lead to the position only if the element there stayed as it was
          by_cases heq : handle.toInt.toNat = i
          · have hhandle : handle = Int32.ofNat i := by
              rw [← Int32.toInt_inj, Int32.toInt_ofNat_of_lt hmoved.small]
              omega
            rw [heq, hmoved.at_index]
            by_contra hchanged
            exact hfree (Ne.symm hchanged) name hne (hhandle ▸ hlookup)
          · exact hmoved.elsewhere _ heq
        · rfl
    · intro j hj
      apply hmoved.elsewhere
      rintro rfl
      exact hj hmoved.named

/-! ## Replacing an element -/

/-- An element overwritten in place. -/
theorem putValue_eq (h : mgr.Related nameOf hash) (element : E) {i : ℕ} (hi : i < mgr.elements.length) :
    ∃ mgr', mgr.putValue i element = some mgr' ∧ mgr'.nameToHandle = mgr.nameToHandle ∧
      mgr'.nextHandle = mgr.nextHandle ∧ mgr'.values.Valid mgr'.memory ∧
      mgr'.elements = mgr.elements.set i element := by
  rw [h.length_elements] at hi
  cases hbuffer : mgr.values.buffer with
  | none =>
    rw [h.array.size_of_null hbuffer] at hi
    exact absurd hi (Nat.not_lt_zero _)
  | some address =>
    obtain ⟨hgiven, hcapacity⟩ := h.array.given hbuffer
    have hroom : i < (mgr.memory.block address).room :=
      hi.trans_le (h.array.size_le.trans hcapacity)
    unfold Manager.putValue
    simp only [hbuffer, Option.bind_eq_bind, Option.bind_some, Memory.store, Buffer.store,
      if_pos hroom]
    refine ⟨_, rfl, rfl, rfl, ⟨fun {address'} h' => ?_, h.array.null, h.array.fits⟩, ?_⟩
    · obtain rfl : address' = address := Option.some.inj (h'.symm.trans hbuffer)
      exact ⟨hgiven, by simpa using hcapacity⟩
    · apply List.ext_getElem?
      intro j
      by_cases hj : j < mgr.values.size.toNat
      · by_cases heq : i = j
        · subst heq
          simp [Manager.elements, RawArray.elements, hbuffer, hj]
        · simp [Manager.elements, RawArray.elements, hbuffer, hj, heq, Ne.symm heq]
      · simp [Manager.elements, RawArray.elements, hbuffer, hj]

/-- Two elements of one name are the same. -/
theorem Manager.Related.index_inj (h : mgr.Related nameOf hash)
    (hlength : mgr.elements.length < 2 ^ 31) {i j : ℕ} {value value' : E}
    (hi : mgr.elements[i]? = some value) (hj : mgr.elements[j]? = some value')
    (hname : nameOf value = nameOf value') : i = j := by
  have hlt := (List.getElem?_eq_some_iff.mp hi).1
  have hlt' := (List.getElem?_eq_some_iff.mp hj).1
  have hsame := h.named hi
  rw [hname, h.named hj, Option.some.injEq, ← Int32.toInt_inj,
    Int32.toInt_ofNat_of_lt (hlt'.trans hlength), Int32.toInt_ofNat_of_lt (hlt.trans hlength)] at hsame
  omega

theorem moved_of_found (h : mgr.Related nameOf hash) (hlength : mgr.elements.length < 2 ^ 31)
    {i : ℕ} {value : E} (hi : mgr.elements[i]? = some value) (hname : nameOf value = nameOf element)
    (hmap : mgr'.nameToHandle = mgr.nameToHandle) (hnext : mgr'.nextHandle = mgr.nextHandle)
    (harray : mgr'.values.Valid mgr'.memory)
    (hvalues : mgr'.elements = mgr.elements.set i element) :
    Moved nameOf hash mgr mgr' element i where
  small := (List.getElem?_eq_some_iff.mp hi).1.trans hlength
  array := harray
  kept := by rw [hmap]; exact h.kept
  counted := by rw [hnext, hvalues, List.length_set, h.counted]
  at_index := by rw [hvalues, List.getElem?_set_self (List.getElem?_eq_some_iff.mp hi).1]
  elsewhere j hj := by rw [hvalues, List.getElem?_set_ne hj.symm]
  named := by rw [hmap, ← hname]; exact h.named hi
  others _ _ := by rw [hmap]
  old j hj value' hvalue' hsame :=
    hj (h.index_inj hlength hvalue' hi (hsame.trans hname.symm))

/-! ## Adding one -/

theorem find_element_none (hnew : ∀ value ∈ mgr.elements, nameOf value ≠ nameOf element) :
    mgr.elements.findIdx? (nameOf · = nameOf element) = none := by
  rw [List.findIdx?_eq_none_iff]
  intro value hvalue
  exact decide_eq_false (hnew value hvalue)

theorem moved_of_added (h : mgr.Related nameOf hash) {memory : Memory E} {array : RawArray}
    {map : RawMap UInt32 Int32} {slot : ℕ} (hadds : AddsElement nameOf ready given mgr element)
    (happended : RawArray.Appended mgr.memory mgr.values element memory array)
    (hmap : KeepsMap hash mgr.nameToHandle (nameOf element) mgr.nextHandle (some (some slot, map))) :
    Moved nameOf hash mgr ⟨memory, array, map, mgr.nextHandle + 1⟩ element
      mgr.elements.length := by
  have hread := hadds.read
  have hnext := h.nextHandle_eq (by omega)
  have helements : (Manager.mk memory array map (mgr.nextHandle + 1)).elements =
      mgr.elements ++ [element] := happended.elements
  constructor
  case small => omega
  case array => exact happended.valid
  case kept => exact hmap.1
  case counted =>
    have hsucc : mgr.nextHandle + 1 = Int32.ofNat (mgr.elements.length + 1) := by
      rw [hnext, Int32.ofNat_add]
      rfl
    rw [helements, List.length_append, List.length_singleton]
    show (mgr.nextHandle + 1).toInt = _
    rw [hsucc, Int32.toInt_ofNat_of_lt (by omega)]
  case at_index =>
    rw [helements]
    exact List.getElem?_concat_length
  case elsewhere =>
    intro j hj
    rw [helements]
    rcases Nat.lt_or_gt_of_ne hj with hlt | hgt
    · exact List.getElem?_append_left hlt
    · rw [List.getElem?_eq_none (by rw [List.length_append, List.length_singleton]; omega),
        List.getElem?_eq_none (by omega)]
  case named =>
    rw [← hnext]
    exact hmap.2.1
  case others => exact hmap.2.2
  case old =>
    intro j _ value hvalue
    exact hadds.new value (List.mem_of_getElem? hvalue)

/-- The append went through, and the map decides. -/
theorem managerInsert_of_adds (heap : Heap) (h : mgr.Related nameOf hash)
    (hadds : AddsElement nameOf ready given mgr element) :
    ∃ memory array, RawArray.Appended mgr.memory mgr.values element memory array ∧
      managerInsert nameOf hash ready given heap mgr element =
        (fsMapInsert hash nearestSmallMultiHashMapPrime heap mgr.nameToHandle (nameOf element)
          mgr.nextHandle).map fun (slot, map) =>
            if slot.isNone then (false, ⟨memory, mgr.values, map, mgr.nextHandle⟩)
            else (true, ⟨memory, array, map, mgr.nextHandle + 1⟩) := by
  obtain ⟨memory, array, happend, happended⟩ := h.array.arrayAppend_of_takes hadds.appends element
  refine ⟨memory, array, happended, ?_⟩
  have hread := hadds.read
  have hnext := h.nextHandle_eq (by omega)
  unfold managerInsert
  simp only [h.managerValues_eq hread, find_element_none hadds.new, ← hnext, happend, ne_eq,
    not_true_eq_false, if_false, Option.bind_eq_bind, Option.bind_some, Bool.not_true,
    Bool.false_eq_true]
  cases fsMapInsert hash nearestSmallMultiHashMapPrime heap mgr.nameToHandle (nameOf element)
    mgr.nextHandle with
  | none => rfl
  | some result =>
    obtain ⟨slot, map⟩ := result
    cases slot <;> rfl

/-- An insertion that got as far as the map. -/
theorem keeps_iff_of_adds (h : mgr.Related nameOf hash)
    (hadds : AddsElement nameOf ready given mgr element) :
    KeepsManager nameOf hash mgr element
        (managerInsert nameOf hash ready given heap mgr element) ↔
      Alone nameOf hash ready given heap mgr element := by
  have hprime := nearestSmallMultiHashMapPrime_pos
  have hlast : mgr.elements[mgr.elements.length]? ≠ some element := by
    rw [List.getElem?_eq_none le_rfl]
    exact (Option.some_ne_none element).symm
  have hother {i : ℕ} {value : E} (hvalue : mgr.elements[i]? = some value)
      (hname : nameOf value = nameOf element) : False :=
    hadds.new value (List.mem_of_getElem? hvalue) hname
  obtain ⟨memory, array, happended, hresult⟩ := managerInsert_of_adds heap h hadds
  rw [hresult]
  by_cases hstores : StoresKey hash heap mgr.nameToHandle (nameOf element)
  · obtain ⟨slot, map, hinsert⟩ := fsMapInsert_of_stores h.kept.toChained hprime
      (nearestSmallMultiHashMapPrime_lt (wanted_le hstores.taken)) hstores mgr.nextHandle
    have hkept : KeepsMap hash mgr.nameToHandle (nameOf element) mgr.nextHandle
        (some (some slot, map)) := by
      rw [← hinsert]
      exact fsMapInsert_keepsMap h.kept
    rw [hinsert]
    show KeepsManager nameOf hash mgr element
      (some (true, ⟨memory, array, map, mgr.nextHandle + 1⟩)) ↔ _
    rw [(moved_of_added h hadds happended hkept).keeps_iff h]
    constructor
    · intro hfree i hchanges
      rcases hchanges.written with ⟨-, value, hvalue, hname⟩ | ⟨rfl, -, -⟩
      · exact (hother hvalue hname).elim
      · exact hfree hlast
    · exact fun halone hchanged => halone _ ⟨hchanged, .inr ⟨rfl, hadds, hstores⟩⟩
  -- the map does not take the key: every name still leads where it led
  · rw [fsMapInsert_of_not_stores h.kept.toChained hprime hstores]
    apply iff_of_true
    · exact ⟨rfl, happended.old_elements, rfl, rfl⟩
    · intro i hchanges
      rcases hchanges.written with ⟨-, value, hvalue, hname⟩ | ⟨-, -, hstores'⟩
      · exact (hother hvalue hname).elim
      · exact absurd hstores' hstores

/-! ## The insertion -/

/-- It says false and nothing changed. -/
theorem keeps_refused : KeepsManager nameOf hash mgr element (some (false, mgr)) :=
  ⟨rfl, rfl, rfl, rfl⟩

theorem managerInsert_of_many (h : mgr.Related nameOf hash)
    (hread : 2 ^ 22 < mgr.elements.length) :
    managerInsert nameOf hash ready given heap mgr element = some (false, mgr) := by
  have hnext : mgr.nextHandle ≠ Int32.ofNat 0 := by
    intro hzero
    have hcounted := h.counted
    rw [hzero, Int32.toInt_ofNat_of_lt (by decide)] at hcounted
    omega
  have hmany : managerValues mgr = [] :=
    Manager.managerValues_of_many (h.length_elements ▸ hread)
  unfold managerInsert
  simp only [hmany, List.findIdx?_nil, List.length_nil, if_pos hnext]

/-- An insertion that says true, of a name that is not read, has put the element last. -/
theorem elements_of_inserted (h : mgr.values.Valid mgr.memory)
    (hnew : (managerValues mgr).findIdx? (nameOf · = nameOf element) = none)
    (hinsert : managerInsert nameOf hash ready given heap mgr element = some (true, mgr')) :
    mgr'.values.Valid mgr'.memory ∧ mgr'.elements = mgr.elements ++ [element] := by
  unfold managerInsert at hinsert
  simp only [hnew] at hinsert
  split at hinsert
  · exact absurd hinsert (by simp)
  · by_cases htakes : mgr.values.Takes ready given
    · obtain ⟨memory, array, happend, happended⟩ :=
        h.arrayAppend_of_takes htakes element
      simp only [happend, Option.bind_eq_bind, Option.bind_some, Bool.not_true, Bool.false_eq_true,
        if_false] at hinsert
      obtain ⟨⟨slot, map⟩, -, hresult⟩ := Option.bind_eq_some_iff.mp hinsert
      cases slot with
      | none => exact absurd hresult (by simp)
      | some slot =>
        obtain ⟨-, rfl⟩ := Prod.mk.inj (Option.some.inj hresult)
        exact ⟨happended.valid, happended.elements⟩
    · simp only [RawArray.arrayAppend_of_not_takes htakes, Option.bind_eq_bind, Option.bind_some,
        Bool.not_false, if_true] at hinsert
      exact absurd hinsert (by simp)

/-- It says true where the counter fits, and the array and the map take the element. -/
theorem managerInsert_true (h : mgr.values.Valid mgr.memory)
    (hchained : mgr.nameToHandle.Chained hash)
    (hnew : (managerValues mgr).findIdx? (nameOf · = nameOf element) = none)
    (hnext : mgr.nextHandle = Int32.ofNat (managerValues mgr).length)
    (htakes : mgr.values.Takes ready given)
    (hstores : StoresKey hash heap mgr.nameToHandle (nameOf element)) :
    ∃ mgr', managerInsert nameOf hash ready given heap mgr element = some (true, mgr') := by
  obtain ⟨memory, array, happend, -⟩ := h.arrayAppend_of_takes htakes element
  obtain ⟨slot, map, hinsert⟩ := fsMapInsert_of_stores hchained nearestSmallMultiHashMapPrime_pos
    (nearestSmallMultiHashMapPrime_lt (wanted_le hstores.taken)) hstores mgr.nextHandle
  refine ⟨⟨memory, array, map, mgr.nextHandle + 1⟩, ?_⟩
  unfold managerInsert
  simp only [hnew, if_neg (not_not.mpr hnext), happend, Option.bind_eq_bind, Option.bind_some,
    Bool.not_true, Bool.false_eq_true, if_false, hinsert]
  rfl

/-- And over a name map of the engine's it has an outcome. -/
theorem managerInsert_defined (ready given : Bool) (heap : Heap) (h : mgr.values.Valid mgr.memory)
    (hchained : mgr.nameToHandle.Chained hash)
    (hnew : (managerValues mgr).findIdx? (nameOf · = nameOf element) = none) :
    managerInsert nameOf hash ready given heap mgr element ≠ none := by
  have hprime := nearestSmallMultiHashMapPrime_pos
  unfold managerInsert
  simp only [hnew]
  split
  · exact Option.some_ne_none _
  · by_cases htakes : mgr.values.Takes ready given
    · obtain ⟨memory, array, happend, -⟩ :=
        h.arrayAppend_of_takes htakes element
      simp only [happend, Option.bind_eq_bind, Option.bind_some, Bool.not_true, Bool.false_eq_true,
        if_false]
      by_cases hstores : StoresKey hash heap mgr.nameToHandle (nameOf element)
      · obtain ⟨slot, map, hinsert⟩ := fsMapInsert_of_stores hchained hprime
          (nearestSmallMultiHashMapPrime_lt (wanted_le hstores.taken)) hstores mgr.nextHandle
        rw [hinsert]
        exact Option.some_ne_none _
      · rw [fsMapInsert_of_not_stores hchained hprime hstores]
        exact Option.some_ne_none _
    · simp only [RawArray.arrayAppend_of_not_takes htakes]
      exact Option.some_ne_none _

/-- An insertion keeps its manager exactly where no other name has the index that it changes. -/
theorem managerInsert_keeps_iff (h : mgr.Related nameOf hash) :
    KeepsManager nameOf hash mgr element
        (managerInsert nameOf hash ready given heap mgr element) ↔
      Alone nameOf hash ready given heap mgr element := by
  by_cases hread : mgr.elements.length ≤ 2 ^ 22
  · cases hfind : mgr.elements.findIdx? (nameOf · = nameOf element) with
    | some i =>
      obtain ⟨hi, hname, -⟩ := List.findIdx?_eq_some_iff_getElem.mp hfind
      have hvalue := List.getElem?_eq_getElem hi
      have hname := of_decide_eq_true hname
      obtain ⟨mgr', hput, hmap, hnext, harray, hvalues⟩ := putValue_eq h element hi
      have hmoved := moved_of_found h (by omega) hvalue hname hmap hnext harray hvalues
      have hinsert : managerInsert nameOf hash ready given heap mgr element =
          some (true, mgr') := by
        unfold managerInsert
        simp only [h.managerValues_eq hread, hfind, hput]
        rfl
      rw [hinsert, hmoved.keeps_iff h]
      constructor
      · intro hfree j hchanges
        rcases hchanges.written with ⟨-, value, hj, hname'⟩ | ⟨-, hadds, -⟩
        -- names are told apart by their index, so it is the one that was found
        · obtain rfl := h.index_inj (by omega) hj hvalue (hname'.trans hname.symm)
          exact hfree hchanges.other
        · exact absurd hname (hadds.new _ (List.mem_of_getElem? hvalue))
      · exact fun halone hother => halone _ ⟨hother, .inl ⟨hread, _, hvalue, hname⟩⟩
    | none =>
      have hnew : ∀ value ∈ mgr.elements, nameOf value ≠ nameOf element := by
        intro value hvalue
        exact of_decide_eq_false (List.findIdx?_eq_none_iff.mp hfind value hvalue)
      by_cases htakes : mgr.values.Takes ready given
      · exact keeps_iff_of_adds h ⟨hread, hnew, htakes⟩
      · have hinsert : managerInsert nameOf hash ready given heap mgr element =
            some (false, mgr) := by
          unfold managerInsert
          simp only [h.managerValues_eq hread, hfind, ← h.nextHandle_eq (by omega), ne_eq,
            not_true_eq_false, if_false, RawArray.arrayAppend_of_not_takes htakes]
          rfl
        rw [hinsert]
        apply iff_of_true keeps_refused
        intro i hchanges
        rcases hchanges.written with ⟨-, value, hvalue, hname⟩ | ⟨-, hadds, -⟩
        · exact absurd hname (hnew value (List.mem_of_getElem? hvalue))
        · exact absurd hadds.appends htakes
  · rw [managerInsert_of_many h (by omega)]
    apply iff_of_true keeps_refused
    intro i hchanges
    rcases hchanges.written with ⟨hread', -⟩ | ⟨-, hadds, -⟩
    · exact absurd hread' hread
    · exact absurd hadds.read hread

/-- So it is where the map has the values' names only. -/
theorem alone_of_names
    (hnames : ∀ name, ∀ i < 2 ^ 31, mgr.nameToHandle.lookup hash name = some (Int32.ofNat i) →
      ∃ value, mgr.elements[i]? = some value ∧ nameOf value = name) :
    Alone nameOf hash ready given heap mgr element := by
  intro i hchanges name hne hlookup
  have hi : i ≤ 2 ^ 22 := by
    rcases hchanges.written with ⟨hread, value, hvalue, -⟩ | ⟨rfl, hadds, -⟩
    · have hlt := (List.getElem?_eq_some_iff.mp hvalue).1
      omega
    · exact hadds.read
  obtain ⟨value, hvalue, hname⟩ := hnames name i (by omega) hlookup
  rcases hchanges.written with ⟨-, value', hvalue', hname'⟩ | ⟨rfl, -, -⟩
  · obtain rfl := Option.some.inj (hvalue.symm.trans hvalue')
    exact hne (hname.symm.trans hname')
  · rw [List.getElem?_eq_none le_rfl] at hvalue
    exact absurd hvalue.symm (Option.some_ne_none value)

/-! ## Two managers of small name maps -/

/-- The elements 2 and 7, each its own name, with room for more. -/
def pairManager : Manager UInt32 where
  memory := ⟨1, fun _ => ⟨4, fun i => if i = 0 then 2 else 7⟩⟩
  values := ⟨some 0, 4, 2⟩
  nameToHandle := { RawMap.pairMap 4 with values := ⟨4, Int32.ofNat⟩ }
  nextHandle := 2

/-- The element 7 only, and a map that has the name 2 for the index behind it. -/
def staleManager : Manager UInt32 where
  memory := ⟨1, fun _ => ⟨4, fun _ => 7⟩⟩
  values := ⟨some 0, 4, 1⟩
  nameToHandle := { RawMap.pairMap 4 with values := ⟨4, fun i => if i = 0 then 1 else 0⟩ }
  nextHandle := 1

theorem pairMap_kept_values (values : Buffer Int32) (hroom : 4 ≤ values.room) :
    ({ RawMap.pairMap 4 with values } : RawMap UInt32 Int32).Kept (some ∘ UInt32.toNat) :=
  have h := @RawMap.pairMap_kept 4 (by decide)
  { h with
    valuesRoom := le_trans (show 2 ≤ 4 by decide) hroom
    valuesCapacity := hroom }

theorem pairManager_related : pairManager.Related id (some ∘ UInt32.toNat) where
  array := by
    refine ⟨fun {address} h => ?_, fun h => absurd h (by decide), by decide⟩
    obtain rfl : 0 = address := Option.some.inj h
    exact ⟨by decide, by decide⟩
  kept := pairMap_kept_values _ le_rfl
  counted := by decide
  named {i value} h := by
    have helements : pairManager.elements = [2, 7] := by decide
    rw [helements] at h
    obtain ⟨hi, rfl⟩ := List.getElem?_eq_some_iff.mp h
    have hnamed : ∀ i (hi : i < [(2 : UInt32), 7].length),
        pairManager.nameToHandle.lookup (some ∘ UInt32.toNat) (id [(2 : UInt32), 7][i]) =
          some (Int32.ofNat i) := by
      decide
    exact hnamed i hi

/-- A third element goes where no name leads yet. -/
theorem managerInsert_pairManager :
    KeepsManager id (some ∘ UInt32.toNat) pairManager 12
      (managerInsert id (some ∘ UInt32.toNat) true true ⟨true, true, true, true, true⟩
        pairManager 12) := by
  apply (managerInsert_keeps_iff pairManager_related).mpr
  apply alone_of_names
  intro name i hi hlookup
  obtain ⟨j, hj, hkey, hvalue⟩ := (pairMap_kept_values _ le_rfl).toFiled.lookup_iff.mp hlookup
  change j < 2 at hj
  have hindex : j = i := by
    have htoInt := congrArg Int32.toInt hvalue
    change (Int32.ofNat j).toInt = (Int32.ofNat i).toInt at htoInt
    rw [Int32.toInt_ofNat_of_lt (by omega), Int32.toInt_ofNat_of_lt hi] at htoInt
    exact_mod_cast htoInt
  subst hindex
  refine ⟨name, ?_, rfl⟩
  rw [← hkey]
  have hsame : ∀ j < 2, pairManager.elements[j]? = some (pairManager.nameToHandle.keys.get j) := by
    decide
  exact hsame j hj

theorem staleManager_related : staleManager.Related id (some ∘ UInt32.toNat) where
  array := by
    refine ⟨fun {address} h => ?_, fun h => absurd h (by decide), by decide⟩
    obtain rfl : 0 = address := Option.some.inj h
    exact ⟨by decide, by decide⟩
  kept := pairMap_kept_values _ le_rfl
  counted := by decide
  named {i value} h := by
    have helements : staleManager.elements = [7] := by decide
    rw [helements] at h
    obtain ⟨hi, rfl⟩ := List.getElem?_eq_some_iff.mp h
    obtain rfl : i = 0 := Nat.lt_one_iff.mp hi
    show staleManager.nameToHandle.lookup (some ∘ UInt32.toNat) 7 = some 0
    decide

/-- The name 2 leads nowhere, and to the element 12 once that is added. -/
theorem staleManager_leads : staleManager.Related id (some ∘ UInt32.toNat) ∧
    ¬ KeepsManager id (some ∘ UInt32.toNat) staleManager 12
      (managerInsert id (some ∘ UInt32.toNat) true true ⟨true, true, true, true, true⟩
        staleManager 12) := by
  refine ⟨staleManager_related, fun hkeeps => ?_⟩
  have hafter : (managerInsert id (some ∘ UInt32.toNat) true true ⟨true, true, true, true, true⟩
      staleManager 12).map (fun result => (result.1, result.2.leads (some ∘ UInt32.toNat) 2)) =
        some (true, some 12) := by
    decide
  obtain ⟨⟨inserted, mgr⟩, hresult, hleads⟩ := Option.map_eq_some_iff.mp hafter
  obtain ⟨hinserted, hleads⟩ := Prod.mk.inj hleads
  obtain rfl : inserted = true := hinserted
  rw [hresult] at hkeeps
  have hbefore := hkeeps.2.2.1 2 (by decide)
  rw [show mgr.leads (some ∘ UInt32.toNat) 2 = some 12 from hleads] at hbefore
  revert hbefore
  decide

end StatsSets
end Bg3le
