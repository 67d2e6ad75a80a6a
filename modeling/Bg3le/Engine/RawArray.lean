import Bg3le.Engine.Containers

/-!
# The engine's arrays

An array of the engine is a header over memory of the engine's heap. An element is appended in
place while there is room and otherwise in a fresh buffer, and either way the old header still
shows the old elements.
-/

namespace Bg3le
namespace Engine

/-- The buffers of the heap by their addresses, the first so many given out. -/
structure Memory (α : Type) where
  count : ℕ
  block : ℕ → Buffer α

/-- `RawArray`, with its buffer's address or none where that is null. -/
structure RawArray where
  buffer : Option ℕ
  capacity : UInt32
  size : UInt32

variable {α : Type}

def Memory.store (memory : Memory α) (address i : ℕ) (value : α) : Option (Memory α) := do
  let buffer ← (memory.block address).store i value
  return { memory with block := Function.update memory.block address buffer }

/-- Gives out a buffer that starts with the first elements of another. -/
def Memory.copied (memory : Memory α) (room : ℕ) (source : ℕ → α) (n : ℕ) : Memory α where
  count := memory.count + 1
  block := Function.update memory.block memory.count
    ⟨room, fun i => if i < n then source i else (memory.block memory.count).get i⟩

/-- The elements that a header shows. -/
def RawArray.elements (memory : Memory α) (array : RawArray) : List α :=
  match array.buffer with
  | none => []
  | some address => (List.range array.size.toNat).map (memory.block address).get

/-- Whether the elements can be read. -/
def RawArray.readable (memory : Memory α) (array : RawArray) : Bool :=
  match array.buffer with
  | none => false
  | some address => array.size.toNat ≤ (memory.block address).room

/-- What an array grows to. -/
def RawArray.grown (array : RawArray) : UInt32 :=
  if array.capacity = 0 then 4 else array.capacity * 2

/-- `array_append`: `ready` is the allocator's state, and `given` whether it gives a buffer. A
store outside a buffer has no defined outcome. -/
def arrayAppend (ready given : Bool) (memory : Memory α) (array : RawArray) (value : α) :
    Option (Bool × Memory α × RawArray) :=
  let n := array.size.toNat
  if 2 ^ 24 < n || !ready then some (false, memory, array)
  else match (if array.size < array.capacity then array.buffer else none) with
  | some address => do
    let memory ← memory.store address n value
    return (true, memory, { array with size := array.size + 1 })
  | none =>
    if !given then some (false, memory, array)
    else if 0 < n && !array.readable memory then some (false, memory, array)
    else if array.grown.toNat < n then none
    else do
      let fresh := memory.count
      let source := fun i => (array.elements memory)[i]?.getD value
      let memory ← (memory.copied array.grown.toNat source n).store fresh n value
      return (true, memory, ⟨some fresh, array.grown, array.size + 1⟩)

/-! ## What an append leaves -/

namespace RawArray

variable {memory memory' : Memory α} {array array' : RawArray} {ready given : Bool} {value : α}

/-- The header is one of the heap's: its buffer was given out and has the room that the header
says, and a null buffer has none. -/
structure Valid (memory : Memory α) (array : RawArray) : Prop where
  given {address : ℕ} (h : array.buffer = some address) :
    address < memory.count ∧ array.capacity.toNat ≤ (memory.block address).room
  null (h : array.buffer = none) : array.capacity = 0
  fits : array.size ≤ array.capacity

theorem Valid.size_le (h : array.Valid memory) : array.size.toNat ≤ array.capacity.toNat :=
  UInt32.le_iff_toNat_le.mp h.fits

theorem Valid.size_of_null (h : array.Valid memory) (hnull : array.buffer = none) :
    array.size.toNat = 0 := by
  have hle := h.size_le
  rw [h.null hnull] at hle
  exact Nat.le_zero.mp hle

theorem Valid.length_elements (h : array.Valid memory) :
    (array.elements memory).length = array.size.toNat := by
  unfold elements
  cases hbuffer : array.buffer with
  | none => exact (h.size_of_null hbuffer).symm
  | some address => rw [List.length_map, List.length_range]

theorem Valid.readable (h : array.Valid memory) (hpos : 0 < array.size.toNat) :
    array.readable memory = true := by
  unfold RawArray.readable
  cases hbuffer : array.buffer with
  | none => exact absurd (h.size_of_null hbuffer) hpos.ne'
  | some address => exact decide_eq_true (h.size_le.trans (h.given hbuffer).2)

/-- The buffers' contents matter only below the size. -/
theorem elements_congr {address : ℕ} (hbuffer : array.buffer = some address)
    (hbuffer' : array'.buffer = some address) (hsize : array'.size = array.size)
    (hget : ∀ i < array.size.toNat,
      (memory'.block address).get i = (memory.block address).get i) :
    array'.elements memory' = array.elements memory := by
  simp only [elements, hbuffer, hbuffer', hsize]
  exact List.map_congr_left fun i hi => hget i (List.mem_range.mp hi)

/-- An append goes through. -/
structure Takes (ready given : Bool) (array : RawArray) : Prop where
  ready : ready = true
  small : array.size.toNat ≤ 2 ^ 24
  room : array.size < array.capacity ∨ given = true

/-- What an append leaves: the new header shows one element more, and the old header what it
showed. -/
structure Appended (memory : Memory α) (array : RawArray) (value : α) (memory' : Memory α)
    (array' : RawArray) : Prop where
  valid : array'.Valid memory'
  size : array'.size.toNat = array.size.toNat + 1
  elements : array'.elements memory' = array.elements memory ++ [value]
  old_valid : array.Valid memory'
  old_elements : array.elements memory' = array.elements memory

/-- The memory once an element is stored past the last. -/
private def storedAt (memory : Memory α) (address n : ℕ) (value : α) : Memory α :=
  { memory with
    block := Function.update memory.block address
      ⟨(memory.block address).room, Function.update (memory.block address).get n value⟩ }

theorem store_eq {address n : ℕ} (h : n < (memory.block address).room) :
    memory.store address n value = some (storedAt memory address n value) := by
  simp only [Memory.store, Buffer.store, if_pos h]
  rfl

theorem appended_in_place {address : ℕ} (h : array.Valid memory)
    (hbuffer : array.buffer = some address) (hroom : array.size.toNat < array.capacity.toNat) :
    Appended memory array value (storedAt memory address array.size.toNat value)
      { array with size := array.size + 1 } := by
  obtain ⟨hgiven, hcapacity⟩ := h.given hbuffer
  have hlt := array.capacity.toNat_lt
  have hsize : (array.size + 1).toNat = array.size.toNat + 1 := by
    have hone : (1 : UInt32).toNat = 1 := rfl
    rw [UInt32.toNat_add, hone]
    omega
  have hblock {address' : ℕ} (h' : array.buffer = some address') : address' < memory.count ∧
      array.capacity.toNat ≤
        ((storedAt memory address array.size.toNat value).block address').room := by
    obtain rfl : address' = address := Option.some.inj (h'.symm.trans hbuffer)
    refine ⟨hgiven, ?_⟩
    simpa only [storedAt, Function.update_self] using hcapacity
  constructor
  case valid =>
    refine ⟨hblock, h.null, ?_⟩
    rw [UInt32.le_iff_toNat_le, hsize]
    exact hroom
  case size => exact hsize
  case elements =>
    simp only [RawArray.elements, hbuffer, hsize, List.range_succ, List.map_append,
      List.map_singleton, storedAt, Function.update_self]
    congr 1
    apply List.map_congr_left
    intro i hi
    exact Function.update_of_ne (List.mem_range.mp hi).ne _ _
  case old_valid => exact ⟨hblock, h.null, h.fits⟩
  case old_elements =>
    apply elements_congr hbuffer hbuffer rfl
    intro i hi
    simp only [storedAt, Function.update_self]
    exact Function.update_of_ne hi.ne _ _

private theorem map_range_getD (l : List α) (value : α) :
    (List.range l.length).map (fun i => l[i]?.getD value) = l := by
  apply List.ext_getElem (by simp)
  intro i hi hi'
  simp [hi']

theorem appended_grown (h : array.Valid memory)
    (hgrown : array.size.toNat < array.grown.toNat) :
    Appended memory array value
      (storedAt (memory.copied array.grown.toNat
        (fun i => (array.elements memory)[i]?.getD value) array.size.toNat)
        memory.count array.size.toNat value)
      ⟨some memory.count, array.grown, array.size + 1⟩ := by
  have hlt := array.grown.toNat_lt
  have hsize : (array.size + 1).toNat = array.size.toNat + 1 := by
    have hone : (1 : UInt32).toNat = 1 := rfl
    rw [UInt32.toNat_add, hone]
    omega
  -- the old buffer was given out before, so that it is not the fresh one
  have hold {address : ℕ} (h' : array.buffer = some address) :
      address < memory.count ∧ (storedAt (memory.copied array.grown.toNat
        (fun i => (array.elements memory)[i]?.getD value) array.size.toNat)
        memory.count array.size.toNat value).block address = memory.block address := by
    have hgiven := (h.given h').1
    refine ⟨hgiven, ?_⟩
    simp only [storedAt, Memory.copied]
    rw [Function.update_of_ne hgiven.ne, Function.update_of_ne hgiven.ne]
  constructor
  case valid =>
    refine ⟨fun {address} h' => ?_, fun h' => absurd h' (by simp), ?_⟩
    · obtain rfl : memory.count = address := Option.some.inj h'
      simp [storedAt, Memory.copied]
    · show array.size + 1 ≤ array.grown
      rw [UInt32.le_iff_toNat_le, hsize]
      exact hgrown
  case size => exact hsize
  case elements =>
    have hcopied := map_range_getD (array.elements memory) value
    rw [h.length_elements] at hcopied
    conv_rhs => rw [← hcopied]
    simp only [RawArray.elements, hsize, List.range_succ, List.map_append, List.map_singleton,
      storedAt, Memory.copied, Function.update_self]
    congr 1
    apply List.map_congr_left
    intro i hi
    have hi := List.mem_range.mp hi
    rw [Function.update_of_ne hi.ne, if_pos hi]
  case old_valid =>
    refine ⟨fun h' => ?_, h.null, h.fits⟩
    obtain ⟨hgiven, hblock⟩ := hold h'
    refine ⟨Nat.lt_succ_of_lt hgiven, ?_⟩
    rw [hblock]
    exact (h.given h').2
  case old_elements =>
    cases hbuffer : array.buffer with
    | none => simp only [RawArray.elements, hbuffer]
    | some address =>
      apply elements_congr hbuffer hbuffer rfl
      intro i _
      rw [(hold hbuffer).2]

/-- An append that goes through leaves one element more, and any other changes nothing. -/
theorem Valid.arrayAppend_of_takes (h : array.Valid memory) (htakes : array.Takes ready given)
    (value : α) :
    ∃ memory' array', arrayAppend ready given memory array value = some (true, memory', array') ∧
      Appended memory array value memory' array' := by
  have hsmall := Nat.not_lt.mpr htakes.small
  unfold arrayAppend
  simp only [htakes.ready, Bool.not_true, Bool.or_false, decide_eq_true_eq, if_neg hsmall]
  by_cases hroom : array.size < array.capacity
  · have hlt := UInt32.lt_iff_toNat_lt.mp hroom
    cases hbuffer : array.buffer with
    | none =>
      rw [h.null hbuffer] at hlt
      exact absurd hlt (Nat.not_lt_zero _)
    | some address =>
      rw [if_pos hroom]
      simp only [store_eq (hlt.trans_le (h.given hbuffer).2)]
      refine ⟨_, _, rfl, ?_⟩
      rw [← hbuffer]
      exact appended_in_place h hbuffer hlt
  -- no room: the elements move to a buffer of the next capacity
  · have hgiven : given = true := htakes.room.resolve_left hroom
    have hcapacity : array.capacity.toNat = array.size.toNat := by
      have hle := h.size_le
      rw [UInt32.lt_iff_toNat_lt] at hroom
      omega
    have hgrown : array.size.toNat < array.grown.toNat := by
      unfold grown
      split
      · next hzero =>
        rw [hzero] at hcapacity
        have hfour : (4 : UInt32).toNat = 4 := rfl
        have hnull : (0 : UInt32).toNat = 0 := rfl
        omega
      · next hzero =>
        have htwo : (2 : UInt32).toNat = 2 := rfl
        have hpos : array.capacity.toNat ≠ 0 := fun h0 => hzero (UInt32.toNat_inj.mp h0)
        have hsmall := htakes.small
        rw [UInt32.toNat_mul, htwo]
        omega
    -- the old buffer is read only where it has elements
    have hreadable : (decide (0 < array.size.toNat) && !array.readable memory) = false := by
      by_cases hpos : 0 < array.size.toNat
      · rw [h.readable hpos, Bool.not_true, Bool.and_false]
      · rw [decide_eq_false hpos, Bool.false_and]
    have hroom' : array.size.toNat < ((memory.copied array.grown.toNat
        (fun i => (array.elements memory)[i]?.getD value) array.size.toNat).block
          memory.count).room := by
      simpa only [Memory.copied, Function.update_self] using hgrown
    rw [if_neg hroom, hgiven, hreadable]
    simp only [Bool.not_true, Bool.false_eq_true, if_false, if_neg hgrown.le.not_gt,
      store_eq hroom']
    exact ⟨_, _, rfl, appended_grown h hgrown⟩

theorem arrayAppend_of_not_takes (htakes : ¬ array.Takes ready given) :
    arrayAppend ready given memory array value = some (false, memory, array) := by
  unfold arrayAppend
  by_cases hfirst : (decide (2 ^ 24 < array.size.toNat) || !ready) = true
  · rw [if_pos hfirst]
  · rw [if_neg hfirst]
    rw [Bool.not_eq_true, Bool.or_eq_false_iff, decide_eq_false_iff_not, Bool.not_eq_false'] at hfirst
    have hnone (hroom : array.size < array.capacity ∨ given = true) : False :=
      htakes ⟨hfirst.2, Nat.not_lt.mp hfirst.1, hroom⟩
    have hroom : ¬ array.size < array.capacity := fun hroom => hnone (.inl hroom)
    have hgiven : given = false := by
      by_contra hgiven
      exact hnone (.inr (by simpa using hgiven))
    simp only [if_neg hroom, hgiven, Bool.not_false, if_true]

end RawArray

end Engine
end Bg3le
