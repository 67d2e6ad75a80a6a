import Mathlib.Data.Set.Insert
import Mathlib.Logic.Function.Basic

/-!
# Slots of a family of buffers

A slot is a range of one of the buffers. Slots that are apart can be overwritten in any order, and
each one reads what was written to it.
-/

namespace Slots

variable {ι β : Type*}

/-- `t` written over a buffer from `pos` on: the buffer keeps its length. -/
def overwrite (s : List β) (pos : ℕ) (t : List β) : List β :=
  s.mapIdx fun k c => if pos ≤ k then t.getD (k - pos) c else c

/-- A range of a buffer. -/
structure Slot (ι : Type*) where
  file : ι
  pos : ℕ
  len : ℕ
deriving DecidableEq

/-- What a slot holds. -/
def read (B : ι → List β) (s : Slot ι) : List β := ((B s.file).drop s.pos).take s.len

/-- A slot of a buffer is overwritten. -/
def write [DecidableEq ι] (B : ι → List β) (s : Slot ι) (t : List β) : ι → List β :=
  Function.update B s.file (overwrite (B s.file) s.pos t)

/-- Two slots without a common place. -/
def Apart (s s' : Slot ι) : Prop :=
  s.file ≠ s'.file ∨ s.pos + s.len ≤ s'.pos ∨ s'.pos + s'.len ≤ s.pos

/-- A place inside of a slot. -/
def Slot.Covers (s : Slot ι) (x : ι) (k : ℕ) : Prop :=
  s.file = x ∧ s.pos ≤ k ∧ k < s.pos + s.len

variable {B : ι → List β} {s s' : Slot ι} {t : List β} {x : ι} {k pos : ℕ}

/-! ## One slot -/

@[simp]
theorem length_overwrite (s : List β) (pos : ℕ) (t : List β) :
    (overwrite s pos t).length = s.length :=
  List.length_mapIdx

theorem getElem?_overwrite {s : List β} (hfits : pos + t.length ≤ s.length) (k : ℕ) :
    (overwrite s pos t)[k]? =
      if pos ≤ k ∧ k < pos + t.length then t[k - pos]? else s[k]? := by
  unfold overwrite
  rw [List.getElem?_mapIdx]
  by_cases hk : pos ≤ k
  · by_cases hk' : k < pos + t.length
    · have hlt : k - pos < t.length := by omega
      have hlt' : k < s.length := by omega
      rw [if_pos ⟨hk, hk'⟩, List.getElem?_eq_getElem hlt', List.getElem?_eq_getElem hlt]
      simp [hk, List.getD_eq_getElem?_getD, hlt]
    · have hnone : t[k - pos]? = none := List.getElem?_eq_none (by omega)
      rw [if_neg fun h => hk' h.2]
      simp [List.getD_eq_getElem?_getD, hnone]
  · rw [if_neg fun h => hk h.1]
    simp [hk]

/-- Overwriting replaces a range by another of its length. -/
theorem overwrite_eq {s : List β} (hfits : pos + t.length ≤ s.length) :
    overwrite s pos t = s.take pos ++ t ++ s.drop (pos + t.length) := by
  apply List.ext_getElem?
  intro k
  rw [getElem?_overwrite hfits, List.append_assoc]
  have htake : (s.take pos).length = pos := by
    rw [List.length_take]
    omega
  by_cases hk : pos ≤ k
  · rw [List.getElem?_append_right (by omega), htake]
    by_cases hk' : k < pos + t.length
    · rw [if_pos ⟨hk, hk'⟩, List.getElem?_append_left (by omega)]
    · rw [if_neg fun h => hk' h.2, List.getElem?_append_right (by omega), List.getElem?_drop]
      congr 1
      omega
  · rw [if_neg fun h => hk h.1, List.getElem?_append_left (by omega), List.getElem?_take_of_lt (by omega)]

/-- Overwriting a range and then the one behind it overwrites both at once. -/
theorem overwrite_append {s u : List β} (hfits : pos + (t ++ u).length ≤ s.length) :
    overwrite (overwrite s pos t) (pos + t.length) u = overwrite s pos (t ++ u) := by
  rw [List.length_append] at hfits
  apply List.ext_getElem?
  intro k
  rw [getElem?_overwrite (by rw [length_overwrite]; omega), getElem?_overwrite (by omega),
    getElem?_overwrite (by rw [List.length_append]; omega), List.length_append]
  by_cases hbehind : pos + t.length ≤ k
  · rw [List.getElem?_append_right (by omega), Nat.sub_sub]
    have hnot : ¬(pos ≤ k ∧ k < pos + t.length) := by omega
    rw [if_neg hnot, Nat.add_assoc]
    by_cases hin : k < pos + (t.length + u.length)
    · rw [if_pos ⟨hbehind, hin⟩, if_pos ⟨by omega, hin⟩]
    · rw [if_neg fun h => hin h.2, if_neg fun h => hin h.2]
  · rw [if_neg fun h => hbehind h.1]
    by_cases hin : pos ≤ k
    · rw [if_pos ⟨hin, by omega⟩, if_pos ⟨hin, by omega⟩, List.getElem?_append_left (by omega)]
    · rw [if_neg fun h => hin h.1, if_neg fun h => hin h.1]

/-- Overwriting twice with the same is overwriting once. -/
theorem overwrite_self {s : List β} (hfits : pos + t.length ≤ s.length) :
    overwrite (overwrite s pos t) pos t = overwrite s pos t := by
  apply List.ext_getElem?
  intro k
  rw [getElem?_overwrite (by rw [length_overwrite]; exact hfits), getElem?_overwrite hfits]
  split
  · rfl
  · rfl

theorem getElem?_read (B : ι → List β) (s : Slot ι) (k : ℕ) :
    (read B s)[k]? = if k < s.len then (B s.file)[s.pos + k]? else none := by
  rw [read, List.getElem?_take]
  split
  · rw [List.getElem?_drop]
  · rfl

theorem length_read (hfits : s.pos + s.len ≤ (B s.file).length) : (read B s).length = s.len := by
  rw [read, List.length_take, List.length_drop]
  omega

/-- Two families that agree on the places of a slot have it read the same. -/
theorem read_congr {B' : ι → List β} (h : ∀ k, s.Covers s.file k → (B' s.file)[k]? = (B s.file)[k]?) :
    read B' s = read B s := by
  apply List.ext_getElem?
  intro k
  rw [getElem?_read, getElem?_read]
  split
  · exact h _ ⟨rfl, by omega, by omega⟩
  · rfl

/-- A place inside of a slot that two families read the same. -/
theorem getElem?_of_read {B' : ι → List β} (h : read B' s = read B s) (hcovers : s.Covers x k) :
    (B' x)[k]? = (B x)[k]? := by
  obtain ⟨rfl, hpos, hlt⟩ := hcovers
  have hget := congrArg (·[k - s.pos]?) h
  simp only [getElem?_read] at hget
  rwa [if_pos (by omega), if_pos (by omega), Nat.add_sub_cancel' hpos] at hget

section Write

variable [DecidableEq ι]

@[simp]
theorem length_write (B : ι → List β) (s : Slot ι) (t : List β) (x : ι) :
    (write B s t x).length = (B x).length := by
  unfold write
  by_cases hx : x = s.file
  · rw [hx, Function.update_self, length_overwrite]
  · rw [Function.update_of_ne hx]

theorem getElem?_write (hfits : s.pos + s.len ≤ (B s.file).length) (ht : t.length = s.len)
    (hcovers : ¬ s.Covers x k) : (write B s t x)[k]? = (B x)[k]? := by
  unfold write
  by_cases hx : x = s.file
  · rw [hx, Function.update_self, getElem?_overwrite (by omega), if_neg]
    rintro ⟨hk, hk'⟩
    exact hcovers ⟨hx.symm, hk, by omega⟩
  · rw [Function.update_of_ne hx]

theorem read_write_self (hfits : s.pos + s.len ≤ (B s.file).length) (ht : t.length = s.len) :
    read (write B s t) s = t := by
  apply List.ext_getElem?
  intro k
  rw [getElem?_read, write, Function.update_self, getElem?_overwrite (by omega)]
  split
  · rw [if_pos (by omega), Nat.add_sub_cancel_left]
  · rw [List.getElem?_eq_none (by omega)]

theorem read_write_apart (hfits : s.pos + s.len ≤ (B s.file).length) (ht : t.length = s.len)
    (hapart : Apart s s') : read (write B s t) s' = read B s' := by
  apply read_congr
  rintro k ⟨-, hk, hk'⟩
  apply getElem?_write hfits ht
  rintro ⟨hfile, hpos, hpos'⟩
  rcases hapart with hne | hle | hle
  · exact hne hfile
  · omega
  · omega

end Write

/-! ## Classes of slots

Every slot of a family belongs to a class, and a class may have a target: the text that all of its
slots are to hold. -/

/-- Slots of the family are apart, or the same slot of the same class. -/
def Separate (S : Set (ℕ × Slot ι)) : Prop :=
  ∀ p ∈ S, ∀ q ∈ S, p = q ∨ Apart p.2 q.2

/-- The buffers `B'` after the slots `done` of the family were given the targets of their classes. -/
structure Progress (S : Set (ℕ × Slot ι)) (target : ℕ → Option (List β)) (B B' : ι → List β)
    (done : Set (ℕ × Slot ι)) : Prop where
  length_eq (x : ι) : (B' x).length = (B x).length
  rest {x : ι} {k : ℕ} (h : ∀ p ∈ S, ¬ p.2.Covers x k) : (B' x)[k]? = (B x)[k]?
  read_done {p : ℕ × Slot ι} (hp : p ∈ S) (hdone : p ∈ done) :
    read B' p.2 = (target p.1).getD (read B p.2)
  read_todo {p : ℕ × Slot ι} (hp : p ∈ S) (htodo : p ∉ done) : read B' p.2 = read B p.2

variable {S done done' : Set (ℕ × Slot ι)} {target : ℕ → Option (List β)} {B' : ι → List β}
  {p : ℕ × Slot ι}

theorem Progress.start (S : Set (ℕ × Slot ι)) (target : ℕ → Option (List β)) (B : ι → List β) :
    Progress S target B B ∅ :=
  ⟨fun _ => rfl, fun _ => rfl, fun _ h => absurd h (Set.notMem_empty _), fun _ _ => rfl⟩

/-- Only the slots of the family matter. -/
theorem Progress.congr (h : Progress S target B B' done) (hdone : ∀ p ∈ S, p ∈ done ↔ p ∈ done') :
    Progress S target B B' done' :=
  ⟨h.length_eq, h.rest, fun hp hd => h.read_done hp ((hdone _ hp).mpr hd),
    fun hp ht => h.read_todo hp fun hd => ht ((hdone _ hp).mp hd)⟩

/-- Slots that hold what they are to hold are done. -/
theorem Progress.skip (h : Progress S target B B' done)
    (hsame : ∀ q ∈ done', q ∈ S → (target q.1).getD (read B q.2) = read B q.2) :
    Progress S target B B' (done ∪ done') where
  length_eq := h.length_eq
  rest := h.rest
  read_done {q} hq hdone := by
    by_cases hold : q ∈ done
    · exact h.read_done hq hold
    · rw [h.read_todo hq hold, hsame q (hdone.resolve_left hold) hq]
  read_todo hq htodo := h.read_todo hq fun hd => htodo (.inl hd)

/-- One slot is given its target. -/
theorem Progress.write [DecidableEq ι] (h : Progress S target B B' done) (hS : Separate S) (hp : p ∈ S)
    (hfits : p.2.pos + p.2.len ≤ (B p.2.file).length) (ht : t.length = p.2.len)
    (htarget : target p.1 = some t) : Progress S target B (write B' p.2 t) (done ∪ {p}) := by
  have hfits' : p.2.pos + p.2.len ≤ (B' p.2.file).length := by rwa [h.length_eq]
  refine ⟨fun x => ?_, fun {x k} hcovers => ?_, fun {q} hq hdone => ?_, fun {q} hq htodo => ?_⟩
  · rw [length_write, h.length_eq]
  · rw [getElem?_write hfits' ht (hcovers p hp), h.rest hcovers]
  · by_cases heq : q = p
    · rw [heq, read_write_self hfits' ht, htarget, Option.getD_some]
    · rcases hS p hp q hq with rfl | hapart
      · exact absurd rfl heq
      · rw [read_write_apart hfits' ht hapart]
        exact h.read_done hq (hdone.resolve_right heq)
  · have hne : q ≠ p := fun heq => htodo (.inr heq)
    rcases hS p hp q hq with rfl | hapart
    · exact absurd rfl hne
    · rw [read_write_apart hfits' ht hapart]
      exact h.read_todo hq fun hd => htodo (.inl hd)

end Slots
