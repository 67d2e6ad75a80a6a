import Bg3le.Library.Since
import Bg3le.Library.Run
import Bg3le.Net.Vars

/-!
# What a flush takes, and what becomes of it
-/

namespace Bg3le
namespace Vars

open Lua

variable {r : Remote} {c : Context} {mod user onTick : Bool} {v d : Var}

/-! ### Stores -/

theorem find_cons {α β : Type} [DecidableEq α] (k : α) (e : α × β) (table : List (α × β)) :
    find k (e :: table) = if e.1 = k then some e.2 else find k table := by
  unfold find
  rw [List.find?_cons]
  by_cases h : e.1 = k <;> simp [h]

/-- A key filtered away is not found and the others are. -/
theorem find_filter {α β : Type} [DecidableEq α] (k key : α) (table : List (α × β)) :
    find k (table.filter fun e => e.1 ≠ key) = if k = key then none else find k table := by
  induction table with
  | nil => simp [find]
  | cons e rest ih =>
    rw [List.filter_cons, find_cons]
    by_cases he : e.1 = key
    · simp only [he, ne_eq, not_true_eq_false, decide_false, Bool.false_eq_true, if_false, ih]
      by_cases hk : k = key
      · simp [hk]
      · simp [hk, Ne.symm hk]
    · simp only [ne_eq, he, not_false_eq_true, decide_true, if_true, find_cons, ih]
      by_cases hk : k = key
      · simp [hk, he]
      · simp [hk]

/-- A key stored is found and the others answer as before. -/
theorem find_store {α β : Type} [DecidableEq α] (k key : α) (b : β) (table : List (α × β)) :
    find k (store key b table) = if k = key then some b else find k table := by
  unfold store
  rw [find_cons, find_filter]
  by_cases h : k = key
  · simp [h]
  · simp [h, Ne.symm h]

theorem value_setValue (c : Context) (v w : Var) (y : Value) :
    (c.setValue v y).value w = if w = v then y else c.value w := by
  unfold Context.setValue Context.value
  cases hy : y.isNil with
  | true =>
    have hnil : y = .nil := by cases y <;> simp_all [Value.isNil]
    simp only [if_true, find_filter]
    split <;> simp [hnil]
  | false =>
    simp only [Bool.false_eq_true, if_false, find_store]
    split <;> simp

/-! ### Gathering -/

/-- A payload's variables after one is put. -/
theorem mem_put {out : Payload} {x : Value} :
    (∃ y, (d, y) ∈ out.put v x) ↔ d = v ∨ ∃ y, (d, y) ∈ out := by
  unfold Payload.put
  split
  · rename_i hany
    obtain ⟨e, he, heq⟩ := List.any_eq_true.mp hany
    have hv : e.1 = v := of_decide_eq_true heq
    constructor
    · exact .inr
    · rintro (rfl | h)
      · exact ⟨e.2, hv ▸ he⟩
      · exact h
  · simp only [List.mem_append, List.mem_singleton, Prod.mk.injEq]
    constructor
    · rintro ⟨y, h | ⟨rfl, _⟩⟩
      · exact .inr ⟨y, h⟩
      · exact .inl rfl
    · rintro (rfl | ⟨y, h⟩)
      · exact ⟨x, .inr ⟨rfl, rfl⟩⟩
      · exact ⟨y, .inl h⟩

/-- What taking a dirty variable sends: itself, or the user variables of its key that are set. -/
def Covers (c : Context) (d v : Var) : Prop :=
  if d.owner = kEverywhere then
    ∃ e ∈ c.values, e.1.mod = false ∧ e.1.key = d.key ∧ v = { d with owner := e.1.owner }
  else v = d

/-- A payload's variables after several are put. -/
theorem mem_foldl_put {entries out : Payload} {f : Var × Value → Var} :
    (∃ y, (v, y) ∈ entries.foldl (fun out e => Payload.put out (f e) e.2) out) ↔
      (∃ e ∈ entries, v = f e) ∨ ∃ y, (v, y) ∈ out := by
  induction entries generalizing out with
  | nil => simp
  | cons e rest ih =>
    rw [List.foldl_cons, ih, mem_put]
    simp only [List.mem_cons, exists_eq_or_imp]
    rw [or_left_comm, ← or_assoc]

/-- Gathering a dirty variable adds those it covers. -/
theorem mem_gather {out : Payload} :
    (∃ y, (v, y) ∈ c.gather out d) ↔ Covers c d v ∨ ∃ y, (v, y) ∈ out := by
  unfold Context.gather Covers
  by_cases h : d.owner = kEverywhere
  · rw [if_pos h, if_pos h, mem_foldl_put]
    simp [and_assoc]
  · rw [if_neg h, if_neg h, mem_put]

/-- Gathering the dirty variables adds all they cover. -/
theorem mem_foldl_gather {ds : List Var} {out : Payload} :
    (∃ y, (v, y) ∈ ds.foldl c.gather out) ↔
      (∃ d ∈ ds, Covers c d v) ∨ ∃ y, (v, y) ∈ out := by
  induction ds generalizing out with
  | nil => simp
  | cons d rest ih =>
    rw [List.foldl_cons, ih, mem_gather]
    simp only [List.mem_cons, exists_eq_or_imp]
    rw [or_left_comm, ← or_assoc]

/-- What is taken to be sent are the variables that a dirty one of the mod covers and its options
let cross. -/
theorem mem_take : (∃ y, (v, y) ∈ (take mod onTick c).1) ↔
    ∃ d ∈ c.dirty, d.mod = mod ∧ c.syncs d onTick = true ∧ Covers c d v := by
  unfold take
  rw [mem_foldl_gather]
  simp only [List.mem_filter, decide_eq_true_eq, List.not_mem_nil, exists_false, or_false]
  constructor
  · rintro ⟨d, ⟨⟨hd, hmod⟩, hsyncs⟩, hcovers⟩
    exact ⟨d, hd, hmod, hsyncs, hcovers⟩
  · rintro ⟨d, hd, hmod, hsyncs, hcovers⟩
    exact ⟨d, ⟨⟨hd, hmod⟩, hsyncs⟩, hcovers⟩

/-- A kind of variables that a flush goes through. -/
def chosen (mod user : Bool) (v : Var) : Bool := if v.mod then mod else user

/-- What stays dirty is what was not taken. -/
theorem mem_take_dirty : d ∈ (take mod onTick c).2.dirty ↔
    d ∈ c.dirty ∧ (d.mod ≠ mod ∨ onTick = true ∧ c.syncs d onTick = false) := by
  show d ∈ c.dirty.filter _ ↔ _
  simp

/-- Taking changes the marks only. -/
theorem covers_take {m : Bool} : Covers (take m onTick c).2 d v ↔ Covers c d v := Iff.rfl

theorem syncs_take {m : Bool} (b : Bool) : (take m onTick c).2.syncs d b = c.syncs d b := rfl

/-- What a flush puts in its payload. -/
theorem mem_takeAll : (∃ y, (v, y) ∈ (takeAll mod user onTick c).1) ↔
    ∃ d ∈ c.dirty, chosen mod user d = true ∧ c.syncs d onTick = true ∧ Covers c d v := by
  have hsplit : (∃ y, (v, y) ∈ (takeAll mod user onTick c).1) ↔
      (mod = true ∧ ∃ y, (v, y) ∈ (take true onTick c).1) ∨
        (user = true ∧ ∃ y, (v, y) ∈ (take false onTick c).1) := by
    unfold takeAll
    cases mod <;> cases user <;> simp only [Bool.false_eq_true, if_true, if_false, List.mem_append,
      List.not_mem_nil, false_or, or_false, exists_or, exists_false, true_and, false_and]
    -- the mod variables that were taken are no user variables
    have hrest : (∃ y, (v, y) ∈ (take false onTick (take true onTick c).2).1) ↔
        ∃ y, (v, y) ∈ (take false onTick c).1 := by
      rw [mem_take, mem_take]
      simp only [mem_take_dirty, syncs_take, covers_take]
      constructor
      · rintro ⟨d, ⟨hd, _⟩, h⟩
        exact ⟨d, hd, h⟩
      · rintro ⟨d, hd, hmod, h⟩
        exact ⟨d, ⟨hd, .inl (by simp [hmod])⟩, hmod, h⟩
    rw [hrest]
  rw [hsplit, mem_take, mem_take]
  unfold chosen
  constructor
  · rintro (⟨hon, d, hd, hmod, h⟩ | ⟨hon, d, hd, hmod, h⟩)
    · exact ⟨d, hd, by simp [hmod, hon], h⟩
    · exact ⟨d, hd, by simp [hmod, hon], h⟩
  · rintro ⟨d, hd, hchosen, h⟩
    cases hmod : d.mod with
    | true => exact .inl ⟨by simpa [hmod] using hchosen, d, hd, hmod, h⟩
    | false => exact .inr ⟨by simpa [hmod] using hchosen, d, hd, hmod, h⟩

/-- What it leaves marked: the kinds it does not go through, and on the tick what is not due. -/
theorem mem_takeAll_dirty : d ∈ (takeAll mod user onTick c).2.dirty ↔
    d ∈ c.dirty ∧ (chosen mod user d = false ∨ onTick = true ∧ c.syncs d onTick = false) := by
  unfold takeAll chosen
  cases mod <;> cases user <;> cases hmod : d.mod <;>
    simp [mem_take_dirty, syncs_take, hmod]

theorem takeAll_defs (mod user onTick : Bool) (c : Context) :
    (takeAll mod user onTick c).2.defs = c.defs := by
  unfold takeAll
  cases mod <;> cases user <;> rfl

theorem takeAll_values (mod user onTick : Bool) (c : Context) :
    (takeAll mod user onTick c).2.values = c.values := by
  unfold takeAll
  cases mod <;> cases user <;> rfl

theorem takeAll_server (mod user onTick : Bool) (c : Context) :
    (takeAll mod user onTick c).2.server = c.server := by
  unfold takeAll
  cases mod <;> cases user <;> rfl

/-! ### A flush that raises -/

/-- Whether a flush hands its payload to `NetSyncVars` too. -/
def remote (r : Remote) (c : Context) : Bool := c.server || !r.hosting

/-- Whether a value can be serialised on its own, for where it is to go. -/
def Serialisable (r : Remote) (c : Context) (value : Value) : Prop :=
  value.stringifies r.labelled 0 = true ∧
    (remote r c = true → value.isTable = true → r.binary value = true)

/-- The payload was sent to both destinations. -/
def Sent (r : Remote) (c : Context) (f : Flushed) (v : Var) : Prop :=
  (∃ payload, f.posted = some payload ∧ ∃ y, (v, y) ∈ payload) ∧
    (remote r c = true → ∃ payload, f.synced = some payload ∧ ∃ y, (v, y) ∈ payload)

/-- A variable is still marked, or all user variables of its key are. -/
def Marked (c : Context) (v : Var) : Prop :=
  v ∈ c.dirty ∨ v.mod = false ∧ { v with owner := kEverywhere } ∈ c.dirty

/-- A variable that a flush is to send: marked, or a user variable of a key that is. -/
def Due (c : Context) (mod user onTick : Bool) (v : Var) : Prop :=
  ∃ d ∈ c.dirty, chosen mod user d = true ∧ c.syncs d onTick = true ∧ Covers c d v ∧
    (d.mod = true → d.owner ≠ kEverywhere)

/-- All variables in the payload can be serialised in it: a value lies four tables deep there. -/
def AllSerialise (r : Remote) (c : Context) (payload : Payload) : Prop :=
  ∀ e ∈ payload, e.2.stringifies r.labelled 4 = true ∧
    (remote r c = true → e.2.isTable = true → r.binary e.2 = true)

mutual

/-- A value that lies within the depth does so further up, and one that needs fewer labels does
with more. -/
theorem Value.stringifies_mono : ∀ (value : Value) {labelled labelled' : ℕ → Bool} {m n : ℕ},
    m ≤ n → (∀ id, labelled id = true → labelled' id = true) →
      value.stringifies labelled n = true → value.stringifies labelled' m = true
  | .table entries, _, _, m, n, hle, hmore, h => by
    simp only [Value.stringifies, Bool.and_eq_true, decide_eq_true_eq] at h ⊢
    exact ⟨hle.trans h.1, Entries.stringifies_mono entries (Nat.succ_le_succ hle) hmore h.2⟩
  | .other id, _, _, _, _, hle, hmore, h => by
    simp only [Value.stringifies, Bool.and_eq_true, decide_eq_true_eq] at h ⊢
    exact ⟨hle.trans h.1, hmore id h.2⟩
  | .nil, _, _, _, _, hle, _, h => decide_eq_true (hle.trans (of_decide_eq_true h))
  | .boolean _, _, _, _, _, hle, _, h => decide_eq_true (hle.trans (of_decide_eq_true h))
  | .integer _, _, _, _, _, hle, _, h => decide_eq_true (hle.trans (of_decide_eq_true h))
  | .number _, _, _, _, _, hle, _, h => decide_eq_true (hle.trans (of_decide_eq_true h))
  | .string _, _, _, _, _, hle, _, h => decide_eq_true (hle.trans (of_decide_eq_true h))

theorem Entries.stringifies_mono : ∀ (entries : Entries) {labelled labelled' : ℕ → Bool}
    {m n : ℕ}, m ≤ n → (∀ id, labelled id = true → labelled' id = true) →
      entries.stringifies labelled n = true → entries.stringifies labelled' m = true
  | .nil, _, _, _, _, _, _, _ => rfl
  | .cons key value rest, _, _, _, _, hle, hmore, h => by
    simp only [Entries.stringifies, Bool.and_eq_true] at h ⊢
    exact ⟨⟨h.1.1, Value.stringifies_mono value hle hmore h.1.2⟩,
      Entries.stringifies_mono rest hle hmore h.2⟩

end

/-- The user variables of one key were registered together. -/
theorem defs_of_covers (h : Covers c d v) (hreal : d.mod = true → d.owner ≠ kEverywhere) :
    c.defs v = c.defs d ∧ v.mod = d.mod := by
  unfold Covers at h
  split at h
  · rename_i hstar
    obtain ⟨e, _, _, _, rfl⟩ := h
    have hmod : d.mod = false := by
      cases hd : d.mod with
      | false => rfl
      | true => exact absurd hstar (hreal hd)
    exact ⟨by simp [Context.defs, hmod], rfl⟩
  · rw [h]
    exact ⟨rfl, rfl⟩

/-- Nothing that was due stays marked. -/
theorem not_marked_of_due (h : Due c mod user onTick v) :
    ¬ Marked (takeAll mod user onTick c).2 v := by
  obtain ⟨d, _, hchosen, hsyncs, hcovers, hreal⟩ := h
  obtain ⟨hdefs, hmod⟩ := defs_of_covers hcovers hreal
  have hsyncs' : ∀ w, c.defs w = c.defs d → c.syncs w onTick = true := by
    intro w hw
    unfold Context.syncs
    rw [hw]
    exact hsyncs
  rintro (hmem | ⟨huser, hmem⟩)
  · obtain ⟨_, hnot | ⟨_, hnot⟩⟩ := mem_takeAll_dirty.mp hmem
    · rw [chosen, hmod] at hnot
      exact absurd (hchosen.symm.trans hnot) (by simp)
    · exact absurd ((hsyncs' v hdefs).symm.trans hnot) (by simp)
  · obtain ⟨_, hnot | ⟨_, hnot⟩⟩ := mem_takeAll_dirty.mp hmem
    · rw [chosen, show ({ v with owner := kEverywhere } : Var).mod = d.mod from hmod] at hnot
      exact absurd (hchosen.symm.trans hnot) (by simp)
    · have hstar : c.defs { v with owner := kEverywhere } = c.defs d := by
        rw [← hdefs]
        simp [Context.defs, huser]
      exact absurd ((hsyncs' _ hstar).symm.trans hnot) (by simp)

/-- A payload is written exactly when each value in it is. -/
theorem payload_stringifies {payload : Payload} : payload.stringifies r.labelled = true ↔
    ∀ e ∈ payload, e.2.stringifies r.labelled 4 = true := by
  unfold Payload.stringifies
  exact List.all_eq_true

/-- To a remote party a payload goes where each table in it has a binary form. -/
theorem syncRemote_of_remote {payload : Payload} (h : remote r c = true) :
    syncRemote r c payload =
      if payload.all (fun e => !e.2.isTable || r.binary e.2) then some (some payload) else none := by
  unfold remote at h
  unfold syncRemote
  rw [if_neg (by cases hs : c.server <;> simp_all)]

/-- To a local party nothing goes over the net. -/
theorem syncRemote_of_local {payload : Payload} (h : remote r c = false) :
    syncRemote r c payload = some none := by
  unfold remote at h
  unfold syncRemote
  rw [if_pos (by cases hs : c.server <;> simp_all)]

theorem payload_binary {payload : Payload} :
    payload.all (fun e => !e.2.isTable || r.binary e.2) = true ↔
      ∀ e ∈ payload, e.2.isTable = true → r.binary e.2 = true := by
  rw [List.all_eq_true]
  apply forall₂_congr
  intro e _
  cases e.2.isTable <;> simp

/-- What comes of a flush: everything is sent, or nothing was. -/
theorem sent_flush_iff {payload : Payload} {c' : Context}
    (htake : takeAll mod user onTick c = (payload, c')) {e : Var × Value} (he : e ∈ payload) :
    Sent r c (flush r mod user onTick c) e.1 ↔ AllSerialise r c payload := by
  have hne : payload ≠ [] := List.ne_nil_of_mem he
  have hremote : remote r c' = remote r c := by
    have hserver : c'.server = c.server := by
      have htaken := takeAll_server mod user onTick c
      rwa [htake] at htaken
    unfold remote
    rw [hserver]
  unfold flush
  simp only [htake, if_neg hne]
  -- the whole payload goes as one, so it goes exactly when each value in it can
  by_cases htext : payload.stringifies r.labelled = true
  · simp only [htext, Bool.not_true, Bool.false_eq_true, if_false]
    cases hr : remote r c with
    | false =>
      rw [syncRemote_of_local (hremote.trans hr)]
      constructor
      · exact fun _ e he => ⟨payload_stringifies.mp htext e he, by simp [hr]⟩
      · exact fun _ => ⟨⟨payload, rfl, e.2, he⟩, by simp [hr]⟩
    | true =>
      rw [syncRemote_of_remote (hremote.trans hr)]
      by_cases hbinary : payload.all (fun e => !e.2.isTable || r.binary e.2) = true
      · rw [if_pos hbinary]
        constructor
        · exact fun _ e he => ⟨payload_stringifies.mp htext e he,
            fun _ => payload_binary.mp hbinary e he⟩
        · exact fun _ => ⟨⟨payload, rfl, e.2, he⟩, fun _ => ⟨payload, rfl, e.2, he⟩⟩
      · rw [if_neg hbinary]
        constructor
        · intro hsent
          obtain ⟨sent, hnone, _⟩ := hsent.2 hr
          exact absurd hnone (by simp)
        · exact fun hall => absurd (payload_binary.mpr fun e he => (hall e he).2 hr) hbinary
  · rw [Bool.not_eq_true] at htext
    simp only [htext, Bool.not_false, if_true]
    constructor
    · intro hsent
      obtain ⟨sent, hnone, _⟩ := hsent.1
      exact absurd hnone (by simp)
    · intro hall
      have := payload_stringifies.mpr fun e he => (hall e he).1
      rw [htext] at this
      exact absurd this (by simp)

/-- A flush leaves the context without what it took. -/
theorem flush_context : (flush r mod user onTick c).context = (takeAll mod user onTick c).2 := by
  unfold flush
  cases takeAll mod user onTick c with
  | mk payload c' =>
    simp only
    split
    · rfl
    · split
      · rfl
      · split <;> rfl

/-- A mod with two synced variables, one of them set to a function. -/
def demoContext : Context :=
  let options : Options := fun name => if name = .syncToClient then some true else none
  { server := true
    modDefs := [((bytes "m", bytes "a"), options), ((bytes "m", bytes "b"), options)]
    values := [({ mod := true, owner := bytes "m", key := bytes "a" }, .integer 5),
      ({ mod := true, owner := bytes "m", key := bytes "b" }, .other 1)]
    dirty := [{ mod := true, owner := bytes "m", key := bytes "a" },
      { mod := true, owner := bytes "m", key := bytes "b" }] }

end Vars
end Bg3le
