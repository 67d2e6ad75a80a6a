import Bg3le.Lua.EntityEvents
import Mathlib.Data.List.Nodup
import Mathlib.Order.Basic

/-!
# A fire calls all that match, as long as no handler subscribes

One invariant links the table and the traversals under way to the history; it holds along every
run in which nothing is added to the table while it is traversed.
-/

namespace Bg3le
namespace EntityEvents

open EntitySubs

variable {E : Type} {t t' : Table E} {s s' : State E} {past before : List (Event E)} {e : Event E}
  {id fire : ℕ} {sub : Subscription E} {f : Frame E} {fired : Fired E}

/-! ## The history -/

/-- An event after which a subscription is gone. -/
def Event.Ends (id : ℕ) (e : Event E) : Prop := e = .unsubscribed id ∨ ∃ fire, e = .ran fire id true

theorem gone_concat : Gone (past ++ [e]) id ↔ Gone past id ∨ e.Ends id := by
  unfold Gone Event.Ends
  simp only [List.mem_append, List.mem_singleton, exists_or, eq_comm (b := e)]
  tauto

theorem Gone.append (h : Gone past id) (later : List (Event E)) : Gone (past ++ later) id :=
  h.imp (List.mem_append_left _) fun ⟨fire, hran⟩ => ⟨fire, List.mem_append_left _ hran⟩

/-- An event of a fire. -/
def Event.Of (fire : ℕ) : Event E → Prop
  | .ran fire' _ _ => fire' = fire
  | .ended fire' => fire' = fire
  | .raised fire' => fire' = fire
  | _ => False

theorem over_concat (h : ¬Over past fire) (he : ¬e.Of fire) : ¬Over (past ++ [e]) fire := by
  unfold Over
  rw [List.mem_append, List.mem_append, List.mem_singleton, List.mem_singleton]
  rintro ((hended | heq) | hraised | heq)
  · exact h (Or.inl hended)
  · exact he (heq ▸ rfl)
  · exact h (Or.inr hraised)
  · exact he (heq ▸ rfl)

theorem Over.append (h : Over past fire) (later : List (Event E)) : Over (past ++ later) fire :=
  h.imp (List.mem_append_left _) (List.mem_append_left _)

theorem Began.append (h : Began past fire fired before) (later : List (Event E)) :
    Began (past ++ later) fire fired before := by
  obtain ⟨since, rfl⟩ := h
  exact ⟨since ++ later, by simp⟩

theorem Began.mem (h : Began past fire fired before) (he : e ∈ before) : e ∈ past := by
  obtain ⟨since, rfl⟩ := h
  exact List.mem_append_left _ he

theorem Began.began (h : Began past fire fired before) : .began fire fired ∈ past := by
  obtain ⟨since, rfl⟩ := h
  exact List.mem_append_right _ List.mem_cons_self

theorem ends_unsubscribed (id id' : ℕ) : (Event.unsubscribed id : Event E).Ends id' ↔ id' = id := by
  unfold Event.Ends
  constructor
  · rintro (heq | ⟨fire, heq⟩)
    · exact (Event.unsubscribed.inj heq).symm
    · exact absurd heq nofun
  · rintro rfl
    exact Or.inl rfl

theorem opEvents_unsubscribe (t : Table E) (id : ℕ) :
    opEvents t (.unsubscribe id) = if (t.entitySubs id).isSome then [.unsubscribed id] else [] := rfl

/-- An operation that subscribes leaves the new entry in the history. -/
theorem opEvents_eq {op : Op E} (h : ∀ id, op ≠ .unsubscribe id) :
    opEvents t op =
      ((op.apply t).entitySubs t.nextSub).toList.map fun sub => .subscribed t.nextSub sub := by
  cases op with
  | unsubscribe id => exact absurd rfl (h id)
  | subscribe watch kind component entity once flags => rfl
  | subscribeSystem index post once => rfl

variable [DecidableEq E]

/-- An id is given out once. -/
theorem subscribed_unique {sub' : Subscription E} (h : Throughout Right past)
    (hsub : .subscribed id sub ∈ past) (hsub' : .subscribed id sub' ∈ past) : sub = sub' := by
  obtain ⟨pre, later, rfl, hright⟩ := h.of_mem hsub
  rcases List.mem_append.mp hsub' with hbefore | hafter
  · exact absurd hbefore (hright sub')
  · rcases List.mem_cons.mp hafter with heq | hlater
    · exact (Event.subscribed.inj heq).2.symm
    · obtain ⟨mid, last, rfl⟩ := List.append_of_mem hlater
      have hlate := h (pre ++ .subscribed id sub :: mid) (.subscribed id sub') last (by simp)
      exact absurd (List.mem_append_right _ List.mem_cons_self) (hlate sub)

/-- What is over has begun. -/
theorem began_of_over (h : Throughout Right past) (hover : Over past fire) :
    ∃ fired, .began fire fired ∈ past := by
  rcases hover with hended | hraised
  · obtain ⟨pre, later, rfl, -, fired, before, hbegan, -⟩ := h.of_mem hended
    exact ⟨fired, List.mem_append_left _ hbegan.began⟩
  · obtain ⟨pre, later, -, hright⟩ := h.of_mem hraised
    exact hright.elim

theorem began_of_ran {once : Bool} (h : Throughout Right past) (hran : .ran fire id once ∈ past) :
    ∃ fired, .began fire fired ∈ past := by
  obtain ⟨pre, later, rfl, -, -, -, fired, before, sub, hbegan, -⟩ := h.of_mem hran
  exact ⟨fired, List.mem_append_left _ hbegan.began⟩

/-! ## The table -/

/-- The table has what the history says. -/
structure Tables (t : Table E) (past : List (Event E)) : Prop where
  right : Throughout Right past
  old : ∀ id sub, .subscribed id sub ∈ past → id < t.nextSub
  goneOld : ∀ id, Gone past id → id < t.nextSub
  entries : ∀ id sub, t.entitySubs id = some sub ↔ .subscribed id sub ∈ past ∧ ¬Gone past id

/-- An event that leaves the table alone. -/
def Event.Quiet (e : Event E) : Prop := (∀ id sub, e ≠ .subscribed id sub) ∧ ∀ id, ¬e.Ends id

theorem Tables.quiet (h : Tables t past) (hquiet : e.Quiet) (hright : Right past e) :
    Tables t (past ++ [e]) := by
  have hmem (id : ℕ) (sub : Subscription E) :
      .subscribed id sub ∈ past ++ [e] ↔ .subscribed id sub ∈ past := by
    rw [List.mem_append, List.mem_singleton, or_iff_left]
    exact fun heq => hquiet.1 id sub heq.symm
  have hgone (id : ℕ) : Gone (past ++ [e]) id ↔ Gone past id := by
    rw [gone_concat, or_iff_left (hquiet.2 id)]
  constructor
  · exact h.right.concat hright
  · exact fun id sub hsub => h.old id sub ((hmem id sub).mp hsub)
  · exact fun id hid => h.goneOld id ((hgone id).mp hid)
  · intro id sub
    rw [hmem, hgone]
    exact h.entries id sub

/-- A new entry. -/
theorem Tables.subscribed (h : Tables t past) (hnext : t'.nextSub = t.nextSub + 1)
    (hsubs : ∀ id, t'.entitySubs id = if id = t.nextSub then some sub else t.entitySubs id) :
    Tables t' (past ++ [.subscribed t.nextSub sub]) := by
  have hends (id : ℕ) : ¬(Event.subscribed t.nextSub sub).Ends id := by
    rintro (heq | ⟨fire, heq⟩)
    · exact absurd heq nofun
    · exact absurd heq nofun
  have hgone (id : ℕ) : Gone (past ++ [.subscribed t.nextSub sub]) id ↔ Gone past id := by
    rw [gone_concat, or_iff_left (hends id)]
  constructor
  · apply h.right.concat
    intro sub' hsub'
    exact absurd (h.old _ _ hsub') (Nat.lt_irrefl _)
  · intro id sub' hsub'
    rw [hnext]
    rcases List.mem_append.mp hsub' with hold | hnew
    · exact (h.old id sub' hold).trans (Nat.lt_succ_self _)
    · rw [(Event.subscribed.inj (List.mem_singleton.mp hnew)).1]
      exact Nat.lt_succ_self _
  · intro id hid
    rw [hnext]
    exact (h.goneOld id ((hgone id).mp hid)).trans (Nat.lt_succ_self _)
  · intro id sub'
    rw [hsubs, hgone, List.mem_append, List.mem_singleton]
    by_cases hid : id = t.nextSub
    · subst hid
      rw [if_pos rfl]
      constructor
      · intro heq
        rw [Option.some.inj heq]
        exact ⟨Or.inr rfl, fun hgone => absurd (h.goneOld _ hgone) (Nat.lt_irrefl _)⟩
      · rintro ⟨hold | hnew, -⟩
        · exact absurd (h.old _ _ hold) (Nat.lt_irrefl _)
        · rw [(Event.subscribed.inj hnew).2]
    · rw [if_neg hid, h.entries, or_iff_left]
      intro heq
      exact hid (Event.subscribed.inj heq).1

/-- An entry is cleared by what ends its subscription. -/
theorem Tables.clear (h : Tables t past) (hsub : t.entitySubs id = some sub) (hright : Right past e)
    (hends : ∀ id', e.Ends id' ↔ id' = id) (hmem : ∀ id sub, e ≠ .subscribed id sub) :
    Tables (t.clear id) (past ++ [e]) := by
  obtain ⟨hin, -⟩ := (h.entries id sub).mp hsub
  have hmem' (id : ℕ) (sub : Subscription E) :
      .subscribed id sub ∈ past ++ [e] ↔ .subscribed id sub ∈ past := by
    rw [List.mem_append, List.mem_singleton, or_iff_left]
    exact fun heq => hmem id sub heq.symm
  have hgone (id' : ℕ) : Gone (past ++ [e]) id' ↔ Gone past id' ∨ id' = id := by
    rw [gone_concat, hends]
  constructor
  · exact h.right.concat hright
  · exact fun id' sub' hsub' => h.old id' sub' ((hmem' id' sub').mp hsub')
  · intro id' hid'
    rcases (hgone id').mp hid' with hold | rfl
    · exact h.goneOld id' hold
    · exact h.old _ _ hin
  · intro id' sub'
    rw [entitySubs_clear, hmem', hgone, not_or]
    by_cases hid : id' = id
    · simp [hid]
    · rw [if_neg hid, h.entries]
      simp [hid]

theorem Tables.fresh (h : Tables t past) : t.entitySubs t.nextSub = none := by
  cases hsub : t.entitySubs t.nextSub with
  | none => rfl
  | some sub => exact absurd (h.old _ _ ((h.entries _ _).mp hsub).1) (Nat.lt_irrefl _)

theorem Tables.unsubscribe (h : Tables t past) (id : ℕ) :
    Tables ((Op.unsubscribe id).apply t) (past ++ opEvents t (.unsubscribe id)) := by
  have hclear : (Op.unsubscribe id).apply t = t.clear id := unsubscribe_eq t id
  rw [hclear, opEvents_unsubscribe]
  cases hsub : t.entitySubs id with
  | none =>
    have hsame : t.clear id = t := by
      unfold Table.clear
      rw [← hsub, Function.update_eq_self]
    rw [hsame]
    simpa using h
  | some sub => exact h.clear hsub (show Right past (.unsubscribed id) from trivial) (ends_unsubscribed id) nofun

/-- An operation of a handler does nothing, makes a new entry, or clears one. -/
theorem Tables.apply (h : Tables t past) (op : Op E) : Tables (op.apply t) (past ++ opEvents t op) := by
  have hsame {op : Op E} (hop : ∀ id, op ≠ .unsubscribe id) (happly : op.apply t = t) :
      Tables (op.apply t) (past ++ opEvents t op) := by
    rw [opEvents_eq hop, happly, h.fresh]
    simpa using h
  have hadd {sub : Subscription E} {op : Op E} (hop : ∀ id, op ≠ .unsubscribe id)
      (hnext : (op.apply t).nextSub = t.nextSub + 1)
      (hsubs : ∀ id, (op.apply t).entitySubs id = if id = t.nextSub then some sub else t.entitySubs id) :
      Tables (op.apply t) (past ++ opEvents t op) := by
    rw [opEvents_eq hop, hsubs, if_pos rfl]
    exact h.subscribed hnext hsubs
  cases op with
  | subscribe watch kind component entity once flags =>
    rcases subscribe_cases t watch kind component entity once flags with heq | ⟨sub, -, heq⟩
    · exact hsame (by intro id; exact nofun) heq
    · have happly : (Op.subscribe watch kind component entity once flags).apply t = t.add sub := heq
      apply hadd (by intro id; exact nofun)
      · rw [happly]
        rfl
      · rw [happly]
        exact entitySubs_add t sub
  | subscribeSystem index post once =>
    cases index with
    | none => exact hsame (by intro id; exact nofun) rfl
    | some index => exact hadd (by intro id; exact nofun) rfl (entitySubs_add _ _)
  | unsubscribe id => exact h.unsubscribe id

/-- Without a new entry, an operation leaves one event of an unsubscription at most. -/
theorem opEvents_cases {op : Op E} (h : Tables t past) (hnext : (op.apply t).nextSub = t.nextSub) :
    opEvents t op = [] ∨ ∃ id, opEvents t op = [.unsubscribed id] := by
  cases op with
  | unsubscribe id =>
    rw [opEvents_unsubscribe]
    split
    · exact Or.inr ⟨id, rfl⟩
    · exact Or.inl rfl
  | subscribe watch kind component entity once flags =>
    left
    rcases subscribe_cases t watch kind component entity once flags with heq | ⟨sub, -, heq⟩
    · have happly : (Op.subscribe watch kind component entity once flags).apply t = t := heq
      rw [opEvents_eq (by intro id; exact nofun), happly, h.fresh]
      rfl
    · have happly : (Op.subscribe watch kind component entity once flags).apply t = t.add sub := heq
      rw [happly] at hnext
      exact absurd hnext (Nat.succ_ne_self _)
  | subscribeSystem index post once =>
    left
    cases index with
    | none =>
      rw [opEvents_eq (by intro id; exact nofun)]
      show ((t.entitySubs t.nextSub).toList.map _) = _
      rw [h.fresh]
      rfl
    | some index => exact absurd hnext (Nat.succ_ne_self _)

/-! ## Fires -/

/-- A fire under way whose traversal is still a plain one. -/
structure InFire (past : List (Event E)) (f : Frame E) (before : List (Event E)) : Prop where
  open' : ¬Over past f.fire
  plain : f.spoiled = false
  began : Began past f.fire f.fired before
  fields : ∀ id, id ∈ f.began ↔ ∃ sub, .subscribed id sub ∈ before ∧ ¬Gone before id
  visited : ∀ id once, .ran f.fire id once ∈ past → id ∈ f.visited
  called : ∀ id ∈ f.visited, ∀ sub, .subscribed id sub ∈ before → f.fired.test sub = some true →
    ∃ once, .ran f.fire id once ∈ past
  once : f.visited.Nodup ∧ ∀ id ∈ f.visited, id ∈ f.began

theorem InFire.concat (h : InFire past f before) (he : ¬e.Of f.fire) : InFire (past ++ [e]) f before where
  open' := over_concat h.open' he
  plain := h.plain
  began := h.began.append [e]
  fields := h.fields
  visited := by
    intro id once hran
    rcases List.mem_append.mp hran with hold | hnew
    · exact h.visited id once hold
    · exact absurd (List.mem_singleton.mp hnew ▸ rfl) he
  called := fun id hid sub hsub htest =>
    (h.called id hid sub hsub htest).imp fun _ => List.mem_append_left _
  once := h.once

/-- The traversal comes to one more field. -/
theorem InFire.visits (h : InFire past f before) (hbegan : id ∈ f.began) (hnew : id ∉ f.visited) :
    (f.visited ++ [id]).Nodup ∧ ∀ id' ∈ f.visited ++ [id], id' ∈ f.began := by
  constructor
  · apply h.once.1.append (List.nodup_singleton id)
    rw [List.disjoint_singleton]
    exact hnew
  · intro id' hid'
    rcases List.mem_append.mp hid' with hold | hlast
    · exact h.once.2 id' hold
    · rw [List.mem_singleton.mp hlast]
      exact hbegan

/-- What holds along a run. -/
structure Inv (s : State E) : Prop extends Tables s.table s.history where
  fresh' : ∀ fire fired, .began fire fired ∈ s.history → fire < s.fires
  distinct : (s.stack.map Frame.fire).Nodup
  frames : ∀ f ∈ s.stack, ∃ before, InFire s.history f before
  accounted : ∀ fire fired, .began fire fired ∈ s.history →
    Over s.history fire ∨ ∃ f ∈ s.stack, f.fire = fire

theorem Inv.start : Inv ({} : State E) where
  right := Throughout.nil
  old := fun _ _ h => absurd h List.not_mem_nil
  goneOld := fun _ h => h.elim (fun h => absurd h List.not_mem_nil) fun ⟨_, h⟩ => absurd h List.not_mem_nil
  entries := fun _ _ => ⟨nofun, fun h => absurd h.1 List.not_mem_nil⟩
  fresh' := fun _ _ h => absurd h List.not_mem_nil
  distinct := List.nodup_nil
  frames := fun _ h => absurd h List.not_mem_nil
  accounted := fun _ _ h => absurd h List.not_mem_nil

/-- An operation outside of any fire, or one that adds no entry. -/
theorem Inv.apply (h : Inv s) (op : Op E)
    (hkept : s.stack = [] ∨ (op.apply s.table).nextSub = s.table.nextSub) : Inv (s.apply op) := by
  -- the traversals under way are spoilt by a new key alone
  have hstack : (s.apply op).stack = s.stack := by
    show (if (op.apply s.table).nextSub = s.table.nextSub then s.stack
      else s.stack.map Frame.spoil) = s.stack
    rcases hkept with hempty | hnext
    · rw [hempty]
      exact ite_self _
    · exact if_pos hnext
  have hbegan (fire : ℕ) (fired : Fired E) (hmem : .began fire fired ∈ (s.apply op).history) :
      .began fire fired ∈ s.history := by
    rcases List.mem_append.mp hmem with hold | hnew
    · exact hold
    · by_cases hop : ∃ id, op = .unsubscribe id
      · obtain ⟨id, rfl⟩ := hop
        rw [opEvents_unsubscribe] at hnew
        split at hnew
        · exact absurd (List.mem_singleton.mp hnew) nofun
        · exact absurd hnew List.not_mem_nil
      · rw [opEvents_eq fun id heq => hop ⟨id, heq⟩] at hnew
        obtain ⟨sub, -, heq⟩ := List.mem_map.mp hnew
        exact absurd heq nofun
  refine { h.toTables.apply op with fresh' := ?_, distinct := ?_, frames := ?_, accounted := ?_ }
  · exact fun fire fired hmem => h.fresh' fire fired (hbegan fire fired hmem)
  · rw [hstack]
    exact h.distinct
  · rw [hstack]
    intro f hf
    obtain ⟨before, hfire⟩ := h.frames f hf
    rcases hkept with hempty | hnext
    · rw [hempty] at hf
      exact absurd hf List.not_mem_nil
    · refine ⟨before, ?_⟩
      show InFire (s.history ++ opEvents s.table op) f before
      rcases opEvents_cases h.toTables hnext with hnone | ⟨id, hone⟩
      · rw [hnone, List.append_nil]
        exact hfire
      · rw [hone]
        exact hfire.concat nofun
  · intro fire fired hmem
    rw [hstack]
    exact (h.accounted fire fired (hbegan fire fired hmem)).imp_left fun hover => hover.append _

theorem mem_present (h : Tables t past) :
    id ∈ present t ↔ ∃ sub, .subscribed id sub ∈ past ∧ ¬Gone past id := by
  unfold present
  rw [List.mem_filter, List.mem_range, Option.isSome_iff_exists]
  constructor
  · rintro ⟨-, sub, hsub⟩
    exact ⟨sub, (h.entries id sub).mp hsub⟩
  · rintro ⟨sub, hsub⟩
    exact ⟨h.old id sub hsub.1, sub, (h.entries id sub).mpr hsub⟩

/-- A fire begins with the fields that are there. -/
theorem Inv.fires (h : Inv s) (fired : Fired E) : Inv (s.fire fired) := by
  -- the number of the fire is new
  have hnone (fired' : Fired E) : .began s.fires fired' ∉ s.history := fun hmem =>
    absurd (h.fresh' _ _ hmem) (Nat.lt_irrefl _)
  have hquiet : (Event.began s.fires fired).Quiet := by
    refine ⟨nofun, ?_⟩
    rintro id (heq | ⟨fire, heq⟩)
    · exact absurd heq nofun
    · exact absurd heq nofun
  have htables := h.toTables.quiet hquiet hnone
  refine { htables with fresh' := ?_, distinct := ?_, frames := ?_, accounted := ?_ }
  · intro fire fired' hmem
    show fire < s.fires + 1
    rcases List.mem_append.mp hmem with hold | hnew
    · exact (h.fresh' fire fired' hold).trans (Nat.lt_succ_self _)
    · rw [(Event.began.inj (List.mem_singleton.mp hnew)).1]
      exact Nat.lt_succ_self _
  · apply List.nodup_cons.mpr ⟨_, h.distinct⟩
    intro hmem
    obtain ⟨f, hf, hfire⟩ := List.mem_map.mp hmem
    obtain ⟨before, hin⟩ := h.frames f hf
    have hbegan := hin.began.began
    rw [show f.fire = s.fires from hfire] at hbegan
    exact hnone f.fired hbegan
  · intro f hf
    rcases List.mem_cons.mp hf with rfl | hf
    -- the new frame starts from the subscriptions that there are
    · refine ⟨s.history, ?_, rfl, ⟨[], rfl⟩, fun id => mem_present h.toTables, ?_, ?_, ?_⟩
      · apply over_concat _ (by exact nofun)
        intro hover
        obtain ⟨fired', hbegan⟩ := began_of_over h.right hover
        exact hnone fired' hbegan
      · intro id once hran
        rcases List.mem_append.mp hran with hold | hnew
        · obtain ⟨fired', hbegan⟩ := began_of_ran h.right hold
          exact absurd hbegan (hnone fired')
        · exact absurd (List.mem_singleton.mp hnew) nofun
      · exact fun id hid => absurd hid List.not_mem_nil
      · exact ⟨List.nodup_nil, fun id hid => absurd hid List.not_mem_nil⟩
    · obtain ⟨before, hin⟩ := h.frames f hf
      exact ⟨before, hin.concat nofun⟩
  · intro fire fired' hmem
    rcases List.mem_append.mp hmem with hold | hnew
    · rcases h.accounted fire fired' hold with hover | ⟨f, hf, hfire⟩
      · exact Or.inl (hover.append _)
      · exact Or.inr ⟨f, List.mem_cons_of_mem _ hf, hfire⟩
    · exact Or.inr ⟨_, List.mem_cons_self, (Event.began.inj (List.mem_singleton.mp hnew)).1.symm⟩

/-- The fires below the one on top are other ones. -/
theorem Inv.other {stack : List (Frame E)} (h : Inv s) (hstack : s.stack = f :: stack) {f' : Frame E}
    (hf' : f' ∈ stack) : f.fire ≠ f'.fire := by
  have hdistinct := h.distinct
  rw [hstack] at hdistinct
  intro heq
  apply (List.nodup_cons.mp hdistinct).1
  rw [heq]
  exact List.mem_map_of_mem hf'

/-- The frame on top changes, after an event of its fire or none. -/
theorem Inv.replace {stack : List (Frame E)} (h : Inv s) (hstack : s.stack = f :: stack)
    (f' : Frame E) (hfire : f'.fire = f.fire) (later : List (Event E)) {t : Table E}
    (hlater : ∀ e ∈ later, (∀ fire, e.Of fire → fire = f.fire) ∧ ∀ fire fired, e ≠ .began fire fired)
    (hone : later.length ≤ 1) (htables : Tables t (s.history ++ later))
    (htop : ∃ before, InFire (s.history ++ later) f' before) :
    Inv { s with table := t, stack := f' :: stack, history := s.history ++ later } := by
  have hbegan (fire : ℕ) (fired : Fired E) (hmem : .began fire fired ∈ s.history ++ later) :
      .began fire fired ∈ s.history := by
    rcases List.mem_append.mp hmem with hold | hnew
    · exact hold
    · exact absurd rfl ((hlater _ hnew).2 fire fired)
  refine { htables with fresh' := ?_, distinct := ?_, frames := ?_, accounted := ?_ }
  · exact fun fire fired hmem => h.fresh' fire fired (hbegan fire fired hmem)
  · have hdistinct := h.distinct
    rw [hstack] at hdistinct
    show (f'.fire :: stack.map Frame.fire).Nodup
    rw [hfire]
    exact hdistinct
  · intro f'' hf''
    rcases List.mem_cons.mp hf'' with rfl | hin
    · exact htop
    · obtain ⟨before, hfire'⟩ := h.frames f'' (hstack ▸ List.mem_cons_of_mem _ hin)
      refine ⟨before, ?_⟩
      cases later with
      | nil => simpa using hfire'
      | cons e more =>
        obtain rfl : more = [] := List.length_eq_zero_iff.mp (Nat.le_zero.mp (Nat.le_of_succ_le_succ hone))
        apply hfire'.concat
        intro hof
        exact h.other hstack hin ((hlater e List.mem_cons_self).1 _ hof).symm
  · intro fire fired hmem
    rcases h.accounted fire fired (hbegan fire fired hmem) with hover | ⟨f'', hf'', hfire'⟩
    · exact Or.inl (hover.append _)
    · rw [hstack] at hf''
      rcases List.mem_cons.mp hf'' with rfl | hin
      · exact Or.inr ⟨f', List.mem_cons_self, hfire.trans hfire'⟩
      · exact Or.inr ⟨f'', List.mem_cons_of_mem _ hin, hfire'⟩

/-- The traversal on top comes to a field. -/
theorem Inv.visit {stack : List (Frame E)} (h : Inv s) (hstack : s.stack = f :: stack)
    (hsub : s.table.entitySubs id = some sub) (hmay : f.mayVisit id) (htest : f.fired.test sub ≠ none) :
    Inv (s.visit f stack id sub) := by
  obtain ⟨before, hfire⟩ := h.frames f (hstack ▸ List.mem_cons_self)
  obtain ⟨hregistered, hgone⟩ := (h.entries id sub).mp hsub
  have hplain : id ∈ f.began ∧ id ∉ f.visited := by
    refine hmay.resolve_left ?_
    rw [hfire.plain]
    exact nofun
  -- an id is subscribed once, so this is the subscription it had when the fire began
  have hsame (sub' : Subscription E) (hsub' : .subscribed id sub' ∈ before) : sub' = sub :=
    subscribed_unique h.right (hfire.began.mem hsub') hregistered
  unfold State.visit
  split
  · next hraises => exact absurd hraises htest
  · next hother =>
    have hnext := h.replace hstack { f with visited := f.visited ++ [id] } rfl [] (t := s.table)
      (fun _ he => absurd he List.not_mem_nil) (Nat.zero_le _)
      (by simpa using h.toTables) ⟨before, { hfire with
        open' := by simpa using hfire.open'
        began := hfire.began.append []
        visited := fun id' once hran =>
          List.mem_append_left _ (hfire.visited id' once (by simpa using hran))
        called := by
          intro id' hid' sub' hsub' htest'
          rcases List.mem_append.mp hid' with hold | hnew
          · simpa using hfire.called id' hold sub' hsub' htest'
          · obtain rfl := List.mem_singleton.mp hnew
            rw [hsame sub' hsub', hother] at htest'
            exact absurd htest' nofun
        once := hfire.visits hplain.1 hplain.2 }⟩
    simpa using hnext
  · next hmatches =>
    have hright : Right s.history (.ran f.fire id sub.once) := by
      refine ⟨hfire.open', hgone, fun once' hran => hplain.2 (hfire.visited id once' hran), ?_⟩
      obtain ⟨sub', hsub', -⟩ := (hfire.fields id).mp hplain.1
      exact ⟨f.fired, before, sub, hfire.began, hsame sub' hsub' ▸ hsub', hmatches, rfl⟩
    -- a handler that is to run once is out of the tables before it runs
    have htables : Tables (if sub.once then s.table.clear id else s.table)
        (s.history ++ [.ran f.fire id sub.once]) := by
      split
      · next honce =>
        apply h.toTables.clear hsub hright _ (by intro id sub; exact nofun)
        intro id'
        rw [honce]
        constructor
        · rintro (heq | ⟨fire, heq⟩)
          · exact absurd heq nofun
          · exact (Event.ran.inj heq).2.1.symm
        · rintro rfl
          exact Or.inr ⟨f.fire, rfl⟩
      · next honce =>
        apply h.toTables.quiet ⟨(by intro id sub; exact nofun), _⟩ hright
        rintro id' (heq | ⟨fire, heq⟩)
        · exact absurd heq nofun
        · exact honce (Event.ran.inj heq).2.2
    apply h.replace hstack { f with visited := f.visited ++ [id], running := true } rfl _ _ le_rfl htables
    · refine ⟨before, { hfire with
        open' := ?_, began := hfire.began.append _, visited := ?_, called := ?_
        once := hfire.visits hplain.1 hplain.2 }⟩
      · rintro (hended | hraised)
        · rcases List.mem_append.mp hended with hold | hnew
          · exact hfire.open' (Or.inl hold)
          · exact absurd (List.mem_singleton.mp hnew) nofun
        · rcases List.mem_append.mp hraised with hold | hnew
          · exact hfire.open' (Or.inr hold)
          · exact absurd (List.mem_singleton.mp hnew) nofun
      · intro id' once hran
        rcases List.mem_append.mp hran with hold | hnew
        · exact List.mem_append_left _ (hfire.visited id' once hold)
        · rw [(Event.ran.inj (List.mem_singleton.mp hnew)).2.1]
          exact List.mem_append_right _ List.mem_cons_self
      · intro id' hid' sub' hsub' htest'
        rcases List.mem_append.mp hid' with hold | hnew
        · exact (hfire.called id' hold sub' hsub' htest').imp fun _ => List.mem_append_left _
        · rw [List.mem_singleton.mp hnew]
          exact ⟨sub.once, List.mem_append_right _ List.mem_cons_self⟩
    · intro e he
      rw [List.mem_singleton.mp he]
      exact ⟨fun fire hof => Eq.symm hof, nofun⟩

/-- The traversal on top ends. -/
theorem Inv.finish {stack : List (Frame E)} (h : Inv s) (hstack : s.stack = f :: stack)
    (hmay : f.mayFinish s.table) :
    Inv { s with stack := stack, history := s.history ++ [.ended f.fire] } := by
  obtain ⟨before, hfire⟩ := h.frames f (hstack ▸ List.mem_cons_self)
  have hplain : ∀ id ∈ f.began, id ∈ f.visited ∨ (s.table.entitySubs id).isNone = true := by
    refine hmay.resolve_left ?_
    rw [hfire.plain]
    exact nofun
  -- each subscription live when the fire began was visited, or is gone by now
  have hright : Right s.history (.ended f.fire) := by
    refine ⟨hfire.open', f.fired, before, hfire.began, ?_⟩
    intro id sub hsub hlive htest
    rcases hplain id ((hfire.fields id).mpr ⟨sub, hsub, hlive⟩) with hvisited | hnone
    · exact Or.inl (hfire.called id hvisited sub hsub htest)
    · right
      by_contra hgone
      have hsome := (h.entries id sub).mpr ⟨hfire.began.mem hsub, hgone⟩
      rw [hsome] at hnone
      exact absurd hnone nofun
  have hquiet : (Event.ended f.fire : Event E).Quiet := by
    refine ⟨nofun, ?_⟩
    rintro id (heq | ⟨fire, heq⟩)
    · exact absurd heq nofun
    · exact absurd heq nofun
  have hbegan (fire : ℕ) (fired : Fired E) (hmem : .began fire fired ∈ s.history ++ [.ended f.fire]) :
      .began fire fired ∈ s.history := by
    rcases List.mem_append.mp hmem with hold | hnew
    · exact hold
    · exact absurd (List.mem_singleton.mp hnew) nofun
  -- nothing but this frame leaves the stack, and it is accounted for as ended
  have hdistinct := h.distinct
  rw [hstack] at hdistinct
  refine { h.toTables.quiet hquiet hright with fresh' := ?_, distinct := ?_, frames := ?_, accounted := ?_ }
  · exact fun fire fired hmem => h.fresh' fire fired (hbegan fire fired hmem)
  · exact (List.nodup_cons.mp hdistinct).2
  · intro f' hf'
    obtain ⟨before', hfire'⟩ := h.frames f' (hstack ▸ List.mem_cons_of_mem _ hf')
    exact ⟨before', hfire'.concat (h.other hstack hf')⟩
  · intro fire fired hmem
    rcases h.accounted fire fired (hbegan fire fired hmem) with hover | ⟨f', hf', hfire'⟩
    · exact Or.inl (hover.append _)
    · rw [hstack] at hf'
      rcases List.mem_cons.mp hf' with rfl | hin
      · left
        left
        rw [← hfire']
        exact List.mem_append_right _ List.mem_cons_self
      · exact Or.inr ⟨f', hin, hfire'⟩

theorem Inv.step {a : Action E} (h : Inv s) (hkept : Kept s a)
    (hstep : EntityEvents.step s a = some s') : Inv s' := by
  cases hstack : s.stack with
  | nil =>
    cases a with
    | op op =>
      obtain ⟨-, hsome⟩ := Option.ite_none_right_eq_some.mp hstep
      obtain rfl := Option.some.inj hsome
      exact h.apply op (Or.inl hstack)
    | fire fired =>
      obtain ⟨-, hsome⟩ := Option.ite_none_right_eq_some.mp hstep
      obtain rfl := Option.some.inj hsome
      exact h.fires fired
    | visit id =>
      simp only [EntityEvents.step, hstack] at hstep
      exact absurd hstep nofun
    | finish | fault | returns | raises =>
      simp only [EntityEvents.step, hstack] at hstep
      exact absurd hstep nofun
  | cons f stack =>
    obtain ⟨before, hfire⟩ := h.frames f (hstack ▸ List.mem_cons_self)
    cases a with
    | op op =>
      obtain ⟨-, hsome⟩ := Option.ite_none_right_eq_some.mp hstep
      obtain rfl := Option.some.inj hsome
      exact h.apply op hkept
    | fire fired =>
      obtain ⟨-, hsome⟩ := Option.ite_none_right_eq_some.mp hstep
      obtain rfl := Option.some.inj hsome
      exact h.fires fired
    | visit id =>
      cases hsub : s.table.entitySubs id with
      | none =>
        simp only [EntityEvents.step, hstack, hsub] at hstep
        exact absurd hstep nofun
      | some sub =>
        simp only [EntityEvents.step, hstack, hsub] at hstep
        obtain ⟨⟨-, hmay⟩, hsome⟩ := Option.ite_none_right_eq_some.mp hstep
        obtain rfl := Option.some.inj hsome
        exact h.visit hstack hsub hmay (hkept f (by rw [hstack]; rfl) sub hsub)
    | finish =>
      simp only [EntityEvents.step, hstack] at hstep
      obtain ⟨⟨-, hmay⟩, hsome⟩ := Option.ite_none_right_eq_some.mp hstep
      obtain rfl := Option.some.inj hsome
      exact h.finish hstack hmay
    | fault =>
      -- a plain traversal does not raise
      simp only [EntityEvents.step, hstack] at hstep
      obtain ⟨⟨-, hspoiled⟩, -⟩ := Option.ite_none_right_eq_some.mp hstep
      rw [hfire.plain] at hspoiled
      exact absurd hspoiled nofun
    | returns =>
      simp only [EntityEvents.step, hstack] at hstep
      obtain ⟨-, hsome⟩ := Option.ite_none_right_eq_some.mp hstep
      obtain rfl := Option.some.inj hsome
      have hnext := h.replace hstack { f with running := false } rfl [] (t := s.table)
        (fun _ he => absurd he List.not_mem_nil) (Nat.zero_le _) (by simpa using h.toTables)
        ⟨before, { hfire with
          open' := by simpa using hfire.open'
          began := hfire.began.append []
          visited := fun id' once hran => hfire.visited id' once (by simpa using hran)
          called := fun id' hid' sub' hsub' htest' => by
            simpa using hfire.called id' hid' sub' hsub' htest' }⟩
      simpa using hnext
    | raises => exact hkept.elim

/-- A field that the traversal did not come to is still there, or it may end. -/
theorem Inv.goesOn (h : Inv s) : GoesOn s where
  visits f hf := by
    obtain ⟨before, hfire⟩ := h.frames f hf
    exact hfire.once
  turn f hf hturn := by
    obtain ⟨stack, hstack⟩ := List.head?_eq_some_iff.mp hf
    by_cases hfinish : f.mayFinish s.table
    · left
      simp only [EntityEvents.step, hstack, hturn, hfinish, and_self, if_true, Option.isSome_some]
    · right
      have hleft : ∃ id ∈ f.began, id ∉ f.visited ∧ (s.table.entitySubs id).isNone ≠ true := by
        unfold Frame.mayFinish at hfinish
        push Not at hfinish
        exact hfinish.2
      obtain ⟨id, hbegan, hnew, hsome⟩ := hleft
      refine ⟨id, ?_⟩
      have hmay : f.mayVisit id := Or.inr ⟨hbegan, hnew⟩
      cases hsub : s.table.entitySubs id with
      | none => exact absurd (by rw [hsub]; rfl) hsome
      | some sub =>
        simp only [EntityEvents.step, hstack, hsub, hturn, hmay, and_self, if_true,
          Option.isSome_some]

/-- In every run in which no handler of a fire subscribes anything, the flags that are masked are
integers, and printing an error does not raise, everything that happens is right after what
happened before, each fire that began is over or under way, and what is under way goes on. -/
theorem called_of_run {as : List (Action E)} (h : Run step Kept {} as s) :
    Throughout Right s.history ∧ (∀ fire fired, .began fire fired ∈ s.history →
      Over s.history fire ∨ ∃ f ∈ s.stack, f.fire = fire) ∧ GoesOn s := by
  have hinv : Inv s := by
    apply h.invariant
    · exact Inv.start
    · exact fun _ _ _ hinv hkept hstep => hinv.step hkept hstep
  exact ⟨hinv.right, hinv.accounted, hinv.goesOn⟩

/-- A component with events. -/
def demoWatch : Watch := ⟨true, false⟩

/-- Subscribes to creations of a component of any entity. -/
def demoSubscribe (once : Bool) : Action ℕ :=
  .op (.subscribe demoWatch .create (bytes "C") none once none)

def demoFired : Fired ℕ where
  kind := .create
  component := bytes "C"
  entity := 7

/-- Two handlers, the first of which fires the event again while it runs. -/
def demoActions : List (Action ℕ) :=
  [demoSubscribe false, demoSubscribe true, .fire demoFired, .visit 1, .fire demoFired, .visit 2,
    .returns, .visit 1, .returns, .finish, .returns, .finish]

theorem called_of_run_demo : ∃ s : State ℕ, Run step Kept {} demoActions s ∧ s.fires = 2 ∧
    Throughout Right s.history ∧ (∀ fire fired, .began fire fired ∈ s.history →
      Over s.history fire ∨ ∃ f ∈ s.stack, f.fire = fire) ∧ GoesOn s := by
  obtain ⟨s, hrun, hfires⟩ : ∃ s : State ℕ, Run step Kept {} demoActions s ∧
      decide (s.fires = 2) = true :=
    Run.exists_of_follow _ _ _ _ _ (by decide +kernel)
  exact ⟨s, hrun, of_decide_eq_true hfires, called_of_run hrun⟩

/-- The handler of a fire subscribes, and the traversal comes to its field again. -/
theorem subscribing_repeats : ¬∀ (as : List (Action ℕ)) (s : State ℕ),
    Run step (fun _ _ => True) {} as s → Throughout Right s.history := by
  intro h
  let sub : Subscription ℕ := { kind := .create, component := some (bytes "C") }
  obtain ⟨s, hrun, hhistory⟩ : ∃ s : State ℕ, Run step (fun _ _ => True) {}
      [demoSubscribe false, .fire demoFired, .visit 1, demoSubscribe false, .returns, .visit 1] s ∧
      decide (s.history = [.subscribed 1 sub, .began 0 demoFired, .ran 0 1 false, .subscribed 2 sub,
        .ran 0 1 false]) = true :=
    Run.exists_of_follow _ _ _ _ _ (by decide +kernel)
  have hright := h _ s hrun
  rw [of_decide_eq_true hhistory] at hright
  obtain ⟨-, -, honce, -⟩ := hright [.subscribed 1 sub, .began 0 demoFired, .ran 0 1 false,
    .subscribed 2 sub] (.ran 0 1 false) [] rfl
  exact honce false (by simp)

end EntityEvents
end Bg3le
