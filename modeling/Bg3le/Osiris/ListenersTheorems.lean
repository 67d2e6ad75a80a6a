import Bg3le.Osiris.Listeners
import Mathlib.Data.List.Induction
import Mathlib.Data.List.Nodup
import Mathlib.Order.Basic

/-!
# A fire calls each handler once and in order

One invariant links the tables and the fires under way to the history; it holds along every run in
which printing an error does not raise.
-/

namespace Bg3le
namespace OsirisListeners

variable {s : State} {past : List Event} {key : Bytes} {id fire : ℕ} {ids rest : List ℕ} {e : Event}

/-! ## The history -/

/-- A subscriber is gone after an event if it was, or if the event ends it. -/
theorem gone_concat : Gone (past ++ [e]) id ↔ Gone past id ∨ .unregistered (.integer id) true = e := by
  unfold Gone
  rw [List.mem_append, List.mem_singleton]

theorem subscriber_eq_some : e.subscriber key = some id ↔ e = .registered id key := by
  cases e with
  | registered id' key' =>
    unfold Event.subscriber
    by_cases hkey : key' = key
    · simp [hkey]
    · simp [hkey]
  | _ => simp [Event.subscriber]

/-- The subscribers of a key are those that were registered with it and are not gone. -/
theorem mem_registeredIn :
    id ∈ registeredIn past key ↔ .registered id key ∈ past ∧ ¬Gone past id := by
  unfold registeredIn
  rw [List.mem_filter, List.mem_filterMap, decide_eq_true_eq]
  apply and_congr_left'
  constructor
  · rintro ⟨e, he, hid⟩
    rwa [← subscriber_eq_some.mp hid]
  · intro h
    exact ⟨_, h, subscriber_eq_some.mpr rfl⟩

theorem filterMap_subscriber (past : List Event) (e : Event) (key : Bytes) :
    (past ++ [e]).filterMap (Event.subscriber key) =
      past.filterMap (Event.subscriber key) ++ (e.subscriber key).toList := by
  rw [List.filterMap_append]
  rfl

/-- An event that neither registers nor unregisters a subscriber. -/
def Event.Quiet : Event → Prop
  | .registered _ _ => False
  | .unregistered _ answer => answer = false
  | _ => True

theorem Event.Quiet.gone (h : e.Quiet) : Gone (past ++ [e]) id ↔ Gone past id := by
  rw [gone_concat, or_iff_left]
  intro heq
  rw [← heq] at h
  exact absurd h (by simp [Event.Quiet])

theorem Event.Quiet.subscriber (h : e.Quiet) : e.subscriber key = none := by
  cases e with
  | registered id key' => exact h.elim
  | _ => rfl

/-- An event of a fire leaves them. -/
theorem Event.Quiet.registeredIn (h : e.Quiet) (key : Bytes) :
    registeredIn (past ++ [e]) key = registeredIn past key := by
  unfold OsirisListeners.registeredIn
  rw [filterMap_subscriber, h.subscriber, Option.toList_none, List.append_nil]
  apply List.filter_congr
  intro id _
  simp only [h.gone]

theorem Event.Quiet.registered_mem (h : e.Quiet) :
    .registered id key ∈ past ++ [e] ↔ .registered id key ∈ past := by
  rw [List.mem_append, List.mem_singleton, or_iff_left]
  intro heq
  rw [← heq] at h
  exact h.elim

/-- A new subscriber of a key comes behind the others. -/
theorem registeredIn_registered (hgone : ¬Gone past id) (key' : Bytes) :
    registeredIn (past ++ [.registered id key]) key' =
      registeredIn past key' ++ if key = key' then [id] else [] := by
  have hsame (id' : ℕ) : Gone (past ++ [.registered id key]) id' ↔ Gone past id' := by
    rw [gone_concat]
    simp
  unfold registeredIn
  rw [List.filterMap_append, List.filter_append]
  simp only [hsame]
  congr 1
  by_cases hkey : key = key'
  · simp [Event.subscriber, hkey, hgone]
  · simp [Event.subscriber, hkey]

/-- A subscriber that is unregistered is taken out of its list. -/
theorem registeredIn_unregistered (key : Bytes) :
    registeredIn (past ++ [.unregistered (.integer id) true]) key =
      (registeredIn past key).filter (· ≠ id) := by
  have hgone (id' : ℕ) : Gone (past ++ [.unregistered (.integer id) true]) id' ↔
      Gone past id' ∨ id = id' := by
    rw [gone_concat]
    simp [eq_comm]
  unfold registeredIn
  rw [filterMap_subscriber, List.filter_filter]
  simp only [Event.subscriber, Option.toList_none, List.append_nil]
  apply List.filter_congr
  intro id' _
  simp only [hgone]
  by_cases heq : id' = id
  · simp [heq]
  · simp [heq, Ne.symm heq]

/-- Ids are given out in order. -/
theorem pairwise_registeredIn (h : Throughout Right past) (key : Bytes) :
    (registeredIn past key).Pairwise (· < ·) := by
  apply List.Pairwise.filter
  induction past using List.reverseRecOn with
  | nil => exact List.Pairwise.nil
  | append_singleton past e ih =>
    obtain ⟨hpast, hright⟩ := Throughout.concat_iff.mp h
    rw [filterMap_subscriber, List.pairwise_append]
    have htail : (e.subscriber key).toList.Pairwise (· < ·) := by
      cases e.subscriber key with
      | none => exact List.Pairwise.nil
      | some id => exact List.pairwise_singleton _ _
    refine ⟨ih hpast, htail, ?_⟩
    intro id hid id' hid'
    obtain ⟨e', he', hsubscriber⟩ := List.mem_filterMap.mp hid
    have he := subscriber_eq_some.mp (Option.mem_toList.mp hid')
    rw [subscriber_eq_some.mp hsubscriber] at he'
    rw [he] at hright
    exact hright _ _ he'

/-! ## Fires -/

theorem Began.append (h : Began past fire ids) (later : List Event) :
    Began (past ++ later) fire ids := by
  obtain ⟨before, key, since, rfl, hids⟩ := h
  exact ⟨before, key, since ++ later, by simp, hids⟩

/-- A fire begins with each subscriber once. -/
theorem Began.nodup (h : Began past fire ids) (hright : Throughout Right past) : ids.Nodup := by
  obtain ⟨before, key, since, rfl, rfl⟩ := h
  have hbefore : Throughout Right before := by
    intro past e later hsplit
    exact hright past e (later ++ .began fire key :: since) (by simp [hsplit])
  exact (pairwise_registeredIn hbefore key).imp fun hlt => hlt.ne

/-- What a fire began with was registered. -/
theorem Began.registered (h : Began past fire ids) (hid : id ∈ ids) :
    ∃ key, .registered id key ∈ past := by
  obtain ⟨before, key, since, rfl, rfl⟩ := h
  exact ⟨key, List.mem_append_left _ (mem_registeredIn.mp hid).1⟩

/-- What has begun was begun with a key. -/
theorem Began.began (h : Began past fire ids) : ∃ key, .began fire key ∈ past := by
  obtain ⟨before, key, since, rfl, -⟩ := h
  exact ⟨key, List.mem_append_right _ List.mem_cons_self⟩

/-- A fire begins once. -/
theorem Began.unique {ids' : List ℕ} (h : Began past fire ids) (h' : Began past fire ids')
    (hright : Throughout Right past) : ids = ids' := by
  obtain ⟨before, key, since, hpast, rfl⟩ := h
  obtain ⟨before', key', since', hpast', rfl⟩ := h'
  have hfirst := hright _ _ _ hpast
  have hfirst' := hright _ _ _ hpast'
  rw [hpast] at hpast'
  rcases List.append_eq_append_iff.mp hpast' with ⟨mid, hbefore, hsince⟩ | ⟨mid, hbefore, hsince⟩
  · cases mid with
    | nil =>
      rw [List.append_nil] at hbefore
      rw [hbefore, (Event.began.inj (List.cons.inj hsince).1).2]
    | cons e mid =>
      have hmem : .began fire key ∈ before' := by
        rw [hbefore, (List.cons.inj hsince).1]
        exact List.mem_append_right _ List.mem_cons_self
      exact absurd hmem (hfirst' key)
  · cases mid with
    | nil =>
      rw [List.append_nil] at hbefore
      rw [hbefore, (Event.began.inj (List.cons.inj hsince).1).2]
    | cons e mid =>
      have hmem : .began fire key' ∈ before := by
        rw [hbefore, (List.cons.inj hsince).1]
        exact List.mem_append_right _ List.mem_cons_self
      exact absurd hmem (hfirst key')

/-- What has ended has begun. -/
theorem began_ended (h : Throughout Right past) (hmem : .ended fire ∈ past) :
    ∃ ids, Began past fire ids := by
  obtain ⟨before, later, rfl, -, ids, hbegan, -⟩ := h.of_mem hmem
  exact ⟨ids, hbegan.append _⟩

/-- So has what ran. -/
theorem began_ran (h : Throughout Right past) (hmem : .ran fire id ∈ past) :
    ∃ ids, Began past fire ids := by
  obtain ⟨before, later, rfl, -, -, -, front, back, hbegan, -⟩ := h.of_mem hmem
  exact ⟨_, hbegan.append _⟩

/-- Who had its turn had it. -/
theorem Served.concat (h : Served past fire id) (e : Event) : Served (past ++ [e]) fire id :=
  h.imp (List.mem_append_left _) (List.mem_append_left _)

/-- A fire under way: it has served all of its subscribers but those left. -/
def InFire (past : List Event) (fire : ℕ) (rest : List ℕ) : Prop :=
  .ended fire ∉ past ∧ ∃ front, Began past fire (front ++ rest) ∧
    (∀ id ∈ front, Served past fire id) ∧ ∀ id ∈ rest, .ran fire id ∉ past

/-- An event that is not of a fire. -/
def Event.Of (fire : ℕ) : Event → Prop
  | .ran fire' _ => fire' = fire
  | .ended fire' => fire' = fire
  | _ => False

/-- A fire is where it was after what happened outside of it. -/
theorem InFire.concat (h : InFire past fire rest) (he : ¬e.Of fire) : InFire (past ++ [e]) fire rest := by
  obtain ⟨hended, front, hbegan, hserved, hran⟩ := h
  refine ⟨?_, front, hbegan.append [e], fun id hid => (hserved id hid).concat e, ?_⟩
  · rw [List.mem_append, List.mem_singleton, not_or]
    refine ⟨hended, ?_⟩
    intro heq
    exact he (heq ▸ rfl)
  · intro id hid
    rw [List.mem_append, List.mem_singleton, not_or]
    refine ⟨hran id hid, ?_⟩
    intro heq
    exact he (heq ▸ rfl)

/-- A subscriber that was unregistered meanwhile is passed over. -/
theorem InFire.skip (h : InFire past fire (id :: rest)) (hgone : Gone past id) :
    InFire past fire rest := by
  obtain ⟨hended, front, hbegan, hserved, hran⟩ := h
  refine ⟨hended, front ++ [id], by simpa using hbegan, ?_, fun id hid =>
    hran id (List.mem_cons_of_mem _ hid)⟩
  intro id' hid'
  rcases List.mem_append.mp hid' with hfront | hlast
  · exact hserved id' hfront
  · rw [List.mem_singleton.mp hlast]
    exact Or.inr hgone

/-- The next handler is called at its turn. -/
theorem InFire.right_ran (h : InFire past fire (id :: rest)) (hgone : ¬Gone past id) :
    Right past (.ran fire id) := by
  obtain ⟨hended, front, hbegan, hserved, hran⟩ := h
  exact ⟨hended, hran id List.mem_cons_self, hgone, front, rest, hbegan, hserved,
    fun id' hid' => hran id' (List.mem_cons_of_mem _ hid')⟩

/-- The next handler of a fire is run. -/
theorem InFire.run (h : InFire past fire (id :: rest)) (hright : Throughout Right past) :
    InFire (past ++ [.ran fire id]) fire rest := by
  obtain ⟨hended, front, hbegan, hserved, hran⟩ := h
  have hnodup := hbegan.nodup hright
  have hnotin : id ∉ rest := (List.nodup_cons.mp (List.nodup_append.mp hnodup).2.1).1
  refine ⟨by simpa using hended, front ++ [id], ?_, ?_, ?_⟩
  · rw [← List.append_cons]
    exact hbegan.append _
  · intro id' hid'
    rcases List.mem_append.mp hid' with hfront | hlast
    · exact (hserved id' hfront).concat _
    · rw [List.mem_singleton.mp hlast]
      exact Or.inl (List.mem_append_right _ List.mem_cons_self)
  · intro id' hid'
    have hne : id' ≠ id := fun heq => hnotin (heq ▸ hid')
    simp [hran id' (List.mem_cons_of_mem _ hid'), hne]

/-- A fire with nobody left to call may end. -/
theorem InFire.right_ended (h : InFire past fire rest) (hrest : ∀ id ∈ rest, Gone past id) :
    Right past (.ended fire) := by
  obtain ⟨hended, front, hbegan, hserved, -⟩ := h
  refine ⟨hended, front ++ rest, hbegan, ?_⟩
  intro id hid
  rcases List.mem_append.mp hid with hfront | hleft
  · exact hserved id hfront
  · exact Or.inr (hrest id hleft)

/-! ## The tables -/

/-- The tables say what the history says. -/
structure Tables (s : State) : Prop where
  right : Throughout Right s.history
  few : ∀ id key, .registered id key ∈ s.history → id ≤ s.nextSubscriber
  subscribed : ∀ id key, s.subscribers id = some key ↔
    .registered id key ∈ s.history ∧ ¬Gone s.history id
  listed : ∀ key, (s.listeners key).getD [] = registeredIn s.history key
  fresh : ∀ fire key, .began fire key ∈ s.history → fire < s.fires

/-- An event that leaves the tables alone. -/
theorem Tables.record (h : Tables s) (hquiet : e.Quiet) (hright : Right s.history e)
    (hbegan : ∀ fire key, e = .began fire key → fire < s.fires) : Tables (s.record e) where
  right := h.right.concat hright
  few := by
    intro id key hmem
    exact h.few id key (hquiet.registered_mem.mp hmem)
  subscribed := by
    intro id key
    refine (h.subscribed id key).trans ?_
    unfold State.record
    rw [hquiet.registered_mem, hquiet.gone]
  listed := by
    intro key
    exact (h.listed key).trans (hquiet.registeredIn key).symm
  fresh := by
    intro fire key hmem
    rcases List.mem_append.mp hmem with hmem | hlast
    · exact h.fresh fire key hmem
    · exact hbegan fire key (List.mem_singleton.mp hlast).symm

/-- Who is gone was registered. -/
theorem gone_registered (h : Throughout Right past) (hgone : Gone past id) :
    ∃ key, .registered id key ∈ past := by
  obtain ⟨before, later, rfl, hright⟩ := h.of_mem hgone
  obtain ⟨id', heq, ⟨key, hkey⟩, -⟩ := hright.mp rfl
  have hid : id = id' := by simpa using heq
  rw [hid]
  exact ⟨key, List.mem_append_left _ hkey⟩

/-- A subscriber that was registered is found in the table, unless it was unregistered. -/
theorem Tables.isSome_iff (h : Tables s) (hkey : .registered id key ∈ s.history) :
    (s.subscribers id).isSome = true ↔ ¬Gone s.history id := by
  constructor
  · intro hsome
    obtain ⟨key', hkey'⟩ := Option.isSome_iff_exists.mp hsome
    exact ((h.subscribed id key').mp hkey').2
  · intro hgone
    rw [(h.subscribed id key).mpr ⟨hkey, hgone⟩]
    rfl

/-- A new subscriber is the last of its key. -/
theorem Tables.register (h : Tables s) (name : Bytes) (arity : ℤ) (event : Bytes)
    (watched defined : Bool) : Tables (registerListener s name arity event watched defined) := by
  unfold registerListener
  split
  · exact h
  split
  · exact h
  generalize listenerKey (listenerName name defined) arity event = key
  -- the identifier is larger than those of all listeners before
  have hnew (id' : ℕ) (key' : Bytes) (hmem : .registered id' key' ∈ s.history) :
      id' < s.nextSubscriber + 1 := Nat.lt_succ_of_le (h.few id' key' hmem)
  -- hence it has not been removed either
  have hgone : ¬Gone s.history (s.nextSubscriber + 1) := by
    intro hgone
    obtain ⟨key', hkey'⟩ := gone_registered h.right hgone
    exact absurd (hnew _ _ hkey') (Nat.lt_irrefl _)
  have hsame (id' : ℕ) : Gone (s.history ++ [.registered (s.nextSubscriber + 1) key]) id' ↔
      Gone s.history id' := by
    rw [gone_concat, or_iff_left nofun]
  constructor
  · exact h.right.concat hnew
  · intro id' key' hmem
    show id' ≤ s.nextSubscriber + 1
    rcases List.mem_append.mp hmem with hmem | hlast
    · exact (hnew id' key' hmem).le
    · rw [(Event.registered.inj (List.mem_singleton.mp hlast)).1]
  · intro id' key'
    show Function.update s.subscribers _ _ id' = _ ↔ _ ∈ s.history ++ [_] ∧ ¬Gone (s.history ++ [_]) id'
    rw [hsame, List.mem_append, List.mem_singleton]
    by_cases hid : id' = s.nextSubscriber + 1
    · subst hid
      rw [Function.update_self]
      constructor
      · intro heq
        rw [Option.some.inj heq]
        exact ⟨Or.inr rfl, hgone⟩
      · rintro ⟨hmem | hlast, -⟩
        · exact absurd (hnew _ _ hmem) (Nat.lt_irrefl _)
        · rw [(Event.registered.inj hlast).2]
    · rw [Function.update_of_ne hid, h.subscribed, or_iff_left]
      intro heq
      exact hid (Event.registered.inj heq).1
  · intro key'
    show (Function.update s.listeners key _ key').getD [] = registeredIn (s.history ++ [_]) key'
    rw [registeredIn_registered hgone]
    by_cases hkey : key' = key
    · subst hkey
      rw [Function.update_self, if_pos rfl, ← h.listed]
      rfl
    · rw [Function.update_of_ne hkey, if_neg (Ne.symm hkey), List.append_nil, h.listed]
  · intro fire key' hmem
    rcases List.mem_append.mp hmem with hmem | hlast
    · exact h.fresh fire key' hmem
    · exact absurd (List.mem_singleton.mp hlast) nofun

/-- The entry of a subscriber is in the list of its key. -/
theorem Tables.entry (h : Tables s) (hkey : s.subscribers id = some key) :
    id ∈ (s.listeners key).getD [] := by
  rw [h.listed]
  exact mem_registeredIn.mpr ((h.subscribed id key).mp hkey)

theorem subscriber_integer (s : State) (id : ℕ) :
    s.subscriber (.integer id) = (s.subscribers id).map fun key => (id, key) := by
  show (if 0 ≤ (id : ℤ) then (s.subscribers id).map fun key => (id, key) else none) = _
  rw [if_pos (Int.natCast_nonneg id)]

/-- A subscriber is known by an integer. -/
theorem subscriber_eq {arg : Arg} (hsub : s.subscriber arg = some (id, key)) :
    arg = .integer id ∧ s.subscribers id = some key := by
  cases arg with
  | other => exact absurd hsub nofun
  | integer i =>
    by_cases hpos : 0 ≤ i
    · obtain ⟨n, rfl⟩ := Int.eq_ofNat_of_zero_le hpos
      rw [subscriber_integer] at hsub
      obtain ⟨key', hkey', hpair⟩ := Option.map_eq_some_iff.mp hsub
      obtain ⟨hid, hkey⟩ := Prod.mk.inj hpair
      rw [← hid, ← hkey]
      exact ⟨rfl, hkey'⟩
    · have hnone : s.subscriber (.integer i) = none := if_neg hpos
      rw [hnone] at hsub
      exact absurd hsub nofun

/-- An argument that is no subscriber's id is refused. -/
theorem Tables.right_refused (h : Tables s) {arg : Arg} (hnone : s.subscriber arg = none) :
    Right s.history (.unregistered arg false) := by
  constructor
  · intro heq
    exact absurd heq nofun
  · rintro ⟨id, rfl, ⟨key, hkey⟩, hgone⟩
    rw [subscriber_integer, (h.subscribed id key).mpr ⟨hkey, hgone⟩] at hnone
    exact absurd hnone nofun

/-- A subscriber is taken out of the lists. -/
theorem Tables.unregister (h : Tables s) (arg : Arg) : Tables (unregisterListener s arg) := by
  unfold unregisterListener
  cases hsub : s.subscriber arg with
  | none => exact h.record rfl (h.right_refused hsub) nofun
  | some found =>
    obtain ⟨id, key⟩ := found
    obtain ⟨rfl, hkey⟩ := subscriber_eq hsub
    have hin := h.entry hkey
    obtain ⟨hregistered, hgone⟩ := (h.subscribed id key).mp hkey
    -- just this id is gone from now on
    have hunregistered (id' : ℕ) : Gone (s.history ++ [.unregistered (.integer id) true]) id' ↔
        Gone s.history id' ∨ id' = id := by
      rw [gone_concat]
      simp
    dsimp only
    rw [if_pos hin]
    constructor
    · apply h.right.concat
      exact ⟨fun _ => ⟨id, rfl, ⟨key, hregistered⟩, hgone⟩, fun _ => rfl⟩
    · intro id' key' hmem
      rcases List.mem_append.mp hmem with hmem | hlast
      · exact h.few id' key' hmem
      · exact absurd (List.mem_singleton.mp hlast) nofun
    · intro id' key'
      show Function.update s.subscribers id none id' = _ ↔
        _ ∈ s.history ++ [_] ∧ ¬Gone (s.history ++ [_]) id'
      rw [hunregistered, List.mem_append, List.mem_singleton, or_iff_left nofun, not_or]
      by_cases hid : id' = id
      · subst hid
        rw [Function.update_self]
        simp
      · rw [Function.update_of_ne hid, h.subscribed]
        simp [hid]
    · intro key'
      show (Function.update s.listeners key _ key').getD [] = registeredIn (s.history ++ [_]) key'
      rw [registeredIn_unregistered, ← h.listed]
      -- the list has the id once, so that erasing it is filtering it out
      have hnodup : ((s.listeners key).getD []).Nodup := by
        rw [h.listed]
        exact (pairwise_registeredIn h.right key).imp fun hlt => hlt.ne
      by_cases heq : key' = key
      · subst heq
        rw [Function.update_self]
        show ((s.listeners key').getD []).erase id = _
        rw [hnodup.erase_eq_filter]
        apply List.filter_congr
        intro id' _
        rw [Bool.eq_iff_iff, bne_iff_ne, decide_eq_true_eq]
      · rw [Function.update_of_ne heq]
        apply (List.filter_eq_self.mpr _).symm
        intro id' hid'
        rw [h.listed] at hid'
        have hother := (mem_registeredIn.mp hid')
        have hkey' := (h.subscribed id' key').mpr hother
        apply decide_eq_true
        intro hid
        rw [hid, hkey] at hkey'
        exact heq (Option.some.inj hkey').symm
    · intro fire key' hmem
      rcases List.mem_append.mp hmem with hmem | hlast
      · exact h.fresh fire key' hmem
      · exact absurd (List.mem_singleton.mp hlast) nofun

/-! ## Runs -/

/-- The tables and the fires under way, each of which is somewhere on the stack. -/
structure Inv (s : State) : Prop extends Tables s where
  distinct : (s.stack.map Frame.fire).Nodup
  frames : ∀ f ∈ s.stack, InFire s.history f.fire f.rest
  accounted : ∀ fire key, .began fire key ∈ s.history →
    .ended fire ∈ s.history ∨ ∃ f ∈ s.stack, f.fire = fire

theorem Inv.start : Inv {} where
  right := Throughout.nil
  few := fun _ _ h => absurd h List.not_mem_nil
  subscribed := fun _ _ => ⟨nofun, fun h => absurd h.1 List.not_mem_nil⟩
  listed := fun _ => rfl
  fresh := fun _ _ h => absurd h List.not_mem_nil
  distinct := List.nodup_nil
  frames := fun _ h => absurd h List.not_mem_nil
  accounted := fun _ _ h => absurd h List.not_mem_nil

/-- The fires under way are not affected by what is no event of theirs. -/
theorem Inv.of_tables {s' : State} (h : Inv s) (htables : Tables s') (hstack : s'.stack = s.stack)
    (hhistory : s'.history = s.history ∨ ∃ e, s'.history = s.history ++ [e] ∧
      (∀ fire, ¬e.Of fire) ∧ ∀ fire key, e ≠ .began fire key) : Inv s' := by
  refine { htables with distinct := hstack ▸ h.distinct, frames := ?_, accounted := ?_ }
  · intro f hf
    rw [hstack] at hf
    rcases hhistory with hsame | ⟨e, hnext, hof, -⟩
    · rw [hsame]
      exact h.frames f hf
    · rw [hnext]
      exact (h.frames f hf).concat (hof f.fire)
  · intro fire key hmem
    rw [hstack]
    rcases hhistory with hsame | ⟨e, hnext, -, hbegan⟩
    · rw [hsame] at hmem ⊢
      exact h.accounted fire key hmem
    · rw [hnext, List.mem_append, List.mem_singleton, or_iff_left (hbegan fire key).symm] at hmem
      rw [hnext]
      exact (h.accounted fire key hmem).imp_left (List.mem_append_left _)

/-- What is known while a fire looks for its next handler: the frames are those below it. -/
structure Firing (s : State) (fire : ℕ) (rest : List ℕ) : Prop extends Tables s where
  distinct : (fire :: s.stack.map Frame.fire).Nodup
  frames : ∀ f ∈ s.stack, InFire s.history f.fire f.rest
  accounted : ∀ fire' key, .began fire' key ∈ s.history →
    fire' = fire ∨ .ended fire' ∈ s.history ∨ ∃ f ∈ s.stack, f.fire = fire'
  inFire : InFire s.history fire rest

/-- The fires under way are different ones. -/
theorem Firing.other (h : Firing s fire rest) {f : Frame} (hf : f ∈ s.stack) : fire ≠ f.fire := by
  intro heq
  apply (List.nodup_cons.mp h.distinct).1
  rw [heq]
  exact List.mem_map_of_mem hf

/-- A fire ends when nobody is left to call. -/
theorem Firing.ended (h : Firing s fire rest) (hrest : ∀ id ∈ rest, Gone s.history id) :
    Inv (s.record (.ended fire)) := by
  have htables := h.toTables.record (e := .ended fire) trivial (h.inFire.right_ended hrest) nofun
  refine { htables with distinct := (List.nodup_cons.mp h.distinct).2, frames := ?_, accounted := ?_ }
  · intro f hf
    exact (h.frames f hf).concat (h.other hf)
  · intro fire' key hmem
    have hmem' : .began fire' key ∈ s.history := by
      rcases List.mem_append.mp hmem with hmem | hlast
      · exact hmem
      · exact absurd (List.mem_singleton.mp hlast) nofun
    rcases h.accounted fire' key hmem' with heq | hended | hframe
    · left
      rw [heq]
      exact List.mem_append_right _ List.mem_cons_self
    · exact Or.inl (List.mem_append_left _ hended)
    · exact Or.inr hframe

/-- A handler is called, and its fire goes on top of the stack. -/
theorem Firing.ran (h : Firing s fire (id :: rest)) (hgone : ¬Gone s.history id) :
    Inv ({ s with stack := ⟨fire, rest⟩ :: s.stack }.record (.ran fire id)) := by
  have htables := h.toTables.record (e := .ran fire id) trivial (h.inFire.right_ran hgone) nofun
  refine { htables with distinct := h.distinct, frames := ?_, accounted := ?_ }
  · intro f hf
    rcases List.mem_cons.mp hf with rfl | hf
    · exact h.inFire.run h.right
    · exact (h.frames f hf).concat (h.other hf)
  · intro fire' key hmem
    have hmem' : .began fire' key ∈ s.history := by
      rcases List.mem_append.mp hmem with hmem | hlast
      · exact hmem
      · exact absurd (List.mem_singleton.mp hlast) nofun
    rcases h.accounted fire' key hmem' with heq | hended | ⟨f, hf, hfire⟩
    · exact Or.inr ⟨_, List.mem_cons_self, heq.symm⟩
    · exact Or.inl (List.mem_append_left _ hended)
    · exact Or.inr ⟨f, List.mem_cons_of_mem _ hf, hfire⟩

/-- By induction on what is left of the snapshot. -/
theorem Firing.advance (h : Firing s fire rest) : Inv (advance s fire rest) := by
  induction rest with
  | nil => exact h.ended fun _ hid => absurd hid List.not_mem_nil
  | cons id rest ih =>
    have hmem : ∃ key, .registered id key ∈ s.history := by
      obtain ⟨-, front, hbegan, -⟩ := h.inFire
      exact hbegan.registered (List.mem_append_right _ List.mem_cons_self)
    obtain ⟨key, hkey⟩ := hmem
    unfold OsirisListeners.advance
    by_cases hsome : (s.subscribers id).isSome = true
    · rw [if_pos hsome]
      exact h.ran ((h.isSome_iff hkey).mp hsome)
    · rw [if_neg hsome]
      have hgone : Gone s.history id := by
        by_contra hnot
        exact hsome ((h.isSome_iff hkey).mpr hnot)
      exact ih { h with inFire := h.inFire.skip hgone }

/-- The fire on top goes on. -/
theorem Inv.firing (h : Inv s) {f : Frame} {stack : List Frame} (hstack : s.stack = f :: stack) :
    Firing { s with stack := stack } f.fire f.rest := by
  have hdistinct := h.distinct
  have hframes := h.frames
  have haccounted := h.accounted
  rw [hstack] at hdistinct hframes haccounted
  refine { h with distinct := hdistinct, frames := ?_, accounted := ?_, inFire := ?_ }
  · exact fun f' hf' => hframes f' (List.mem_cons_of_mem _ hf')
  · intro fire key hmem
    rcases haccounted fire key hmem with hended | ⟨f', hf', hfire⟩
    · exact Or.inr (Or.inl hended)
    · rcases List.mem_cons.mp hf' with rfl | hf'
      · exact Or.inl hfire.symm
      · exact Or.inr (Or.inr ⟨f', hf', hfire⟩)
  · exact hframes f List.mem_cons_self

/-- A fire begins with the subscribers that are registered. -/
theorem Inv.begins (h : Inv s) (key : Bytes) :
    Firing ({ s with fires := s.fires + 1 }.record (.began s.fires key)) s.fires
      ((s.listeners key).getD []) := by
  have hfresh (key' : Bytes) : .began s.fires key' ∉ s.history := fun hmem =>
    absurd (h.fresh _ _ hmem) (Nat.lt_irrefl _)
  have hnone (ids : List ℕ) : ¬Began s.history s.fires ids := fun hbegan =>
    hbegan.began.elim hfresh
  have hnext : Tables { s with fires := s.fires + 1 } :=
    { h with fresh := fun fire key hmem => (h.fresh fire key hmem).trans (Nat.lt_succ_self _) }
  have htables := hnext.record (e := .began s.fires key) trivial hfresh (by
    intro fire key' heq
    rw [← (Event.began.inj heq).1]
    exact Nat.lt_succ_self _)
  refine { htables with distinct := ?_, frames := ?_, accounted := ?_, inFire := ?_ }
  · apply List.nodup_cons.mpr ⟨_, h.distinct⟩
    intro hmem
    obtain ⟨f, hf, hfire⟩ := List.mem_map.mp hmem
    obtain ⟨-, front, hbegan, -⟩ := h.frames f hf
    exact hnone _ (hfire ▸ hbegan)
  · exact fun f hf => (h.frames f hf).concat id
  · intro fire key' hmem
    rcases List.mem_append.mp hmem with hmem | hlast
    · exact Or.inr ((h.accounted fire key' hmem).imp_left (List.mem_append_left _))
    · exact Or.inl (Event.began.inj (List.mem_singleton.mp hlast)).1
  · refine ⟨?_, [], ⟨s.history, key, [], rfl, h.listed key⟩, fun _ hid => absurd hid List.not_mem_nil, ?_⟩
    · intro hmem
      rcases List.mem_append.mp hmem with hmem | hlast
      · obtain ⟨ids, hbegan⟩ := began_ended h.right hmem
        exact hnone ids hbegan
      · exact absurd (List.mem_singleton.mp hlast) nofun
    · intro id _ hmem
      rcases List.mem_append.mp hmem with hmem | hlast
      · obtain ⟨ids, hbegan⟩ := began_ran h.right hmem
        exact hnone ids hbegan
      · exact absurd (List.mem_singleton.mp hlast) nofun

/-- The key of a list that was never made has no subscribers. -/
theorem Inv.fires (h : Inv s) (name : Bytes) (arity : ℤ) (event : Bytes) :
    Inv (fireOsirisListener s name arity event) := by
  have hbegins := h.begins (listenerKey name arity event)
  unfold fireOsirisListener
  dsimp only [State.record]
  split
  · next hlist =>
    rw [show s.listeners (listenerKey name arity event) = none from hlist] at hbegins
    exact hbegins.ended fun _ hid => absurd hid List.not_mem_nil
  · next list hlist =>
    rw [show s.listeners (listenerKey name arity event) = some list from hlist] at hbegins
    exact hbegins.advance

/-- Registering leaves the fires under way. -/
theorem registerListener_frame (s : State) (name : Bytes) (arity : ℤ) (event : Bytes)
    (watched defined : Bool) :
    (registerListener s name arity event watched defined).stack = s.stack ∧
      ((registerListener s name arity event watched defined).history = s.history ∨ ∃ e,
        (registerListener s name arity event watched defined).history = s.history ++ [e] ∧
        (∀ fire, ¬e.Of fire) ∧ ∀ fire key, e ≠ .began fire key) := by
  unfold registerListener
  split
  · exact ⟨rfl, Or.inl rfl⟩
  split
  · exact ⟨rfl, Or.inl rfl⟩
  · exact ⟨rfl, Or.inr ⟨_, rfl, fun _ => id, nofun⟩⟩

/-- So does unregistering. -/
theorem unregisterListener_frame (s : State) (arg : Arg) :
    (unregisterListener s arg).stack = s.stack ∧ ∃ answer,
      (unregisterListener s arg).history = s.history ++ [.unregistered arg answer] := by
  unfold unregisterListener
  split
  · exact ⟨rfl, _, rfl⟩
  · dsimp only
    split
    · exact ⟨rfl, _, rfl⟩
    · exact ⟨rfl, _, rfl⟩

/-- Every step whose errors can be printed keeps the history right. -/
theorem Inv.step {s' : State} {a : Action} (h : Inv s) (hprinted : Printed s a)
    (hstep : OsirisListeners.step s a = some s') : Inv s' := by
  cases a with
  | register name arity event watched defined =>
    obtain rfl := Option.some.inj hstep
    obtain ⟨hstack, hhistory⟩ := registerListener_frame s name arity event watched defined
    exact h.of_tables (h.toTables.register name arity event watched defined) hstack hhistory
  | unregister arg =>
    obtain rfl := Option.some.inj hstep
    obtain ⟨hstack, answer, hhistory⟩ := unregisterListener_frame s arg
    exact h.of_tables (h.toTables.unregister arg) hstack
      (Or.inr ⟨_, hhistory, fun _ => id, nofun⟩)
  | fire name arity event =>
    obtain rfl := Option.some.inj hstep
    exact h.fires name arity event
  | returns =>
    cases hstack : s.stack with
    | nil =>
      simp only [OsirisListeners.step, hstack] at hstep
      exact absurd hstep nofun
    | cons f stack =>
      simp only [OsirisListeners.step, hstack] at hstep
      obtain rfl := Option.some.inj hstep
      exact (h.firing hstack).advance
  | raises =>
    cases hstack : s.stack with
    | nil =>
      simp only [OsirisListeners.step, hstack] at hstep
      exact absurd hstep nofun
    | cons f stack =>
      simp only [OsirisListeners.step, hstack] at hstep
      obtain rfl := Option.some.inj hstep
      -- what an error cuts short had, by `hprinted`, no subscriber left to call
      have hfiring := h.firing hstack
      apply hfiring.ended
      intro id hid
      obtain ⟨-, front, hbegan, -⟩ := hfiring.inFire
      obtain ⟨key, hkey⟩ := hbegan.registered (List.mem_append_right _ hid)
      by_contra hgone
      have hsome := (h.isSome_iff hkey).mpr hgone
      have hnone : s.subscribers id = none := hprinted rfl f (by rw [hstack]; rfl) id hid
      rw [hnone] at hsome
      exact absurd hsome nofun

/-- So does every run of such steps. -/
theorem Inv.of_run {as : List Action} (h : Run OsirisListeners.step Printed {} as s) : Inv s := by
  apply h.invariant
  · exact Inv.start
  · exact fun _ _ _ hinv hprinted hstep => hinv.step hprinted hstep

/-- A fire that printing an error ends with somebody left to call does not end rightly. -/
theorem Inv.printed {s' : State} {a : Action} (h : Inv s)
    (hstep : OsirisListeners.step s a = some s') (hright : Throughout Right s'.history) :
    Printed s a := by
  rintro rfl f hf id hid
  cases hstack : s.stack with
  | nil =>
    rw [hstack] at hf
    exact absurd hf nofun
  | cons f' stack =>
    rw [hstack] at hf
    obtain rfl : f' = f := Option.some.inj hf
    simp only [OsirisListeners.step, hstack] at hstep
    obtain rfl := Option.some.inj hstep
    obtain ⟨-, ids, hbegan, hserved⟩ := (Throughout.concat_iff.mp hright).2
    obtain ⟨-, front, hbegan', -, hran⟩ := (h.firing hstack).inFire
    have hids := hbegan.unique hbegan' h.right
    rcases hserved id (hids ▸ List.mem_append_right _ hid) with hrun | hgone
    · exact absurd hrun (hran id hid)
    · cases hkey : s.subscribers id with
      | none => rfl
      | some key => exact absurd hgone ((h.subscribed id key).mp hkey).2

/-- In every run in which printing an error does not raise while a fire has subscribers left to
call, everything that happens is right after what happened before, and each fire that began has
ended or is under way; and a further step keeps that just if it prints so, too. -/
theorem dispatched_of_run {as : List Action} (h : Run step Printed {} as s) :
    Throughout Right s.history ∧
      (∀ fire key, .began fire key ∈ s.history →
        .ended fire ∈ s.history ∨ ∃ f ∈ s.stack, f.fire = fire) ∧
      ∀ a s', step s a = some s' → (Throughout Right s'.history ↔ Printed s a) := by
  have hinv := Inv.of_run h
  refine ⟨hinv.right, hinv.accounted, ?_⟩
  intro a s' hstep
  exact ⟨hinv.printed hstep, fun hprinted => (hinv.step hprinted hstep).right⟩

/-- Two subscribers of a key, the first of which unregisters the second while it runs. -/
def demoActions : List Action :=
  [.register (bytes "A") 1 (bytes "after") true false,
    .register (bytes "A") 1 (bytes "after") true false,
    .fire (bytes "A") 1 (bytes "after"), .unregister (.integer 2), .returns]

/-- Two fires, one within a handler of the other. -/
theorem dispatched_of_run_demo : ∃ s, Run step Printed {} demoActions s ∧ (Throughout Right s.history ∧
    (∀ fire key, .began fire key ∈ s.history →
      .ended fire ∈ s.history ∨ ∃ f ∈ s.stack, f.fire = fire) ∧
    ∀ a s', step s a = some s' → (Throughout Right s'.history ↔ Printed s a)) := by
  obtain ⟨s, hrun, -⟩ : ∃ s, Run step Printed {} demoActions s ∧ s.stack.isEmpty = true :=
    Run.exists_of_follow _ _ _ _ _ (by decide +kernel)
  exact ⟨s, hrun, dispatched_of_run hrun⟩

/-- The first of two subscribers raises an error that cannot be printed: the fire ends, and the
second is not called. -/
theorem raised_error_ends_fire : ¬∀ (as : List Action) (s : State),
    Run step (fun _ _ => True) {} as s → Throughout Right s.history := by
  intro h
  obtain ⟨s, hrun, hhistory⟩ : ∃ s, Run step (fun _ _ => True) {}
      [.register (bytes "A") 1 (bytes "after") true false,
        .register (bytes "A") 1 (bytes "after") true false,
        .fire (bytes "A") 1 (bytes "after"), .raises] s ∧
      decide (s.history = [.registered 1 (bytes "A/1/after"), .registered 2 (bytes "A/1/after"),
        .began 0 (bytes "A/1/after"), .ran 0 1, .ended 0]) = true :=
    Run.exists_of_follow _ _ _ _ _ (by decide +kernel)
  have hright := h _ s hrun
  rw [of_decide_eq_true hhistory] at hright
  obtain ⟨-, ids, hbegan, hserved⟩ := hright [.registered 1 (bytes "A/1/after"),
    .registered 2 (bytes "A/1/after"), .began 0 (bytes "A/1/after"), .ran 0 1] (.ended 0) [] rfl
  have hids : ids = [1, 2] := by
    apply hbegan.unique _ fun past e later hsplit => hright past e (later ++ [.ended 0]) (by
      rw [← List.cons_append, ← List.append_assoc, ← hsplit]
      rfl)
    exact ⟨[.registered 1 (bytes "A/1/after"), .registered 2 (bytes "A/1/after")],
      bytes "A/1/after", [.ran 0 1], rfl, by decide +kernel⟩
  rcases hserved 2 (hids ▸ List.mem_cons_of_mem _ List.mem_cons_self) with hran | hgone
  · exact absurd hran (by decide +kernel)
  · exact absurd hgone (by decide +kernel)

end OsirisListeners
end Bg3le
