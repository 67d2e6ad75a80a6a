import Bg3le.Net.VarsTheorems

/-!
# Which trigger sends which variable

Every call of a context registers or marks first and then flushes or not; what is marked waits for
the first flush that takes it, the next tick's at the latest.
-/

namespace Bg3le
namespace Vars

open Lua

variable {r : Remote} {c : Context} {mod user onTick : Bool} {v d : Var} {a : Action}

theorem foldl_mark_map {β : Type} (f : β → Var) (l : List β) (c : Context) :
    (l.map f).foldl Context.mark c = l.foldl (fun c e => c.mark (f e)) c := List.foldl_map

/-- A call prepares the context, and then flushes it or leaves it so. -/
theorem act_eq (r : Remote) (c : Context) (a : Action) :
    act r c a = match trigger c a with
      | none => { context := prepared c a }
      | some (mod, user, onTick) => flush r mod user onTick (prepared c a) := by
  cases a with
  | registerMod module name options => rfl
  | registerUser name options => rfl
  | write v value =>
    unfold act write trigger prepared marks
    by_cases h : c.defs v = none ∨ option (c.defs v) c.writeable = false
    · simp [h]
    · simp only [if_neg h, flushVarsOnWrite]
      have hdefs : ((c.setValue v value).mark v).defs v = c.defs v := rfl
      rw [hdefs]
      by_cases hw : option (c.defs v) .syncOnWrite = true <;> simp [hw]
  | dirtyUser guid key =>
    cases key with
    | none =>
      show ({ context := _ } : Flushed) = { context := _ }
      unfold prepared marks
      simp only [foldl_mark_map]
    | some key =>
      unfold act dirtyUserVariables trigger prepared marks
      simp only [flushVarsOnWrite]
      have hdefs : ∀ w, (c.mark w).defs w = c.defs w := fun _ => rfl
      rw [hdefs]
      by_cases hw : option (c.defs ⟨false, guid.getD kEverywhere, key⟩) .syncOnWrite = true <;>
        simp [hw]
  | dirtyMod uuid key =>
    cases uuid with
    | none =>
      unfold act dirtyModVariables trigger prepared marks
      simp only [foldl_mark_map]
    | some owner =>
      cases key with
      | none =>
        unfold act dirtyModVariables trigger prepared marks
        simp only [foldl_mark_map]
      | some key => rfl
  | tick => rfl
  | syncMod => rfl
  | syncUser => rfl

theorem mem_foldl_mark {l : List Var} : d ∈ (l.foldl Context.mark c).dirty ↔ d ∈ l ∨ d ∈ c.dirty := by
  induction l generalizing c with
  | nil => simp
  | cons v l ih =>
    rw [List.foldl_cons, ih, Context.mark, List.mem_insert_iff, List.mem_cons]
    tauto

theorem mem_prepared_dirty : d ∈ (prepared c a).dirty ↔ d ∈ marks c a ∨ d ∈ c.dirty := by
  unfold prepared
  rw [mem_foldl_mark]
  cases a with
  | write v value => by_cases h : marks c (.write v value) = [] <;> simp [h, Context.setValue]
  | _ => rfl

/-- A flush takes a mark that is due, with all it stands for. -/
def Takes (f : Flushed) (d : Var) : Prop :=
  ∀ v, Covers f.context d v → ∃ y, (v, y) ∈ f.payload

theorem flush_payload : (flush r mod user onTick c).payload = (takeAll mod user onTick c).1 := by
  unfold flush
  cases takeAll mod user onTick c with
  | mk payload c' =>
    simp only
    split
    · rename_i h
      exact h.symm
    · split
      · rfl
      · split <;> rfl

theorem covers_flush : Covers (flush r mod user onTick c).context d v ↔ Covers c d v := by
  unfold Covers
  rw [flush_context, takeAll_values]

theorem syncs_flush (b : Bool) :
    (flush r mod user onTick c).context.syncs d b = c.syncs d b := by
  unfold Context.syncs Context.direction
  rw [flush_context, takeAll_defs, takeAll_server]

theorem takes_flush (hd : d ∈ c.dirty) (hchosen : chosen mod user d = true)
    (hsyncs : c.syncs d onTick = true) : Takes (flush r mod user onTick c) d := by
  intro v hv
  rw [flush_payload, mem_takeAll]
  exact ⟨d, hd, hchosen, hsyncs, covers_flush.mp hv⟩

/-- A flush leaves the marks of the other kind. -/
theorem dirty_flush (hd : d ∈ c.dirty) (hchosen : chosen mod user d = false) :
    d ∈ (flush r mod user onTick c).context.dirty := by
  rw [flush_context, mem_takeAll_dirty]
  exact ⟨hd, .inl hchosen⟩

theorem syncs_of_tick (h : c.syncs d true = true) (b : Bool) : c.syncs d b = true := by
  unfold Context.syncs at h ⊢
  simp only [Bool.and_eq_true, Bool.not_true, Bool.false_or] at h
  simp [h.1, h.2]

/-- A mark that may be sent on the tick is taken by the call, or stays. -/
theorem act_mark (hd : d ∈ (prepared c a).dirty)
    (hsyncs : (act r c a).context.syncs d true = true) :
    Takes (act r c a) d ∨ d ∈ (act r c a).context.dirty := by
  rw [act_eq] at hsyncs ⊢
  cases htrigger : trigger c a with
  | none => exact .inr hd
  | some t =>
    obtain ⟨mod, user, onTick⟩ := t
    simp only [htrigger, syncs_flush] at hsyncs
    cases hchosen : chosen mod user d with
    | true => exact .inl (takes_flush hd hchosen (syncs_of_tick hsyncs _))
    | false => exact .inr (dirty_flush hd hchosen)

/-- The tick takes every mark that may be sent on it. -/
theorem tick_takes (hd : d ∈ c.dirty) (hsyncs : (act r c .tick).context.syncs d true = true) :
    Takes (act r c .tick) d := by
  have hflush : act r c .tick = flush r true true true c := rfl
  rw [hflush, syncs_flush] at hsyncs
  rw [hflush]
  exact takes_flush hd (by unfold chosen; split <;> rfl) hsyncs

/-! ### Runs -/

/-- A call of a run: the context it was made in, and what it did. -/
structure Entry where
  action : Action
  before : Context
  done : Flushed

/-- A context with the history of its calls. -/
structure State where
  context : Context
  log : List Entry := []

def step (r : Remote) (s : State) (a : Action) : Option State :=
  let done := act r s.context a
  some { context := done.context, log := s.log ++ [{ action := a, before := s.context, done }] }

/-- A variable that is sent neither on the tick nor on a write. -/
def OnlySync (c : Context) (v : Var) : Prop :=
  option (c.defs v) .syncOnTick = false ∧ option (c.defs v) .syncOnWrite = false

/-- What sends all variables of a kind at once. -/
def IsSyncOf (a : Action) (v : Var) : Prop :=
  match a with
  | .syncMod => v.mod = true
  | .syncUser => v.mod = false
  | _ => False

/-- A call that flushes on a write finds no variable to send that is for Sync calls only, and no
call sends a mod variable of the UUID that stands for every entity. -/
def Quiet (s : State) (a : Action) : Prop :=
  (trigger s.context a = some (true, true, false) →
    ∀ d ∈ (prepared s.context a).dirty, (prepared s.context a).syncs d false = true →
      ∀ v, Covers (prepared s.context a) d v → ¬ OnlySync (prepared s.context a) v) ∧
  ∀ mod user onTick, trigger s.context a = some (mod, user, onTick) →
    ∀ d ∈ (prepared s.context a).dirty, chosen mod user d = true →
      (prepared s.context a).syncs d onTick = true → d.mod = true → d.owner ≠ kEverywhere

/-- The options of each variable were honoured by the calls of a run: one for Sync calls only was
sent by a Sync call of its kind, one without the context's direction never, and one that was
marked, and could be sent on the tick from then on, was sent by the next tick at the latest. -/
structure Honoured (log : List Entry) : Prop where
  only_sync : ∀ e ∈ log, ∀ v x, (v, x) ∈ e.done.payload → OnlySync e.done.context v →
    IsSyncOf e.action v
  direction : ∀ e ∈ log, ∀ v x, (v, x) ∈ e.done.payload →
    option (e.done.context.defs v) e.done.context.direction = true
  on_tick : ∀ pre e mid t post d, log = pre ++ e :: (mid ++ t :: post) → d ∈ marks e.before e.action →
    t.action = .tick → (∀ x ∈ e :: (mid ++ [t]), x.done.context.syncs d true = true) →
    ∃ x ∈ e :: (mid ++ [t]), Takes x.done d

theorem defs_act : (act r c a).context.defs = (prepared c a).defs := by
  rw [act_eq]
  cases trigger c a with
  | none => rfl
  | some t =>
    simp only [flush_context]
    exact takeAll_defs _ _ _ _

theorem server_act : (act r c a).context.server = (prepared c a).server := by
  rw [act_eq]
  cases trigger c a with
  | none => rfl
  | some t =>
    simp only [flush_context]
    exact takeAll_server _ _ _ _

/-- What a call sends was marked, and could be sent. -/
theorem act_payload {x : Value} (h : (v, x) ∈ (act r c a).payload) :
    ∃ mod user onTick d, trigger c a = some (mod, user, onTick) ∧ d ∈ (prepared c a).dirty ∧
      chosen mod user d = true ∧ (prepared c a).syncs d onTick = true ∧
      Covers (prepared c a) d v := by
  rw [act_eq] at h
  cases htrigger : trigger c a with
  | none => simp [htrigger] at h
  | some t =>
    obtain ⟨mod, user, onTick⟩ := t
    simp only [htrigger, flush_payload] at h
    obtain ⟨d, hd, hchosen, hsyncs, hcovers⟩ := mem_takeAll.mp ⟨x, h⟩
    exact ⟨mod, user, onTick, d, rfl, hd, hchosen, hsyncs, hcovers⟩

theorem act_direction {s : State} (hquiet : Quiet s a) {x : Value}
    (hmem : (v, x) ∈ (act r s.context a).payload) :
    option ((act r s.context a).context.defs v) (act r s.context a).context.direction = true := by
  obtain ⟨mod, user, onTick, d, htrigger, hd, hchosen, hsyncs, hcovers⟩ := act_payload hmem
  obtain ⟨hdefs, _⟩ := defs_of_covers hcovers (hquiet.2 _ _ _ htrigger d hd hchosen hsyncs)
  unfold Context.direction
  rw [defs_act, server_act, hdefs]
  unfold Context.syncs Context.direction at hsyncs
  exact (Bool.and_eq_true_iff.mp hsyncs).1

/-- The triggers other than a Sync call are the tick and a write. -/
theorem trigger_cases (h : trigger c a = some (mod, user, onTick)) :
    (a = .tick ∧ onTick = true) ∨ (mod = true ∧ user = true ∧ onTick = false) ∨
      (a = .syncMod ∧ mod = true ∧ user = false) ∨ (a = .syncUser ∧ mod = false ∧ user = true) := by
  unfold trigger at h
  cases a with
  | registerMod => simp at h
  | registerUser => simp at h
  | write v value =>
    simp only [Option.ite_none_right_eq_some, Option.some.injEq, Prod.mk.injEq] at h
    simp [← h.2.1, ← h.2.2.1, ← h.2.2.2]
  | dirtyUser guid key =>
    cases key with
    | none => simp at h
    | some key =>
      simp only [Option.ite_none_right_eq_some, Option.some.injEq, Prod.mk.injEq] at h
      simp [← h.2.1, ← h.2.2.1, ← h.2.2.2]
  | dirtyMod => simp at h
  | tick =>
    simp only [Option.some.injEq, Prod.mk.injEq] at h
    simp [← h.2.2]
  | syncMod =>
    simp only [Option.some.injEq, Prod.mk.injEq] at h
    simp [← h.1, ← h.2.1]
  | syncUser =>
    simp only [Option.some.injEq, Prod.mk.injEq] at h
    simp [← h.1, ← h.2.1]

theorem act_only_sync {s : State} (hquiet : Quiet s a) {x : Value}
    (hmem : (v, x) ∈ (act r s.context a).payload)
    (honly : OnlySync (act r s.context a).context v) : IsSyncOf a v := by
  obtain ⟨mod, user, onTick, d, htrigger, hd, hchosen, hsyncs, hcovers⟩ := act_payload hmem
  obtain ⟨hdefs, hmod⟩ := defs_of_covers hcovers
    (hquiet.2 _ _ _ htrigger d hd hchosen hsyncs)
  unfold OnlySync at honly
  rw [defs_act] at honly
  obtain ⟨rfl, rfl⟩ | ⟨rfl, rfl, rfl⟩ | ⟨rfl, rfl, rfl⟩ | ⟨rfl, rfl, rfl⟩ := trigger_cases htrigger
  · unfold Context.syncs at hsyncs
    rw [hdefs] at honly
    simp [honly.1] at hsyncs
  · exact absurd honly (hquiet.1 htrigger d hd hsyncs v hcovers)
  · show v.mod = true
    rw [hmod]
    unfold chosen at hchosen
    cases hd : d.mod <;> simp_all
  · show v.mod = false
    rw [hmod]
    unfold chosen at hchosen
    cases hd : d.mod <;> simp_all

/-- What holds after any number of calls. -/
structure Inv (s : State) : Prop where
  honoured : Honoured s.log
  /-- A mark that waits for the tick is still there. -/
  waiting : ∀ d, Since (fun _ e => e.done.context.syncs d true = true ∧ ¬ Takes e.done d)
    (fun _ e => d ∈ marks e.before e.action ∧ e.done.context.syncs d true = true ∧
      ¬ Takes e.done d) s.log → d ∈ s.context.dirty

theorem Inv.step {s s' : State} (h : Inv s) (hquiet : Quiet s a) (hstep : step r s a = some s') :
    Inv s' := by
  obtain rfl := Option.some.inj hstep
  constructor
  · constructor
    · intro e he v x hmem honly
      obtain hold | hnew := List.mem_append.mp he
      · exact h.honoured.only_sync e hold v x hmem honly
      · obtain rfl := List.mem_singleton.mp hnew
        exact act_only_sync hquiet hmem honly
    · intro e he v x hmem
      obtain hold | hnew := List.mem_append.mp he
      · exact h.honoured.direction e hold v x hmem
      · obtain rfl := List.mem_singleton.mp hnew
        exact act_direction hquiet hmem
    · intro pre e mid t post d hsplit hmark htick hsyncs
      obtain rfl | ⟨post, last, rfl⟩ := List.eq_nil_or_concat' post
      · -- the new call is the tick: a mark that no call took so far is there for it
        obtain ⟨hlog, hlast⟩ : s.log = pre ++ e :: mid ∧ _ = t := by
          have hcons : pre ++ e :: (mid ++ [t]) = (pre ++ e :: mid) ++ [t] := by simp
          rw [hcons] at hsplit
          obtain ⟨hlog, hlast⟩ := List.append_inj' hsplit rfl
          exact ⟨hlog, List.singleton_inj.mp hlast⟩
        by_contra hnone
        have hnot : ∀ x ∈ e :: (mid ++ [t]), ¬ Takes x.done d :=
          fun x hx htakes => hnone ⟨x, hx, htakes⟩
        have hwaits : d ∈ s.context.dirty := by
          refine h.waiting d ⟨pre, e, mid, hlog, ⟨hmark, ?_, ?_⟩, ?_⟩
          · exact hsyncs e List.mem_cons_self
          · exact hnot e List.mem_cons_self
          · intro mid' x rest hmid
            have hx : x ∈ e :: (mid ++ [t]) := by simp [hmid]
            exact ⟨hsyncs x hx, hnot x hx⟩
        subst hlast
        simp only at htick
        subst htick
        have ht := hsyncs _ (List.mem_cons_of_mem e (List.mem_append_right mid List.mem_cons_self))
        exact hnot _ (List.mem_cons_of_mem e (List.mem_append_right mid List.mem_cons_self))
          (tick_takes hwaits ht)
      · have hcons : pre ++ e :: (mid ++ t :: (post ++ [last])) =
            (pre ++ e :: (mid ++ t :: post)) ++ [last] := by simp
        rw [hcons] at hsplit
        obtain ⟨hlog, _⟩ := List.append_inj' hsplit rfl
        exact h.honoured.on_tick pre e mid t post d hlog hmark htick hsyncs
  · intro d hsince
    obtain ⟨hmark, hsyncs, hnot⟩ | ⟨⟨hsyncs, hnot⟩, hbefore⟩ := Since.concat_iff.mp hsince
    · obtain htakes | hd := act_mark (mem_prepared_dirty.mpr (.inl hmark)) hsyncs
      · exact absurd htakes hnot
      · exact hd
    · obtain htakes | hd := act_mark (mem_prepared_dirty.mpr (.inr (h.waiting d hbefore))) hsyncs
      · exact absurd htakes hnot
      · exact hd

/-- In every run of registrations, writes, marks, ticks and Sync calls whose flushes on a write
find nothing that is for Sync calls only, the options of every variable are honoured. -/
theorem honoured_of_run {server : Bool} {as : List Action} {s : State}
    (h : Run (step r) Quiet { context := { server } } as s) : Honoured s.log := by
  have hinit : Inv { context := { server } } := by
    constructor
    · exact ⟨by simp, by simp, by simp⟩
    · rintro d ⟨pre, e, post, hnil, _⟩
      exact absurd hnil (by simp)
  exact (h.invariant hinit fun _ _ _ hinv hquiet hstep => hinv.step hquiet hstep).honoured

/-! ### Two runs -/

/-- Two variables of a mod, for Sync calls only and to be sent when they are written. -/
def demoQuiet : Var := ⟨true, bytes "m", bytes "a"⟩

def demoLoud : Var := ⟨true, bytes "m", bytes "b"⟩

def demoOptions (onWrite : Bool) : Options
  | .syncToClient => some true
  | .syncOnTick => some false
  | .syncOnWrite => some onWrite
  | _ => none

def demoRemote : Remote := { hosting := true, binary := fun _ => true }

def demoStart : List Action :=
  [.registerMod demoQuiet.owner demoQuiet.key (demoOptions false),
    .registerMod demoLoud.owner demoLoud.key (demoOptions true)]

/-- A mark under the UUID of every entity, of a key that is registered for no mod. -/
def demoStray : Var := ⟨true, kEverywhere, bytes "z"⟩

/-- One variable is sent as it is written, and the other by a Sync call. -/
theorem honoured_of_run_demo : ∃ s, Run (step demoRemote) Quiet { context := { server := true } }
    (demoStart ++ [.dirtyMod (some kEverywhere) (some (bytes "z")), .write demoLoud (.integer 1),
      .write demoQuiet (.integer 2), .syncMod]) s ∧ Honoured s.log := by
  have hrun : ∃ s, Run (step demoRemote) Quiet { context := { server := true } }
      (((((([] ++ [.registerMod demoQuiet.owner demoQuiet.key (demoOptions false)]) ++
        [.registerMod demoLoud.owner demoLoud.key (demoOptions true)]) ++
        [.dirtyMod (some kEverywhere) (some (bytes "z"))]) ++
        [.write demoLoud (.integer 1)]) ++ [.write demoQuiet (.integer 2)]) ++ [.syncMod]) s := by
    refine ⟨_, .step (.step (.step (.step (.step (.step (.refl _) ?_ rfl) ?_ rfl) ?_ rfl) ?_ rfl)
      ?_ rfl) ?_ rfl⟩
    · exact ⟨fun h => absurd h (by decide +kernel), fun _ _ _ h => absurd h (by simp [trigger])⟩
    · exact ⟨fun h => absurd h (by decide +kernel), fun _ _ _ h => absurd h (by simp [trigger])⟩
    · exact ⟨fun h => absurd h (by decide +kernel), fun _ _ _ h => absurd h (by simp [trigger])⟩
    · -- the write that flushes finds the stray mark too, which nothing is registered for
      refine ⟨fun _ d hd hsyncs v hcovers honly => ?_, fun mod user onTick htrigger => ?_⟩
      · have hmarks : d ∈ [demoLoud, demoStray] := hd
        obtain rfl | rfl : d = demoLoud ∨ d = demoStray := by simpa using hmarks
        · obtain rfl : v = demoLoud := by
            unfold Covers at hcovers
            rwa [if_neg (by decide +kernel)] at hcovers
          exact absurd honly.2 (by decide +kernel)
        · exact absurd hsyncs (by decide +kernel)
      · have hflush : some (true, true, false) = some (mod, user, onTick) :=
          Eq.trans (by decide +kernel) htrigger
        obtain ⟨rfl, rfl, rfl⟩ : true = mod ∧ true = user ∧ false = onTick := by simpa using hflush
        decide +kernel
    · refine ⟨fun h => absurd h (by decide +kernel), fun _ _ _ htrigger => ?_⟩
      have hnone : none = some _ := Eq.trans (by decide +kernel) htrigger
      exact absurd hnone (by simp)
    · refine ⟨fun h => absurd h (by decide +kernel), fun mod user onTick htrigger => ?_⟩
      obtain ⟨rfl, rfl, rfl⟩ : true = mod ∧ false = user ∧ false = onTick := by
        simpa [trigger] using htrigger
      decide +kernel
  obtain ⟨s, hrun⟩ := hrun
  exact ⟨s, hrun, honoured_of_run hrun⟩

def Action.isWrite : Action → Bool
  | .write _ _ => true
  | _ => false

/-- A variable that is for Sync calls only goes along with one that is written. -/
theorem write_sends_quiet : ¬ ∀ (r : Remote) (server : Bool) (as : List Action) (s : State),
    Run (step r) (fun _ _ => True) { context := { server } } as s → Honoured s.log := by
  intro h
  have hrun : ∃ s, Run (step demoRemote) (fun _ _ => True) { context := { server := true } }
      (demoStart ++ [.write demoQuiet (.integer 1), .write demoLoud (.integer 1)]) s ∧
      s.log.any (fun e => e.action.isWrite &&
        (e.done.payload.any fun p => p.1 = demoQuiet) &&
        decide (option (e.done.context.defs demoQuiet) .syncOnTick = false ∧
          option (e.done.context.defs demoQuiet) .syncOnWrite = false)) = true :=
    Run.exists_of_follow _ _ _ _ _ (by decide +kernel)
  obtain ⟨s, hrun, hsent⟩ := hrun
  obtain ⟨e, he, hentry⟩ := List.any_eq_true.mp hsent
  simp only [Bool.and_eq_true, decide_eq_true_eq] at hentry
  obtain ⟨⟨hwrite, hpayload⟩, honly⟩ := hentry
  obtain ⟨q, hq, hkey⟩ := List.any_eq_true.mp hpayload
  have hkey' : q.1 = demoQuiet := of_decide_eq_true hkey
  have hsync := (h _ _ _ s hrun).only_sync e he demoQuiet q.2 (hkey' ▸ hq) honly
  cases haction : e.action with
  | write v value => simp [haction, IsSyncOf] at hsync
  | _ => simp [haction, Action.isWrite] at hwrite

end Vars
end Bg3le
