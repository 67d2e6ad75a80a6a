import Bg3le.Library.Run
import Bg3le.Library.Separator
import Bg3le.Lua.ComponentEvents
import Mathlib.Data.List.Perm.Basic

/-!
# What is raised for each addition

The queue holds the additions since the last delivery in order, and the tables the immediate ones
of them. A delivery drops each event whose key is in the table, so the create events are those of
the immediate additions and of the others whose component no immediate addition made too.
-/

namespace Bg3le
namespace ComponentEvents

open NumberText

variable {c : Component} {s s' : State} {d d' : Delivery} {r : Report}

/-! ## Keys -/

/-- A component is known by its key. -/
theorem key_injective : Function.Injective Component.key := by
  rintro ⟨⟨h, hn⟩, name⟩ ⟨⟨h', hn'⟩, name'⟩ heq
  have hslash (i : ℤ) : 0x2f ∉ formatD i := fun hin =>
    absurd (printed_formatD i 0x2f hin) (by decide)
  obtain ⟨hhandle, rfl⟩ := Separator.parts_eq (hslash h.toInt) (hslash h'.toInt) heq
  obtain rfl := Int64.toInt_inj.mp (formatD_injective hhandle)
  rfl

/-! ## Reports -/

namespace Report

/-- The components that an event was raised for. -/
def of (r : Report) (kind : Kind) : List Component :=
  (r.raised.filter (·.kind = kind)).map (·.component)

/-- The queued copy of an event for the component is dropped. -/
def drops (r : Report) (c : Component) : Bool :=
  ((r.additions.filter (·.immediate)).map (·.component.key)).contains c.key

/-- Each addition was delivered once, with one create event, and with one deferred event if its
component was still there. -/
structure Right (r : Report) : Prop where
  created : (r.of .create).Perm (r.additions.map (·.component))
  deferred : (r.of .createDeferred).Perm ((r.arrived.filter (·.2)).map (·.1.component))
  complete : (r.arrived.map (·.1)).Perm r.additions

/-- No component was added both immediately and by the engine. -/
def Apart (r : Report) : Prop :=
  ∀ a ∈ r.additions, ∀ b ∈ r.additions, a.immediate = true → b.immediate = false →
    a.component ≠ b.component

/-- What the engine added was still there when it was delivered. -/
def Stays (r : Report) : Prop := ∀ p ∈ r.arrived, p.1.immediate = false → p.2 = true

instance (r : Report) : Decidable r.Apart :=
  inferInstanceAs (Decidable (∀ a ∈ r.additions, ∀ b ∈ r.additions, _ → _ → _))

instance (r : Report) : Decidable r.Stays := inferInstanceAs (Decidable (∀ p ∈ r.arrived, _ → _))

/-- What a delivery leaves. -/
structure Settled (r : Report) : Prop where
  created : r.of .create = (r.additions.filter (·.immediate) ++
    r.additions.filter (fun a => !r.drops a.component)).map (·.component)
  deferred : r.of .createDeferred =
    (r.arrived.filter fun p => if p.1.immediate then p.2 else !r.drops p.1.component).map
      (·.1.component)
  arrived : r.arrived.map (·.1) =
    r.additions.filter (fun a => !a.immediate) ++ r.additions.filter (·.immediate)

/-- A report drops what was added at once. -/
theorem drops_iff : r.drops c = true ↔
    ∃ a ∈ r.additions, a.immediate = true ∧ a.component = c := by
  unfold drops
  rw [List.contains_iff_mem, List.mem_map]
  constructor
  · rintro ⟨a, ha, hkey⟩
    obtain ⟨hin, himm⟩ := List.mem_filter.mp ha
    exact ⟨a, hin, himm, key_injective hkey⟩
  · rintro ⟨a, hin, himm, rfl⟩
    exact ⟨a, List.mem_filter.mpr ⟨hin, himm⟩, rfl⟩

/-- Where no component was added both ways, the events of the engine's additions are kept. -/
theorem Apart.drops_eq (h : r.Apart) {a : Addition} (ha : a ∈ r.additions) :
    r.drops a.component = a.immediate := by
  cases himm : a.immediate with
  | true => exact drops_iff.mpr ⟨a, ha, himm, rfl⟩
  | false =>
    rw [← Bool.not_eq_true, drops_iff]
    rintro ⟨b, hb, himm', hsame⟩
    exact h b hb a ha himm' himm hsame

/-- The additions are those at once and those deferred. -/
theorem perm_additions (additions : List Addition) :
    (additions.filter (·.immediate) ++ additions.filter (fun a => !a.immediate)).Perm additions :=
  List.filter_append_perm _ additions

/-- In a settled report all additions arrived. -/
theorem Settled.complete (h : r.Settled) : (r.arrived.map (·.1)).Perm r.additions := by
  rw [h.arrived]
  exact List.perm_append_comm.trans (perm_additions r.additions)

/-- With one create event for each addition, none was dropped for another. -/
theorem Settled.apart (h : r.Settled)
    (hcreated : (r.of .create).Perm (r.additions.map (·.component))) : r.Apart := by
  have hkept : ((r.additions.filter fun a => !r.drops a.component).map (·.component)).Perm
      ((r.additions.filter fun a => !a.immediate).map (·.component)) := by
    have hall := hcreated.trans ((perm_additions r.additions).map (·.component)).symm
    rw [h.created, List.map_append, List.map_append] at hall
    exact (List.perm_append_left_iff _).mp hall
  intro a ha b hb himm himm' hsame
  have hin : b.component ∈ (r.additions.filter fun a => !a.immediate).map (·.component) :=
    List.mem_map_of_mem (List.mem_filter.mpr ⟨hb, by rw [himm']; rfl⟩)
  obtain ⟨x, hx, heq⟩ := List.mem_map.mp (hkept.mem_iff.mpr hin)
  have hdrops : r.drops x.component = true := drops_iff.mpr ⟨a, ha, himm, hsame.trans heq.symm⟩
  rw [List.mem_filter, hdrops] at hx
  exact absurd hx.2 (by decide)

/-- It is right where its additions are apart and stay. -/
theorem Settled.right_iff (h : r.Settled) : r.Right ↔ r.Apart ∧ r.Stays := by
  have hmem {p : Addition × Bool} (hp : p ∈ r.arrived) : p.1 ∈ r.additions :=
    h.complete.mem_iff.mp (List.mem_map_of_mem hp)
  -- where no component was added both ways, only an immediate addition's component is looked for
  have hraised (hapart : r.Apart) : r.of .createDeferred =
      (r.arrived.filter fun p => !p.1.immediate || p.2).map (·.1.component) := by
    rw [h.deferred]
    congr 1
    refine List.filter_congr fun p hp => ?_
    rw [hapart.drops_eq (hmem hp)]
    cases p.1.immediate <;> simp
  constructor
  · intro hright
    have hapart := h.apart hright.created
    refine ⟨hapart, fun p hp himm => ?_⟩
    have hlength := hright.deferred.length_eq
    have hsub : r.arrived.filter (·.2) =
        (r.arrived.filter fun p => !p.1.immediate || p.2).filter (·.2) := by
      rw [List.filter_filter]
      exact List.filter_congr fun p _ => by cases p.2 <;> simp
    rw [hraised hapart, List.length_map, List.length_map, hsub] at hlength
    exact List.length_filter_eq_length_iff.mp hlength.symm p
      (List.mem_filter.mpr ⟨hp, by rw [himm]; rfl⟩)
  · rintro ⟨hapart, hstays⟩
    refine ⟨?_, ?_, h.complete⟩
    · rw [h.created]
      refine List.Perm.map _ (List.Perm.trans ?_ (perm_additions r.additions))
      refine List.Perm.of_eq (congrArg _ (List.filter_congr fun a ha => ?_))
      rw [hapart.drops_eq ha]
    · rw [hraised hapart]
      refine List.Perm.of_eq (congrArg _ (List.filter_congr fun p hp => ?_))
      cases himm : p.1.immediate with
      | true => rfl
      | false => exact (hstays p hp himm).symm

@[simp] theorem of_raise (r : Report) (kind kind' : Kind) (c : Component) (present : Bool) :
    (r.raise kind c present).of kind' = r.of kind' ++ if kind = kind' then [c] else [] := by
  unfold of raise
  by_cases hkind : kind = kind' <;> simp [hkind]

@[simp] theorem additions_raise (r : Report) (kind : Kind) (c : Component) (present : Bool) :
    (r.raise kind c present).additions = r.additions := rfl

@[simp] theorem arrived_raise (r : Report) (kind : Kind) (c : Component) (present : Bool) :
    (r.raise kind c present).arrived = r.arrived := rfl

@[simp] theorem drops_raise (r : Report) (kind : Kind) (c : Component) (present : Bool) :
    (r.raise kind c present).drops = r.drops := rfl

@[simp] theorem additions_arrive (r : Report) (a : Addition) (there : Bool) :
    (r.arrive a there).additions = r.additions := by
  unfold arrive
  split_ifs <;> rfl

@[simp] theorem of_arrive (r : Report) (a : Addition) (there : Bool) (kind : Kind) :
    (r.arrive a there).of kind = r.of kind := by
  unfold arrive
  split_ifs <;> rfl

@[simp] theorem drops_arrive (r : Report) (a : Addition) (there : Bool) :
    (r.arrive a there).drops = r.drops := by
  unfold arrive
  split_ifs <;> rfl

@[simp] theorem additions_settle (r : Report) (c : Component) (there : Bool) :
    (r.settle c there).additions = r.additions := by
  cases there <;> rfl

@[simp] theorem drops_settle (r : Report) (c : Component) (there : Bool) :
    (r.settle c there).drops = r.drops := by
  cases there <;> rfl

@[simp] theorem arrived_settle (r : Report) (c : Component) (there : Bool) :
    (r.settle c there).arrived = r.arrived ++ [(⟨c, true⟩, there)] := rfl

@[simp] theorem of_settle (r : Report) (c : Component) (there : Bool) (kind : Kind) :
    (r.settle c there).of kind =
      r.of kind ++ if there ∧ .createDeferred = kind then [c] else [] := by
  cases there with
  | false => simp [settle, of]
  | true =>
    rw [show (r.settle c true).of kind = (r.raise .createDeferred c true).of kind from rfl, of_raise]
    simp

theorem arrive_immediate {a : Addition} (h : a.immediate = true) (there : Bool) :
    r.arrive a there = r := if_pos h

/-- A deferred addition arrives when it is delivered. -/
theorem arrived_arrive {a : Addition} (h : a.immediate = false) (there : Bool) :
    (r.arrive a there).arrived = r.arrived ++ [(a, there)] := by
  unfold arrive
  rw [if_neg (by rw [h]; decide)]

end Report

/-! ## A delivery -/

/-- A delivery that is through with these additions in the queue, and with these in the table of
deferred ones. -/
structure Going (d : Delivery) (before : List Addition) (entries : List Component) : Prop where
  immediate : d.immediate =
    (d.report.additions.filter (·.immediate)).map (·.component.key)
  events : d.report.additions = before ++ d.events.filterMap Queued.addition?
  deferred : (d.report.additions.filter (·.immediate)).map (·.component) = entries ++ d.deferred
  created : d.report.of .create = (d.report.additions.filter (·.immediate) ++
    before.filter (fun a => !d.report.drops a.component)).map (·.component)
  raised : d.report.of .createDeferred =
    (d.report.arrived.filter fun p =>
      if p.1.immediate then p.2 else !d.report.drops p.1.component).map (·.1.component)
  arrived : d.report.arrived.map (·.1) ++ (d.half.bind Queued.addition?).toList =
    before.filter (fun a => !a.immediate) ++ entries.map (⟨·, true⟩)
  order : entries = [] ∨ d.events = [] ∧ d.half = none
  half : ∀ a, d.half = some (.create a) → a.immediate = false ∧ d.report.drops a.component = false

variable {before : List Addition} {entries : List Component}

/-- The set of what is at once is that of the report. -/
theorem Going.contains_iff (h : Going d before entries) (c : Component) :
    d.immediate.contains c.key = d.report.drops c := by
  rw [h.immediate]
  rfl

/-- A delivery that is through has settled its report. -/
theorem Going.settled (h : Going d before entries) (hhalf : d.half = none) (hevents : d.events = [])
    (hdeferred : d.deferred = []) : d.report.Settled := by
  have hbefore : d.report.additions = before := by simpa [hevents] using h.events
  refine ⟨?_, h.raised, ?_⟩
  · rw [h.created, hbefore]
  · have harrived := h.arrived
    have hentries : entries = (d.report.additions.filter (·.immediate)).map (·.component) := by
      rw [h.deferred, hdeferred, List.append_nil]
    rw [hhalf, Option.bind_none, Option.toList_none, List.append_nil] at harrived
    rw [harrived, hbefore, hentries, List.map_map, hbefore]
    congr 1
    refine (List.map_congr_left fun a ha => ?_).trans (List.map_id _)
    obtain ⟨-, himm⟩ := List.mem_filter.mp ha
    rw [Function.comp_apply, ← himm]
    rfl

/-- The deferred call for an addition of the engine's. -/
theorem Going.createDeferred {a : Addition} (h : Going d before entries)
    (hhalf : d.half = some (.create a)) (there : Bool) :
    Going { d with
      half := none
      report := (d.report.raise .createDeferred a.component there).arrive a there }
      before entries := by
  obtain ⟨himm, hkept⟩ := h.half a hhalf
  have harrived := h.arrived
  rw [hhalf] at harrived
  exact {
    immediate := by simpa using h.immediate
    events := by simpa using h.events
    deferred := by simpa using h.deferred
    created := by simpa using h.created
    raised := by
      rw [Report.arrived_arrive himm]
      simp [h.raised, himm, hkept]
    arrived := by
      rw [Report.arrived_arrive himm]
      simpa [Queued.addition?] using harrived
    order := .inl (h.order.resolve_right fun hlate => by simp [hhalf] at hlate)
    half := nofun }

/-- An event that is dropped. -/
theorem Going.dropped {a : Addition} {rest : List Queued} (h : Going d before entries)
    (hhalf : d.half = none) (hevents : d.events = .create a :: rest)
    (hdrops : d.report.drops a.component = true) (there : Bool) :
    Going { d with events := rest, report := d.report.arrive a there } (before ++ [a]) entries := by
  have hadditions := h.events
  rw [hevents] at hadditions
  have hentries : entries = [] := h.order.resolve_right fun hlate => by simp [hevents] at hlate
  have harrived := h.arrived
  rw [hhalf, hentries] at harrived
  exact {
    immediate := by simpa using h.immediate
    events := by simpa [Queued.addition?] using hadditions
    deferred := by simpa using h.deferred
    created := by
      simp [h.created, hdrops]
    raised := by
      cases himm : a.immediate with
      | true =>
        rw [Report.arrive_immediate himm]
        exact h.raised
      | false =>
        rw [Report.arrived_arrive himm]
        simp [h.raised, himm, hdrops]
    arrived := by
      cases himm : a.immediate with
      | true =>
        rw [Report.arrive_immediate himm]
        simpa [himm, hentries, hhalf] using harrived
      | false =>
        rw [Report.arrived_arrive himm]
        simpa [himm, hentries, hhalf] using harrived
    order := .inl hentries
    half := by simpa using h.half }

/-- An event that is kept. -/
theorem Going.kept {a : Addition} {rest : List Queued} (h : Going d before entries)
    (hhalf : d.half = none) (hevents : d.events = .create a :: rest)
    (hkept : d.report.drops a.component = false) (there : Bool) :
    Going { d with
      events := rest
      half := some (.create a)
      report := d.report.raise .create a.component there } (before ++ [a]) entries := by
  have hadditions := h.events
  rw [hevents] at hadditions
  have hentries : entries = [] := h.order.resolve_right fun hlate => by simp [hevents] at hlate
  have harrived := h.arrived
  rw [hhalf, hentries] at harrived
  have himm : a.immediate = false := by
    by_contra himm
    have hin : a ∈ d.report.additions := by simp [hadditions, Queued.addition?]
    rw [Report.drops_iff.mpr ⟨a, hin, by simpa using himm, rfl⟩] at hkept
    exact absurd hkept (by decide)
  exact {
    immediate := by simpa using h.immediate
    events := by simpa [Queued.addition?] using hadditions
    deferred := by simpa using h.deferred
    created := by simp [h.created, hkept]
    raised := by simpa using h.raised
    arrived := by simpa [himm, hentries, Queued.addition?] using harrived
    order := .inl hentries
    half := by
      intro b hb
      obtain rfl := Queued.create.inj (Option.some.inj hb)
      exact ⟨himm, hkept⟩ }

/-- A call for a destroyed component. -/
theorem Going.destroy {events : List Queued} {half : Option Queued} {kind : Kind} {present : Bool}
    (h : Going d before entries) (hkind : kind ≠ .create ∧ kind ≠ .createDeferred)
    (hevents : events.filterMap Queued.addition? = d.events.filterMap Queued.addition?)
    (hhalf : half.bind Queued.addition? = none) (hhalf' : d.half.bind Queued.addition? = none)
    (horder : entries = []) (c : Component) :
    Going { d with events := events, half := half, report := d.report.raise kind c present }
      before entries where
  immediate := by simpa using h.immediate
  events := by simpa [hevents] using h.events
  deferred := by simpa using h.deferred
  created := by simpa [hkind.1] using h.created
  raised := by simpa [hkind.2] using h.raised
  arrived := by simpa [hhalf, hhalf'] using h.arrived
  order := .inl horder
  half a ha := by
    have ha : half = some (.create a) := ha
    rw [ha] at hhalf
    exact absurd hhalf (Option.some_ne_none a)

/-- An entry of the table of deferred events. -/
theorem Going.entry {rest : List Component} (h : Going d before entries)
    (hhalf : d.half = none) (hevents : d.events = []) (hdeferred : d.deferred = c :: rest)
    (there : Bool) :
    Going { d with deferred := rest, report := d.report.settle c there } before (entries ++ [c]) := by
  have harrived := h.arrived
  rw [hhalf] at harrived
  have hsplit := h.deferred
  rw [hdeferred] at hsplit
  exact {
    immediate := by simpa using h.immediate
    events := by simpa using h.events
    deferred := by simpa using hsplit
    created := by simpa using h.created
    raised := by cases there <;> simp [h.raised]
    arrived := by
      rw [Report.arrived_settle, List.map_append, List.map_append, ← List.append_assoc, ← harrived]
      simp [hhalf]
    order := .inr ⟨hevents, hhalf⟩
    half := by simpa using h.half }

/-- What one more part of the loops does. -/
theorem Going.proceed (h : Going d before entries) (present : Component → Bool) :
    (∃ d' before' entries', d.proceed present = some d' ∧ Going d' before' entries') ∨
      (d.proceed present = none ∧ d.report.Settled) := by
  unfold Delivery.proceed
  split
  · next a hhalf => exact .inl ⟨_, before, entries, rfl, h.createDeferred hhalf _⟩
  · next c hhalf =>
    have hentries : entries = [] := h.order.resolve_right fun hlate => by simp [hhalf] at hlate
    refine .inl ⟨_, before, entries, rfl, h.destroy ⟨by decide, by decide⟩ rfl rfl ?_ hentries c⟩
    rw [hhalf]
    rfl
  · next hhalf =>
    split
    · next a rest hevents =>
      rw [h.contains_iff]
      split_ifs with hdrops
      · exact .inl ⟨_, before ++ [a], entries, rfl, h.dropped hhalf hevents hdrops _⟩
      · exact .inl ⟨_, before ++ [a], entries, rfl,
          h.kept hhalf hevents (Bool.not_eq_true _ ▸ hdrops) _⟩
    · next c rest hevents =>
      have hentries : entries = [] := h.order.resolve_right fun hlate => by simp [hevents] at hlate
      refine .inl ⟨_, before, entries, rfl,
        h.destroy ⟨by decide, by decide⟩ ?_ rfl ?_ hentries c⟩
      · rw [hevents]
        rfl
      · rw [hhalf]
        rfl
    · next hevents =>
      split
      · next c rest hdeferred =>
        exact .inl ⟨_, before, entries ++ [c], rfl, h.entry hhalf hevents hdeferred _⟩
      · next hdeferred => exact .inr ⟨rfl, h.settled hhalf hevents hdeferred⟩

/-! ## Runs -/

/-- What holds in every state, as long as a delivery takes all events. -/
structure Inv (s : State) : Prop where
  queue : s.queue.filterMap Queued.addition? = s.additions
  created : s.created = (s.additions.filter (·.immediate)).map (·.component.key)
  deferred : s.deferred = (s.additions.filter (·.immediate)).map (·.component)
  raised : s.raised = (s.additions.filter (·.immediate)).map fun a => ⟨.create, a.component, true⟩
  delivery : ∀ d, s.delivery = some d → ∃ before entries, Going d before entries
  reports : ∀ r ∈ s.reports, r.Settled

theorem inv_start (present : Component → Bool) : Inv (start present) :=
  ⟨rfl, rfl, rfl, rfl, nofun, nofun⟩

/-- An addition is queued. -/
theorem Inv.add (h : Inv s) (c : Component) : Inv (s.add ⟨c, false⟩) where
  queue := by simp [State.add, h.queue, Queued.addition?]
  created := by simp [State.add, h.created]
  deferred := by simp [State.add, h.deferred]
  raised := by simp [State.add, h.raised]
  delivery := h.delivery
  reports := h.reports

/-- A creation at once is queued. -/
theorem Inv.createImmediate (h : Inv s) (c : Component) : Inv (s.createImmediate c) where
  queue := by simp [State.createImmediate, State.add, h.queue, Queued.addition?]
  created := by simp [State.createImmediate, State.add, h.created]
  deferred := by simp [State.createImmediate, State.add, h.deferred]
  raised := by simp [State.createImmediate, State.add, h.raised]
  delivery := h.delivery
  reports := h.reports

/-- A removal takes what is queued along. -/
theorem Inv.remove (h : Inv s) (c : Component) : Inv (s.remove c) := by
  unfold State.remove
  split_ifs
  · exact { h with queue := by simp [h.queue, Queued.addition?] }
  · exact h

/-- A delivery starts with what came about since the last one. -/
theorem going_deliver (h : Inv s) (hsize : s.queue.length ≤ batch) :
    Going ⟨s.created, s.queue.take batch, s.deferred, none, { additions := s.additions, raised := s.raised }⟩
      [] [] where
  immediate := h.created
  events := by rw [List.take_of_length_le hsize, h.queue, List.nil_append]
  deferred := h.deferred.symm
  created := by
    rw [h.raised]
    simp [Report.of, List.filter_map, Function.comp_def]
  raised := by
    rw [h.raised]
    simp [Report.of, List.filter_map, Function.comp_def]
  arrived := rfl
  order := .inl rfl
  half := nofun

/-- A delivery takes the queue whole, where it is no longer than a batch. -/
theorem Inv.deliver (h : Inv s) (hsize : s.queue.length ≤ batch) : Inv s.deliver where
  queue := by
    show (s.queue.drop batch).filterMap Queued.addition? = []
    rw [List.drop_of_length_le hsize, List.filterMap_nil]
  created := rfl
  deferred := rfl
  raised := rfl
  delivery d hd := ⟨[], [], Option.some.inj hd ▸ going_deliver h hsize⟩
  reports := h.reports

/-- The delivery goes on by one event. -/
theorem Inv.proceed (h : Inv s) (hd : s.delivery = some d) :
    Inv (match d.proceed s.present with
      | some d => { s with delivery := some d }
      | none => { s with delivery := none, reports := s.reports ++ [d.report] }) := by
  obtain ⟨before, entries, hgoing⟩ := h.delivery d hd
  rcases hgoing.proceed s.present with
    ⟨d', before', entries', hnext, hgoing'⟩ | ⟨hover, hsettled⟩
  · rw [hnext]
    exact { h with delivery := fun e he => ⟨before', entries', Option.some.inj he ▸ hgoing'⟩ }
  · rw [hover]
    refine { h with delivery := nofun, reports := fun r hr => ?_ }
    rcases List.mem_append.mp hr with hr | hr
    · exact h.reports r hr
    · rw [List.mem_singleton.mp hr]
      exact hsettled

/-- What is queued when a delivery starts is not more than it takes. -/
def TakesAll (s : State) (a : Action) : Prop := a = .deliver → s.queue.length ≤ batch

instance (s : State) (a : Action) : Decidable (TakesAll s a) :=
  inferInstanceAs (Decidable (_ → _))

/-- Every step keeps the reports right. -/
theorem Inv.step {a : Action} (h : Inv s) (hall : TakesAll s a) (hs : step s a = some s') :
    Inv s' := by
  cases a with
  | add c =>
    obtain rfl := Option.some.inj hs
    exact h.add c
  | createImmediate c =>
    obtain rfl := Option.some.inj hs
    exact h.createImmediate c
  | remove c =>
    obtain rfl := Option.some.inj hs
    exact h.remove c
  | deliver =>
    unfold ComponentEvents.step at hs
    split_ifs at hs
    obtain rfl := Option.some.inj hs
    exact h.deliver (hall rfl)
  | proceed =>
    obtain ⟨d, hd, rfl⟩ := Option.map_eq_some_iff.mp hs
    exact h.proceed hd

def armor : Component := ⟨⟨1, by decide⟩, bytes "Armor"⟩

def weapon : Component := ⟨⟨1, by decide⟩, bytes "Weapon"⟩

/-- The engine adds one component, a handler or a mod the other. -/
def apartActions : List Action :=
  [.add armor, .createImmediate weapon, .deliver, .proceed, .proceed, .proceed, .proceed, .proceed]

/-- Added immediately, removed, and added again by the engine before the next delivery. -/
def againActions : List Action :=
  [.createImmediate armor, .remove armor, .add armor, .deliver, .proceed, .proceed, .proceed,
    .proceed, .proceed, .proceed]

end ComponentEvents
end Bg3le
