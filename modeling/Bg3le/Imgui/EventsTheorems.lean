import Bg3le.Imgui.Events

/-!
# Where a widget's events go

Whatever order the threads act in, an event goes to the state that set the callback, once and in its
turn, and a function is called for no other event than those of the delegate that it was set to. What
ties the two together is the job that an id was given to.
-/

namespace Bg3le
namespace Imgui

variable {px : Proxies} {s t : State} {as bs : List Action} {a : Action} {job job' : Job}
  {c c' : Context} {id id' : ℕ}

/-- What a step can do, with the state that it leaves. -/
theorem step_cases (hstep : step px s a = some t) :
    (∃ job, s.work (px.context job.proxy) = .idle ∧ t = assign px s job) ∨ (∃ c, t = go px s c) ∨
    (∃ p, t = destroy px s p) ∨
    (∃ h key widget arg id, s.slots h key = some id ∧ t = fire s ⟨id, widget, arg, (h, key)⟩) ∨
    (∃ f fs, s.fired = f :: fs ∧ t = post { s with fired := fs } f) ∨
    (∃ c l e, Mailbox.first Event.state l s.queue = some e ∧ t = take s c l e) ∨
    (∃ h names, t = appear s h names) ∨ (∃ h, t = vanish s h) ∨ ∃ c, t = restart s c := by
  cases a with
  | assign job =>
    obtain ⟨hidle, hstep⟩ := Option.ite_none_right_eq_some.mp hstep
    exact .inl ⟨job, hidle, (Option.some.inj hstep).symm⟩
  | go c => exact .inr (.inl ⟨c, (Option.some.inj hstep).symm⟩)
  | destroy p =>
    obtain ⟨-, hstep⟩ := Option.ite_none_right_eq_some.mp hstep
    exact .inr (.inr (.inl ⟨p, (Option.some.inj hstep).symm⟩))
  | fire h key widget arg =>
    obtain ⟨id, hid, rfl⟩ := Option.map_eq_some_iff.mp hstep
    exact .inr (.inr (.inr (.inl ⟨h, key, widget, arg, id, hid, rfl⟩)))
  | flush =>
    simp only [step] at hstep
    split at hstep
    · cases hstep
    · exact .inr (.inr (.inr (.inr (.inl ⟨_, _, ‹_›, (Option.some.inj hstep).symm⟩))))
  | take c l =>
    obtain ⟨-, hstep⟩ := Option.ite_none_right_eq_some.mp hstep
    obtain ⟨e, he, rfl⟩ := Option.map_eq_some_iff.mp hstep
    exact .inr (.inr (.inr (.inr (.inr (.inl ⟨c, l, e, he, rfl⟩)))))
  | appear h names =>
    exact .inr (.inr (.inr (.inr (.inr (.inr (.inl ⟨h, names, (Option.some.inj hstep).symm⟩))))))
  | vanish h =>
    exact .inr (.inr (.inr (.inr (.inr (.inr (.inr (.inl ⟨h, (Option.some.inj hstep).symm⟩)))))))
  | restart c =>
    exact .inr (.inr (.inr (.inr (.inr (.inr (.inr (.inr ⟨c, (Option.some.inj hstep).symm⟩)))))))

/-! ## The queue -/

/-- What was handed to a state. -/
def handed (gone : List Gone) : List Event := gone.filterMap fun g => g.taker.map fun _ => g.event

/-- Each state has been handed, in their order, the events that were sent to it, up to those that are
still queued and those that made room. -/
structure Delivers (s : State) : Prop where
  few : s.queue.length ≤ maxQueued
  accounts : Mailbox.Accounts Event.state s.sent (s.gone.map Gone.event) s.queue
  own : ∀ g ∈ s.gone, ∀ t ∈ g.taker, t.2 = g.event.state
  once : (s.called.map Call.event).Sublist (handed s.gone)
  count : s.sent.length = s.gone.length + s.queue.length
  lost : (∃ g ∈ s.gone, g.taker = none) → maxQueued < s.sent.length

theorem delivers_start : Delivers start where
  few := Nat.zero_le _
  accounts := .empty
  own _ hg := absurd hg List.not_mem_nil
  once := List.Sublist.refl _
  count := rfl
  lost := fun ⟨_, hg, _⟩ => absurd hg List.not_mem_nil

/-- What the queue and the logs are made of. -/
def Untouched (s t : State) : Prop :=
  t.queue = s.queue ∧ t.sent = s.sent ∧ t.gone = s.gone ∧ t.called = s.called

/-- A step that touches neither queue nor deliveries keeps them in order. -/
theorem Delivers.congr (h : Delivers s) (hsame : Untouched s t) : Delivers t := by
  obtain ⟨hqueue, hsent, hgone, hcalled⟩ := hsame
  constructor
  · rw [hqueue]
    exact h.few
  · rw [hqueue, hsent, hgone]
    exact h.accounts
  · rw [hgone]
    exact h.own
  · rw [hcalled, hgone]
    exact h.once
  · rw [hqueue, hsent, hgone]
    exact h.count
  · rw [hsent, hgone]
    exact h.lost

theorem untouched_filed : Untouched s (filed px s job id) := by
  unfold filed
  split <;> exact ⟨rfl, rfl, rfl, rfl⟩

/-- The parts of a registration touch no queue. -/
theorem untouched_go : Untouched s (go px s c) := by
  unfold go
  split
  · exact ⟨rfl, rfl, rfl, rfl⟩
  · unfold readSlot
    split <;> exact ⟨rfl, rfl, rfl, rfl⟩
  · exact ⟨rfl, rfl, rfl, rfl⟩
  · exact ⟨rfl, rfl, rfl, rfl⟩
  · unfold giveId
    split <;> exact ⟨rfl, rfl, rfl, rfl⟩
  · exact untouched_filed

theorem untouched_assign : Untouched s (assign px s job) := by
  unfold assign
  split <;> exact ⟨rfl, rfl, rfl, rfl⟩

/-- A widget that fires has only put an event where the frame's events are posted from. -/
theorem untouched_fire (f : Fired) : Untouched s (fire s f) := by
  unfold fire
  split <;> exact ⟨rfl, rfl, rfl, rfl⟩

/-- What was handed over comes in the order of the deliveries. -/
theorem handed_append (gone gone' : List Gone) : handed (gone ++ gone') = handed gone ++ handed gone' :=
  List.filterMap_append

/-- A posted event goes to the end of the queue. -/
theorem Delivers.post (h : Delivers s) (f : Fired) : Delivers (post s f) := by
  unfold Imgui.post
  split
  · exact h
  · cases howner : s.owners f.id with
    | none => exact h
    | some l =>
      have hpush := h.accounts.push maxQueued ⟨f.id, l, f.widget, f.arg, f.source⟩
      have hall := congrArg List.length
        (Mailbox.evicted_append maxQueued s.queue ⟨f.id, l, f.widget, f.arg, f.source⟩)
      have hcount := h.count
      rw [List.length_append, List.length_append, List.length_singleton] at hall
      constructor
      · exact Mailbox.length_push (by decide) h.few _
      · rw [List.map_append, List.map_map]
        simpa [Function.comp_def] using hpush
      · intro g hg t ht
        rcases List.mem_append.mp hg with hg | hg
        · exact h.own g hg t ht
        · -- what makes room has no taker
          obtain ⟨e, -, rfl⟩ := List.mem_map.mp hg
          cases ht
      · show (s.called.map Call.event).Sublist (handed (s.gone ++ _))
        rw [handed_append]
        exact h.once.trans (List.sublist_append_left _ _)
      · simp only [List.length_append, List.length_map, List.length_singleton]
        omega
      · rintro ⟨g, hg, hnone⟩
        simp only [List.length_append, List.length_singleton]
        rcases List.mem_append.mp hg with hg | hg
        · exact Nat.lt_succ_of_lt (h.lost ⟨g, hg, hnone⟩)
        · -- an event makes room only when the queue is full
          obtain ⟨e, he, rfl⟩ := List.mem_map.mp hg
          have hfull : maxQueued ≤ s.queue.length := by
            by_contra hroom
            rw [Mailbox.evicted, if_neg hroom] at he
            cases he
          omega

/-- The event that is taken is the first of its state. -/
theorem Delivers.take (h : Delivers s) (c : Context) {l : LuaState} {e : Event}
    (he : Mailbox.first Event.state l s.queue = some e) : Delivers (take s c l e) := by
  have hlength : (Mailbox.rest Event.state l s.queue).length + 1 = s.queue.length := Mailbox.length_rest he
  have hcount := h.count
  constructor
  · have hfew := h.few
    show (Mailbox.rest Event.state l s.queue).length ≤ maxQueued
    omega
  · have htake := h.accounts.take he
    unfold Imgui.take
    rw [List.map_append]
    exact htake
  · intro g hg t ht
    rcases List.mem_append.mp hg with hg | hg
    · exact h.own g hg t ht
    · obtain rfl := List.mem_singleton.mp hg
      obtain rfl := Option.some.inj ht
      exact (Mailbox.key_of_first he).symm
  · show ((s.called ++ _).map Call.event).Sublist (handed (s.gone ++ _))
    rw [handed_append, List.map_append]
    refine h.once.append ?_
    cases s.callbacks c e.id with
    | none => exact List.nil_sublist _
    | some f => exact List.Sublist.refl _
  · simp only [Imgui.take, List.length_append, List.length_singleton]
    omega
  · rintro ⟨g, hg, hnone⟩
    rcases List.mem_append.mp hg with hg | hg
    · exact h.lost ⟨g, hg, hnone⟩
    · obtain rfl := List.mem_singleton.mp hg
      cases hnone

/-- No step loses, repeats or reorders an event. -/
theorem Delivers.step (h : Delivers s) (hstep : step px s a = some t) : Delivers t := by
  rcases step_cases hstep with ⟨job, -, rfl⟩ | ⟨c, rfl⟩ | ⟨p, rfl⟩ | ⟨k, key, widget, arg, id, -, rfl⟩ |
    ⟨f, fs, -, rfl⟩ | ⟨c, l, e, he, rfl⟩ | ⟨k, names, rfl⟩ | ⟨k, rfl⟩ | ⟨c, rfl⟩
  · exact h.congr untouched_assign
  · exact h.congr untouched_go
  · exact h.congr ⟨rfl, rfl, rfl, rfl⟩
  · exact h.congr (untouched_fire _)
  · exact (h.congr (t := { s with fired := fs }) ⟨rfl, rfl, rfl, rfl⟩).post f
  · exact h.take c he
  · exact h.congr ⟨rfl, rfl, rfl, rfl⟩
  · exact h.congr ⟨rfl, rfl, rfl, rfl⟩
  · exact h.congr ⟨rfl, rfl, rfl, rfl⟩

/-! ## The ids -/

/-- The jobs that ids were given to stay, and another id may be given. -/
def Extends (s t : State) : Prop := ∀ id job, s.jobs id = some job → t.jobs id = some job

/-- An id was given for a delegate. -/
def GivenTo (px : Proxies) (s : State) (id : ℕ) (source : Handle × Bytes) : Prop :=
  ∃ job, s.jobs id = some job ∧ (px.handle job.proxy, job.key) = source

/-- An id was given to a state. -/
def GivenBy (s : State) (id : ℕ) (l : LuaState) : Prop := ∃ job, s.jobs id = some job ∧ job.state = l

/-- An id was given for a function of a context. -/
def GivenFor (px : Proxies) (s : State) (id : ℕ) (c : Context) (f : Fn) : Prop :=
  ∃ job, s.jobs id = some job ∧ px.context job.proxy = c ∧ job.fn = some f

/-- What an id was given to stays so. -/
theorem GivenTo.mono {source : Handle × Bytes} (h : GivenTo px s id source) (hext : Extends s t) :
    GivenTo px t id source := by
  obtain ⟨job, hjob, hsource⟩ := h
  exact ⟨job, hext id job hjob, hsource⟩

/-- The state that gave an id out stays so. -/
theorem GivenBy.mono {l : LuaState} (h : GivenBy s id l) (hext : Extends s t) : GivenBy t id l := by
  obtain ⟨job, hjob, hstate⟩ := h
  exact ⟨job, hext id job hjob, hstate⟩

/-- The handler that an id was given for stays so. -/
theorem GivenFor.mono {f : Fn} (h : GivenFor px s id c f) (hext : Extends s t) : GivenFor px t id c f := by
  obtain ⟨job, hjob, hcontext, hfn⟩ := h
  exact ⟨job, hext id job hjob, hcontext, hfn⟩

/-- Every id, wherever it is, belongs to the delegate, the state and the function that it was given
for. -/
structure Sound (px : Proxies) (s : State) : Prop where
  next : s.next = s.given
  jobs : ∀ id job, s.jobs id = some job → id ≤ s.given
  slots : ∀ h key id, s.slots h key = some id → id ≠ 0 → GivenTo px s id (h, key)
  storing : ∀ c job id, s.work c = .storing job id → s.jobs id = some job
  owners : ∀ id l, s.owners id = some l → GivenBy s id l
  fired : ∀ f ∈ s.fired, GivenTo px s f.id f.source
  sent : ∀ e ∈ s.sent, GivenTo px s e.id e.source ∧ GivenBy s e.id e.state
  callbacks : ∀ c id f, s.callbacks c id = some f → GivenFor px s id c f
  called : ∀ call ∈ s.called,
    call.arg = luaArg call.event.arg ∧ GivenFor px s call.event.id call.context call.fn

theorem sound_start : Sound px start := by
  constructor
  · rfl
  · intro _ _ h
    cases h
  · intro _ _ _ h
    cases h
  · intro _ _ _ h
    cases h
  · intro _ _ h
    cases h
  · intro _ h
    cases h
  · intro _ h
    cases h
  · intro _ _ _ h
    cases h
  · intro _ h
    cases h

/-- The ids do not wrap as long as fewer than `2 ^ 32` were given out. -/
theorem nextId_eq {n : ℕ} (h : n + 1 < 2 ^ 32) : nextId n = n + 1 := by
  unfold nextId
  rw [Nat.mod_eq_of_lt h, if_neg (Nat.succ_ne_zero n)]

/-- What is read after an update was put there by it, or stood there before. -/
theorem update_cases {α β : Type} [DecidableEq α] {f : α → β} {x y : α} {b d : β}
    (h : Function.update f x b y = d) : (y = x ∧ b = d) ∨ (y ≠ x ∧ f y = d) := by
  by_cases hy : y = x
  · subst hy
    rw [Function.update_self] at h
    exact .inl ⟨rfl, h⟩
  · rw [Function.update_of_ne hy] at h
    exact .inr ⟨hy, h⟩

/-- The same of a table in a table. -/
theorem update_apply_cases {α β γ : Type} [DecidableEq α] {f : α → γ → β} {x y : α} {g : γ → β}
    {z : γ} {d : β} (h : Function.update f x g y z = d) : (y = x ∧ g z = d) ∨ (y ≠ x ∧ f y z = d) := by
  rcases update_cases (f := f) (x := x) (y := y) (b := g) rfl with ⟨hy, hg⟩ | ⟨hy, hf⟩
  · exact .inl ⟨hy, (congrFun hg z).trans h⟩
  · exact .inr ⟨hy, (congrFun hf z).trans h⟩

/-- A context that has gone on with something else is not storing an id. -/
theorem storing_of_update {w : Context → Work} {x : Work} (hx : ∀ job id, x ≠ .storing job id)
    (h : Function.update w c x c' = .storing job id) : w c' = .storing job id := by
  rcases update_cases h with ⟨-, h⟩ | ⟨-, h⟩
  · exact absurd h (hx job id)
  · exact h

/-- A slot holds the id just written, or what it held. -/
theorem writeSlot_some {slots : Handle → Bytes → Option ℕ} {h h' : Handle} {key key' : Bytes}
    (hslot : writeSlot slots h key id h' key' = some id') :
    (id' = id ∧ h' = h ∧ key' = key) ∨ slots h' key' = some id' := by
  rcases update_apply_cases hslot with ⟨rfl, hslot⟩ | ⟨-, hslot⟩
  · rcases update_cases hslot with ⟨rfl, hslot⟩ | ⟨-, hslot⟩
    · obtain ⟨was, -, hid⟩ := Option.map_eq_some_iff.mp hslot
      exact .inl ⟨hid.symm, rfl, rfl⟩
    · exact .inr hslot
  · exact .inr hslot

/-- A cleared callback leaves the others where they are. -/
theorem callbacks_of_clear {table : Context → ℕ → Option Fn} {f : Fn}
    (h : Function.update table c (Function.update (table c) id none) c' id' = some f) :
    table c' id' = some f := by
  rcases update_apply_cases h with ⟨rfl, h⟩ | ⟨-, h⟩
  · rcases update_cases h with ⟨-, h⟩ | ⟨-, h⟩
    · cases h
    · exact h
  · exact h

/-- After the old id is cleared, no id is being stored yet. -/
theorem afterClear_ne_storing (job : Job) (again : Bool) (job' : Job) (id : ℕ) :
    afterClear job again ≠ .storing job' id := by
  unfold afterClear
  split <;> simp

namespace Sound

/-- An assignment begins with nothing given out. -/
theorem assign (h : Sound px s) (job : Job) : Sound px (assign px s job) := by
  unfold Imgui.assign
  split
  · exact { h with
      storing := fun c' job' id' hw => h.storing c' job' id' (storing_of_update (by simp) hw)
      callbacks := fun c' id' f hf => h.callbacks c' id' f (callbacks_of_clear hf) }
  · exact { h with
      storing := fun c' job' id' hw => h.storing c' job' id' (storing_of_update (by simp) hw) }

/-- Reading the slot changes nothing that is held. -/
theorem readSlot (h : Sound px s) (again : Bool) : Sound px (readSlot px s c job again) := by
  unfold Imgui.readSlot
  split
  · exact { h with
      storing := fun c' job' id' hw => h.storing c' job' id' (storing_of_update (by simp) hw) }
  · exact { h with
      storing := fun c' job' id' hw =>
        h.storing c' job' id' (storing_of_update (afterClear_ne_storing job again) hw) }

/-- A slot without an id says nothing wrong. -/
theorem zeroSlot (h : Sound px s) (was : ℕ) (again : Bool) :
    Sound px (zeroSlot px s c job was again) where
  __ := h
  slots k key id hslot hid := by
    rcases writeSlot_some hslot with ⟨rfl, -, -⟩ | hslot
    · exact absurd rfl hid
    · exact h.slots k key id hslot hid
  storing c' job' id' hw := h.storing c' job' id' (storing_of_update (by simp) hw)

/-- A callback that goes away leaves the others with their ids. -/
theorem eraseOwner (h : Sound px s) (was : ℕ) (again : Bool) :
    Sound px (eraseOwner s c job was again) where
  __ := h
  storing c' job' id' hw :=
    h.storing c' job' id' (storing_of_update (afterClear_ne_storing job again) hw)
  owners id l howner := by
    rcases update_cases howner with ⟨-, howner⟩ | ⟨-, howner⟩
    · cases howner
    · exact h.owners id l howner

/-- The id is new as long as the counter has not come round. -/
theorem giveId (h : Sound px s) (hgiven : (giveId px s c job).given < 2 ^ 32) :
    Sound px (giveId px s c job) := by
  unfold Imgui.giveId at hgiven ⊢
  cases hslot : slotOf px s job with
  | none =>
    exact { h with
      storing := fun c' job' id' hw => h.storing c' job' id' (storing_of_update (by simp) hw) }
  | some was =>
    rw [hslot] at hgiven
    -- below `2 ^ 32` ids the counter has not wrapped, so the id is new
    have hid : nextId s.next = s.given + 1 := by
      rw [h.next]
      exact nextId_eq hgiven
    have hext : Extends s { s with jobs := Function.update s.jobs (nextId s.next) (some job) } := by
      intro id' job' hjob
      have hle := h.jobs id' job' hjob
      have hne : id' ≠ nextId s.next := by omega
      show Function.update s.jobs (nextId s.next) (some job) id' = some job'
      rw [Function.update_of_ne hne]
      exact hjob
    have hgave : Function.update s.jobs (nextId s.next) (some job) (nextId s.next) = some job :=
      Function.update_self _ _ _
    constructor
    · exact hid
    · intro id' job' hjob
      show id' ≤ s.given + 1
      rcases update_cases hjob with ⟨rfl, -⟩ | ⟨-, hold⟩
      · exact le_of_eq hid
      · exact Nat.le_succ_of_le (h.jobs id' job' hold)
    · intro k key id' hslot' hne
      exact (h.slots k key id' hslot' hne).mono hext
    · intro c' job' id' hw
      rcases update_cases hw with ⟨-, hw⟩ | ⟨-, hw⟩
      · obtain ⟨rfl, rfl⟩ := Work.storing.inj hw
        exact hgave
      · exact hext id' job' (h.storing c' job' id' hw)
    · intro id' l howner
      rcases update_cases howner with ⟨rfl, hstate⟩ | ⟨-, howner⟩
      · exact ⟨job, hgave, Option.some.inj hstate⟩
      · exact (h.owners id' l howner).mono hext
    · intro f hf
      exact (h.fired f hf).mono hext
    · intro e he
      exact ⟨(h.sent e he).1.mono hext, (h.sent e he).2.mono hext⟩
    · intro c' id' f hf
      exact (h.callbacks c' id' f hf).mono hext
    · intro call hcall
      exact ⟨(h.called call hcall).1, (h.called call hcall).2.mono hext⟩

/-- The delegate is given its id, and then the function is filed. -/
theorem filed (h : Sound px s) (hjob : s.jobs id = some job) :
    Sound px (filed px { s with slots := writeSlot s.slots (px.handle job.proxy) job.key id } job id) := by
  have hslots (k : Handle) (key : Bytes) (id' : ℕ)
      (hslot : writeSlot s.slots (px.handle job.proxy) job.key id k key = some id') (hne : id' ≠ 0) :
      GivenTo px s id' (k, key) := by
    rcases writeSlot_some hslot with ⟨rfl, rfl, rfl⟩ | hslot
    · exact ⟨job, hjob, rfl⟩
    · exact h.slots k key id' hslot hne
  unfold Imgui.filed
  split
  · next f hfn =>
    exact { h with
      slots := hslots
      storing := fun c' job' id' hw => h.storing c' job' id' (storing_of_update (by simp) hw)
      callbacks := by
        intro c' id' f' hf
        rcases update_apply_cases hf with ⟨rfl, hnew⟩ | ⟨-, hold⟩
        · rcases update_cases hnew with ⟨rfl, hput⟩ | ⟨-, hold⟩
          · exact ⟨job, hjob, rfl, hfn.trans hput⟩
          · exact h.callbacks _ id' f' hold
        · exact h.callbacks c' id' f' hold }
  · exact { h with
      slots := hslots
      storing := fun c' job' id' hw => h.storing c' job' id' (storing_of_update (by simp) hw) }

/-- Each part of a registration keeps ids, handlers and widgets together. -/
theorem go (h : Sound px s) (hgiven : (go px s c).given < 2 ^ 32) : Sound px (go px s c) := by
  unfold Imgui.go at hgiven ⊢
  split
  · exact h
  · exact h.readSlot _
  · exact h.zeroSlot _ _
  · exact h.eraseOwner _ _
  · next job hwork =>
    rw [hwork] at hgiven
    exact h.giveId hgiven
  · next job id hwork => exact h.filed (h.storing c job id hwork)

/-- A destroyed proxy leaves what its ids were given for. -/
theorem destroy (h : Sound px s) (p : Proxy) : Sound px (destroy px s p) where
  __ := h
  callbacks c' id' f hf := by
    rcases update_apply_cases hf with ⟨rfl, hnew⟩ | ⟨-, hold⟩
    · obtain ⟨-, hold⟩ := Option.ite_none_left_eq_some.mp hnew
      exact h.callbacks _ id' f hold
    · exact h.callbacks c' id' f hold

/-- A widget fires with the id in its slot, which was given to it. -/
theorem fire (h : Sound px s) {k : Handle} {key : Bytes} (hslot : s.slots k key = some id)
    (widget : Handle) (arg : Arg) : Sound px (fire s ⟨id, widget, arg, (k, key)⟩) := by
  unfold Imgui.fire
  split
  · exact h
  · next hid =>
    exact { h with
      fired := by
        intro f hf
        rcases List.mem_append.mp hf with hf | hf
        · exact h.fired f hf
        · obtain rfl := List.mem_singleton.mp hf
          exact h.slots k key id hslot hid }

/-- A posted event is of the id that fired. -/
theorem post {f : Fired} {fs : List Fired} (h : Sound px s) (hfired : s.fired = f :: fs) :
    Sound px (post { s with fired := fs } f) := by
  have hf : GivenTo px s f.id f.source := h.fired f (by simp [hfired])
  have hrest : Sound px { s with fired := fs } :=
    { h with fired := fun g hg => h.fired g (by simp [hfired, hg]) }
  unfold Imgui.post
  split
  · exact hrest
  · split
    · exact hrest
    · next l howner =>
      exact { hrest with
        sent := by
          intro e he
          rcases List.mem_append.mp he with he | he
          · exact h.sent e he
          · obtain rfl := List.mem_singleton.mp he
            exact ⟨hf, h.owners f.id l howner⟩ }

/-- The handler called is the one the id was given for. -/
theorem take (h : Sound px s) (l : LuaState) (e : Event) : Sound px (take s c l e) where
  __ := h
  called call hcall := by
    rcases List.mem_append.mp hcall with hcall | hcall
    · exact h.called call hcall
    · obtain ⟨f, hf, rfl⟩ := Option.map_eq_some_iff.mp (Option.mem_toList.mp hcall)
      exact ⟨rfl, h.callbacks c e.id f hf⟩

/-- A widget that appears has no ids in its slots. -/
theorem appear (h : Sound px s) (k : Handle) (names : List Bytes) : Sound px (appear s k names) where
  __ := h
  slots k' key id hslot hne := by
    rcases update_apply_cases hslot with ⟨-, hslot⟩ | ⟨-, hslot⟩
    · obtain ⟨-, hzero⟩ := Option.ite_none_right_eq_some.mp hslot
      exact absurd (Option.some.inj hzero).symm hne
    · exact h.slots k' key id hslot hne

/-- A widget that goes away takes its slots along. -/
theorem vanish (h : Sound px s) (k : Handle) : Sound px (vanish s k) where
  __ := h
  slots k' key id hslot hne := by
    rcases update_apply_cases hslot with ⟨-, hslot⟩ | ⟨-, hslot⟩
    · cases hslot
    · exact h.slots k' key id hslot hne

/-- A context that begins again has no handlers of the one before. -/
theorem restart (h : Sound px s) (c : Context) : Sound px (restart s c) where
  __ := h
  storing c' job' id' hw := h.storing c' job' id' (storing_of_update (by simp) hw)
  callbacks c' id' f hf := by
    rcases update_apply_cases hf with ⟨-, hf⟩ | ⟨-, hf⟩
    · cases hf
    · exact h.callbacks c' id' f hf

/-- Every step keeps ids, handlers and widgets together. -/
theorem step (h : Sound px s) (hstep : step px s a = some t) (hgiven : t.given < 2 ^ 32) : Sound px t := by
  rcases step_cases hstep with ⟨job, -, rfl⟩ | ⟨c, rfl⟩ | ⟨p, rfl⟩ | ⟨k, key, widget, arg, id, hslot, rfl⟩ |
    ⟨f, fs, hfired, rfl⟩ | ⟨c, l, e, -, rfl⟩ | ⟨k, names, rfl⟩ | ⟨k, rfl⟩ | ⟨c, rfl⟩
  · exact h.assign job
  · exact h.go hgiven
  · exact h.destroy p
  · exact h.fire hslot widget arg
  · exact h.post hfired
  · exact h.take l e
  · exact h.appear k names
  · exact h.vanish k
  · exact h.restart c

end Sound

theorem given_le_go : s.given ≤ (go px s c).given := by
  unfold go
  split
  · exact le_refl _
  · unfold readSlot
    split <;> exact le_refl _
  · exact le_refl _
  · exact le_refl _
  · unfold giveId
    split
    · exact Nat.le_succ _
    · exact le_refl _
  · unfold filed
    split <;> exact le_refl _

/-- Ids are given out in one direction. -/
theorem given_le_of_step (hstep : step px s a = some t) : s.given ≤ t.given := by
  rcases step_cases hstep with ⟨job, -, rfl⟩ | ⟨c, rfl⟩ | ⟨p, rfl⟩ | ⟨k, key, widget, arg, id, -, rfl⟩ |
    ⟨f, fs, -, rfl⟩ | ⟨c, l, e, -, rfl⟩ | ⟨k, names, rfl⟩ | ⟨k, rfl⟩ | ⟨c, rfl⟩
  · unfold assign
    split <;> exact le_refl _
  · exact given_le_go
  · exact le_refl _
  · unfold fire
    split <;> exact le_refl _
  · unfold post
    split
    · exact le_refl _
    · split <;> exact le_refl _
  · exact le_refl _
  · exact le_refl _
  · exact le_refl _
  · exact le_refl _

/-- The steps of the threads, in any order. -/
abbrev AnyRun (px : Proxies) : State → List Action → State → Prop := Run (step px) fun _ _ => True

/-- Along any run each event is delivered at most once, in order, to its own state. -/
theorem delivers (h : AnyRun px start as s) : Delivers s :=
  h.invariant delivers_start fun _ _ _ hs _ hstep => hs.step hstep

/-- Along any run of fewer than `2 ^ 32` ids, each id is of one widget, handler and context. -/
theorem sound (h : AnyRun px start as s) (hgiven : s.given < 2 ^ 32) : Sound px s :=
  h.invariant (I := fun s => s.given < 2 ^ 32 → Sound px s) (fun _ => sound_start)
    (fun _ _ _ hs _ hstep hgiven =>
      (hs ((given_le_of_step hstep).trans_lt hgiven)).step hstep hgiven) hgiven

/-- What is called is an event that was sent. -/
theorem Delivers.sent_of_called (h : Delivers s) {call : Call} (hcall : call ∈ s.called) :
    call.event ∈ s.sent := by
  have hhanded : call.event ∈ handed s.gone := h.once.subset (List.mem_map_of_mem hcall)
  obtain ⟨g, hg, hevent⟩ := List.mem_filterMap.mp hhanded
  obtain ⟨taker, -, hsame⟩ := Option.map_eq_some_iff.mp hevent
  apply h.accounts.mem_sent
  rw [← hsame]
  exact List.mem_map_of_mem hg

/-- Each function is called with an event that was sent: of the delegate that it was set to, to the
state that set it, and in the context of its widget. -/
def CallsOwn (px : Proxies) (s : State) : Prop :=
  ∀ call ∈ s.called, call.event ∈ s.sent ∧ call.arg = luaArg call.event.arg ∧
    ∃ job, s.jobs call.event.id = some job ∧ job.fn = some call.fn ∧
      px.context job.proxy = call.context ∧ job.state = call.event.state ∧
      (px.handle job.proxy, job.key) = call.event.source

/-- In whatever order the threads act, each state is handed the events that were sent to it, in their
order and once, but for those that are still queued and those that made room for others; and as long
as the ids have not come round, a function is called only with the events it was set for. -/
theorem widgetEvents_of_run (h : AnyRun px start as s) :
    Delivers s ∧ (s.given < 2 ^ 32 → CallsOwn px s) := by
  have hdelivers := delivers h
  refine ⟨hdelivers, fun hgiven call hcall => ?_⟩
  have hsound := sound h hgiven
  have hsent := hdelivers.sent_of_called hcall
  obtain ⟨harg, job, hjob, hcontext, hfn⟩ := hsound.called call hcall
  -- one and the same job has the id for the delegate, for the state and for the function
  obtain ⟨⟨job₁, hjob₁, hsource⟩, ⟨job₂, hjob₂, hstate⟩⟩ := hsound.sent call.event hsent
  obtain rfl : job = job₁ := Option.some.inj (hjob.symm.trans hjob₁)
  obtain rfl : job = job₂ := Option.some.inj (hjob.symm.trans hjob₂)
  exact ⟨hsent, harg, job, hjob, hfn, hcontext, hstate, hsource⟩

/-- The widgets 7 and 8. Context 0 holds the first as its proxy 1, context 1 the other as its
proxy 2. -/
def twoWidgets : Proxies := ⟨fun p => p - 1, fun p => p + 6⟩

/-- State 2 sets function 9 to the `OnClick` of the first, and state 3 function 5 to that of the other.
The first is clicked twice and the other once between, and state 2 takes a click before the last one
is queued. -/
def threeClicks : List Action :=
  [.appear 7 [bytes "OnClick"], .appear 8 [bytes "OnClick"],
    .assign ⟨2, 1, bytes "OnClick", some 9⟩, .assign ⟨3, 2, bytes "OnClick", some 5⟩, .go 0, .go 1,
    .go 1, .go 0, .fire 7 (bytes "OnClick") 7 .none, .fire 8 (bytes "OnClick") 8 .none, .flush,
    .fire 7 (bytes "OnClick") 7 (.bool true), .take 0 2, .flush, .flush, .take 0 2, .take 1 3]

/-- Each function is called with the clicks of its own widget. -/
theorem widgetEvents_of_run_click :
    ∃ s, AnyRun twoWidgets start threeClicks s ∧
      s.called.map (fun call => (call.fn, call.arg)) = [(9, .none), (9, .bool true), (5, .none)] ∧
      Delivers s ∧ CallsOwn twoWidgets s := by
  obtain ⟨s, hrun, hs⟩ := Run.exists_of_follow (step twoWidgets) (fun _ _ => True) start threeClicks
    (fun s => s.given < 2 ^ 32 ∧ s.called.map (fun call => (call.fn, call.arg)) =
      [(9, .none), (9, .bool true), (5, .none)]) (by decide)
  obtain ⟨hgiven, hcalled⟩ := of_decide_eq_true hs
  obtain ⟨hdelivers, hown⟩ := widgetEvents_of_run hrun
  exact ⟨s, hrun, hcalled, hdelivers, hown hgiven⟩

end Imgui
end Bg3le
