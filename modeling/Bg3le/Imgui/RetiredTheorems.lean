import Bg3le.Imgui.EventsTheorems

/-!
# Handlers that are gone

An id is never used again, so a function that is no longer filed is not called any more, although
events for it may still be queued or be on their way to the queue.
-/

namespace Bg3le
namespace Imgui

variable {px : Proxies} {s t : State} {as bs : List Action} {a : Action} {job job' : Job}
  {c c' : Context} {id : ℕ}

/-- Whom a context is at work for. -/
def Work.job? : Work → Option Job
  | .idle => none
  | .clearing job _ | .zeroing job _ _ | .erasing job _ _ | .setting job | .storing job _ => some job

/-- A member's id is the one of its last assignment, and it is not under way any more. -/
structure Filed (px : Proxies) (s : State) : Prop where
  context : ∀ c job, (s.work c).job? = some job → px.context job.proxy = c
  registered : ∀ p key id, (key, id) ∈ s.registered p → ∃ job, s.jobs id = some job ∧ job.proxy = p
  done : ∀ c job id, s.work c = .storing job id → ∀ p key, (key, id) ∉ s.registered p

/-- Nothing is registered at the start. -/
theorem filed_start : Filed px start := by
  constructor
  · intro _ _ h
    cases h
  · intro _ _ _ h
    cases h
  · intro _ _ _ h
    cases h

theorem afterClear_job (again : Bool) (h : (afterClear job again).job? = some job') : job' = job := by
  unfold afterClear at h
  split at h
  · exact (Option.some.inj h).symm
  · cases h

/-- The context goes on for the same job, or for none. -/
theorem context_of_update {w : Context → Work} {x : Work}
    (hw : ∀ c job, (w c).job? = some job → px.context job.proxy = c)
    (hx : ∀ job, x.job? = some job → px.context job.proxy = c)
    (h : (Function.update w c x c').job? = some job) : px.context job.proxy = c' := by
  by_cases hc : c' = c
  · subst hc
    rw [Function.update_self] at h
    exact hx job h
  · rw [Function.update_of_ne hc] at h
    exact hw c' job h

/-- An entry is of the proxy that was written, or an older one. -/
theorem mem_update_cases {registered : Proxy → List (Bytes × ℕ)} {p p' : Proxy}
    {entries : List (Bytes × ℕ)} {e : Bytes × ℕ} (h : e ∈ Function.update registered p entries p') :
    (p' = p ∧ e ∈ entries) ∨ e ∈ registered p' := by
  by_cases hp : p' = p
  · subst hp
    rw [Function.update_self] at h
    exact .inl ⟨rfl, h⟩
  · rw [Function.update_of_ne hp] at h
    exact .inr h

/-- What is left after an entry was taken out was there before. -/
theorem mem_of_unregister {registered : Proxy → List (Bytes × ℕ)} {p p' : Proxy} {key key' : Bytes}
    (h : (key, id) ∈ Function.update registered p ((registered p).filter fun e => e.1 ≠ key') p') :
    (key, id) ∈ registered p' := by
  rcases mem_update_cases h with ⟨rfl, hmem⟩ | hmem
  · exact List.mem_of_mem_filter hmem
  · exact hmem

namespace Filed

/-- What is registered depends on the registrations alone. -/
theorem congr (h : Filed px s) (hwork : t.work = s.work) (hreg : t.registered = s.registered)
    (hjobs : t.jobs = s.jobs) : Filed px t := by
  constructor
  · rw [hwork]
    exact h.context
  · rw [hreg, hjobs]
    exact h.registered
  · rw [hwork, hreg]
    exact h.done

/-- A context goes on with its job, or is idle, without storing an id. -/
theorem proceed (h : Filed px s) {x : Work} (hx : ∀ job, x.job? = some job → px.context job.proxy = c)
    (hstoring : ∀ job id, x ≠ .storing job id) :
    Filed px { s with work := Function.update s.work c x } := by
  constructor
  · intro c' job' hwork
    exact context_of_update h.context hx hwork
  · exact h.registered
  · intro c' job' id hwork
    exact h.done c' job' id (storing_of_update hstoring hwork)

/-- An assignment that has only begun registers nothing. -/
theorem assign (h : Filed px s) (job : Job) : Filed px (assign px s job) := by
  have hx (x : Work) (hjob : x.job? = some job) (job' : Job) (h : x.job? = some job') :
      px.context job'.proxy = px.context job.proxy := by
    obtain rfl := Option.some.inj (hjob.symm.trans h)
    rfl
  unfold Imgui.assign
  split
  · have hnext : Filed px { s with
        work := Function.update s.work (px.context job.proxy) (.clearing job job.fn.isSome) } :=
      h.proceed (hx _ rfl) (by simp)
    exact { hnext with
      registered := fun p key id hmem => h.registered p key id (mem_of_unregister hmem)
      done := fun c' job' id hwork p key hmem =>
        hnext.done c' job' id hwork p key (mem_of_unregister hmem) }
  · exact h.proceed (hx _ rfl) (by simp)

/-- A fresh id is registered nowhere. -/
theorem giveId (h : Filed px s) (hsound : Sound px s) (hjob : px.context job.proxy = c)
    (hgiven : (giveId px s c job).given < 2 ^ 32) : Filed px (giveId px s c job) := by
  unfold Imgui.giveId at hgiven ⊢
  cases hslot : slotOf px s job with
  | none => exact h.proceed (fun _ hnone => by cases hnone) (by simp)
  | some was =>
    rw [hslot] at hgiven
    have hid : nextId s.next = s.given + 1 := by
      rw [hsound.next]
      exact nextId_eq hgiven
    -- no member has the new id
    have hnew (p : Proxy) (key : Bytes) : (key, nextId s.next) ∉ s.registered p := by
      intro hmem
      obtain ⟨job', hjob', -⟩ := h.registered p key _ hmem
      have hle := hsound.jobs _ job' hjob'
      omega
    constructor
    · intro c' job' hwork
      refine context_of_update h.context (fun job'' hsome => ?_) hwork
      obtain rfl := Option.some.inj hsome
      exact hjob
    · intro p key id hmem
      obtain ⟨job', hjob', hproxy⟩ := h.registered p key id hmem
      have hle := hsound.jobs id job' hjob'
      have hne : id ≠ nextId s.next := by omega
      exact ⟨job', (Function.update_of_ne hne _ _).trans hjob', hproxy⟩
    · intro c' job' id hwork p key
      rcases update_cases hwork with ⟨-, hwork⟩ | ⟨-, hwork⟩
      · obtain ⟨rfl, rfl⟩ := Work.storing.inj hwork
        exact hnew p key
      · exact h.done c' job' id hwork p key

/-- An id is registered under the key that it was given for. -/
theorem filed (h : Filed px s) (hsound : Sound px s) (hwork : s.work c = .storing job id) :
    Filed px (filed px { s with slots := writeSlot s.slots (px.handle job.proxy) job.key id } job id) := by
  have hjob : s.jobs id = some job := hsound.storing c job id hwork
  have hcontext : px.context job.proxy = c := h.context c job (by rw [hwork]; rfl)
  subst hcontext
  unfold Imgui.filed
  split
  · constructor
    · intro c' job' hwork'
      exact context_of_update h.context (fun _ hnone => by cases hnone) hwork'
    · intro p key id' hmem
      rcases mem_update_cases hmem with ⟨rfl, hcons⟩ | hold
      · rcases List.mem_cons.mp hcons with heq | hold
        · obtain ⟨-, rfl⟩ := Prod.mk.inj heq
          exact ⟨job, hjob, rfl⟩
        · exact h.registered _ key id' hold
      · exact h.registered p key id' hold
    · intro c' job' id' hwork' p key hmem
      rcases update_cases hwork' with ⟨-, hidle⟩ | ⟨hne, hstoring⟩
      · cases hidle
      · rcases mem_update_cases hmem with ⟨rfl, hcons⟩ | hold
        · rcases List.mem_cons.mp hcons with heq | hold
          · -- two contexts would be storing one id
            obtain ⟨-, rfl⟩ := Prod.mk.inj heq
            obtain rfl : job = job' :=
              Option.some.inj (hjob.symm.trans (hsound.storing c' job' id' hstoring))
            exact hne (h.context c' job (by rw [hstoring]; rfl)).symm
          · exact h.done c' job' id' hstoring _ key hold
        · exact h.done c' job' id' hstoring p key hold
  · refine (h.proceed (x := .clearing job false) (fun job' hsome => ?_) (by simp)).congr rfl rfl rfl
    obtain rfl := Option.some.inj hsome
    rfl

/-- Each part of a registration keeps the registered ids right. -/
theorem go (h : Filed px s) (hsound : Sound px s) (hgiven : (go px s c).given < 2 ^ 32) :
    Filed px (go px s c) := by
  have hx {job : Job} (hjob : (s.work c).job? = some job) {job' : Job} (h' : some job = some job') :
      px.context job'.proxy = c := by
    rw [← Option.some.inj h']
    exact h.context c job hjob
  have hafter {job : Job} (hjob : (s.work c).job? = some job) (again : Bool) (job' : Job)
      (h' : (afterClear job again).job? = some job') : px.context job'.proxy = c := by
    rw [afterClear_job again h']
    exact h.context c job hjob
  unfold Imgui.go at hgiven ⊢
  split
  · exact h
  · next job again hwork =>
    have hjob : (s.work c).job? = some job := by rw [hwork]; rfl
    unfold Imgui.readSlot
    split
    · exact h.proceed (fun _ h' => hx hjob h') (by simp)
    · exact h.proceed (hafter hjob again) (afterClear_ne_storing job again)
  · next job was again hwork =>
    have hjob : (s.work c).job? = some job := by rw [hwork]; rfl
    exact (h.proceed (x := .erasing job was again) (fun _ h' => hx hjob h') (by simp)).congr rfl rfl rfl
  · next job was again hwork =>
    have hjob : (s.work c).job? = some job := by rw [hwork]; rfl
    exact (h.proceed (hafter hjob again) (afterClear_ne_storing job again)).congr rfl rfl rfl
  · next job hwork =>
    rw [hwork] at hgiven
    exact h.giveId hsound (h.context c job (by rw [hwork]; rfl)) hgiven
  · next job id hwork => exact h.filed hsound hwork

/-- Every step keeps the registered ids right. -/
theorem step (h : Filed px s) (hsound : Sound px s) (hstep : step px s a = some t)
    (hgiven : t.given < 2 ^ 32) : Filed px t := by
  rcases step_cases hstep with ⟨job, -, rfl⟩ | ⟨c, rfl⟩ | ⟨p, rfl⟩ | ⟨k, key, widget, arg, id, -, rfl⟩ |
    ⟨f, fs, -, rfl⟩ | ⟨c, l, e, -, rfl⟩ | ⟨k, names, rfl⟩ | ⟨k, rfl⟩ | ⟨c, rfl⟩
  · exact h.assign job
  · exact h.go hsound hgiven
  · exact h.congr rfl rfl rfl
  · unfold fire
    split <;> exact h.congr rfl rfl rfl
  · unfold post
    split
    · exact h.congr rfl rfl rfl
    · split <;> exact h.congr rfl rfl rfl
  · exact h.congr rfl rfl rfl
  · exact h.congr rfl rfl rfl
  · exact h.congr rfl rfl rfl
  · exact (h.proceed (x := .idle) (fun _ hnone => by cases hnone) (by simp)).congr rfl rfl rfl

end Filed

/-- Along any run the ids that are registered are those in the slots. -/
theorem filed_of_run (h : AnyRun px start as s) (hgiven : s.given < 2 ^ 32) : Filed px s :=
  (h.invariant (I := fun s => s.given < 2 ^ 32 → Sound px s ∧ Filed px s)
    (fun _ => ⟨sound_start, filed_start⟩)
    (fun _ _ _ hs _ hstep hgiven => by
      obtain ⟨hsound, hfiled⟩ := hs ((given_le_of_step hstep).trans_lt hgiven)
      exact ⟨hsound.step hstep hgiven, hfiled.step hsound hstep hgiven⟩) hgiven).2

/-! ## Ids out of use -/

/-- No context has a function under the id, and none will. -/
structure Retired (s : State) (id : ℕ) : Prop where
  given : ∃ job, s.jobs id = some job
  none : ∀ c f, s.callbacks c id ≠ some f
  never : ∀ c job, s.work c ≠ .storing job id

/-- The calls with events of an id. -/
def callsOf (s : State) (id : ℕ) : List Call := s.called.filter fun call => call.event.id = id

namespace Retired

/-- A context goes on without storing an id, and functions may be forgotten. -/
theorem weaken (h : Retired s id) {x : Work} (hx : ∀ job id, x ≠ .storing job id)
    (hjobs : t.jobs = s.jobs) (hcallbacks : ∀ c f, t.callbacks c id = some f → s.callbacks c id = some f)
    (hwork : t.work = Function.update s.work c x) : Retired t id := by
  constructor
  · rw [hjobs]
    exact h.given
  · intro c' f hf
    exact h.none c' f (hcallbacks c' f hf)
  · intro c' job hstoring
    rw [hwork] at hstoring
    exact h.never c' job (storing_of_update hx hstoring)

/-- Whether an id is retired depends on the handlers and on the work in hand alone. -/
theorem congr (h : Retired s id) (hjobs : t.jobs = s.jobs) (hcallbacks : t.callbacks = s.callbacks)
    (hwork : t.work = s.work) : Retired t id := by
  constructor
  · rw [hjobs]
    exact h.given
  · rw [hcallbacks]
    exact h.none
  · rw [hwork]
    exact h.never

/-- An assignment does not bring a retired id back. -/
theorem assign (h : Retired s id) (job : Job) : Retired (assign px s job) id := by
  unfold Imgui.assign
  split
  · exact h.weaken (x := .clearing job job.fn.isSome) (by simp) rfl
      (fun _ _ hf => callbacks_of_clear hf) rfl
  · exact h.weaken (x := .setting job) (by simp) rfl (fun _ _ hf => hf) rfl

/-- A fresh id is not a retired one. -/
theorem giveId (h : Retired s id) (hsound : Sound px s) (hgiven : (giveId px s c job).given < 2 ^ 32) :
    Retired (giveId px s c job) id := by
  obtain ⟨job₀, hjob₀⟩ := h.given
  have hle := hsound.jobs id job₀ hjob₀
  unfold Imgui.giveId at hgiven ⊢
  cases hslot : slotOf px s job with
  | none => exact h.weaken (x := .idle) (by simp) rfl (fun _ _ hf => hf) rfl
  | some was =>
    rw [hslot] at hgiven
    have hid : nextId s.next = s.given + 1 := by
      rw [hsound.next]
      exact nextId_eq hgiven
    have hne : id ≠ nextId s.next := by omega
    constructor
    · exact ⟨job₀, (Function.update_of_ne hne _ _).trans hjob₀⟩
    · exact h.none
    · intro c' job' hstoring
      rcases update_cases hstoring with ⟨-, hstoring⟩ | ⟨-, hstoring⟩
      · obtain ⟨-, hsame⟩ := Work.storing.inj hstoring
        exact hne hsame.symm
      · exact h.never c' job' hstoring

/-- What is filed is the new id. -/
theorem filed {new : ℕ} (h : Retired s id) (hwork : s.work c = .storing job new) :
    Retired
      (filed px { s with slots := writeSlot s.slots (px.handle job.proxy) job.key new } job new) id := by
  have hne : id ≠ new := by
    rintro rfl
    exact h.never c job hwork
  unfold Imgui.filed
  split
  · refine h.weaken (x := .idle) (by simp) rfl (fun c' f hf => ?_) rfl
    rcases update_apply_cases hf with ⟨rfl, hnew⟩ | ⟨-, hold⟩
    · exact (Function.update_of_ne hne _ _).symm.trans hnew
    · exact hold
  · exact h.weaken (x := .clearing job false) (by simp) rfl (fun _ _ hf => hf) rfl

/-- No part of a registration brings a retired id back. -/
theorem go (h : Retired s id) (hsound : Sound px s) (hgiven : (go px s c).given < 2 ^ 32) :
    Retired (go px s c) id := by
  unfold Imgui.go at hgiven ⊢
  split
  · exact h
  · next job again hwork =>
    unfold Imgui.readSlot
    split
    · exact h.weaken (x := .zeroing job _ again) (by simp) rfl (fun _ _ hf => hf) rfl
    · exact h.weaken (afterClear_ne_storing job again) rfl (fun _ _ hf => hf) rfl
  · next job was again hwork =>
    exact h.weaken (x := .erasing job was again) (by simp) rfl (fun _ _ hf => hf) rfl
  · next job was again hwork =>
    exact h.weaken (afterClear_ne_storing job again) rfl (fun _ _ hf => hf) rfl
  · next job hwork =>
    rw [hwork] at hgiven
    exact h.giveId hsound hgiven
  · next job new hwork => exact h.filed hwork

/-- A destroyed proxy brings none back. -/
theorem destroy (h : Retired s id) (p : Proxy) : Retired (destroy px s p) id where
  given := h.given
  none c' f hf := by
    rcases update_apply_cases hf with ⟨rfl, hnew⟩ | ⟨-, hold⟩
    · obtain ⟨-, hold⟩ := Option.ite_none_left_eq_some.mp hnew
      exact h.none _ f hold
    · exact h.none c' f hold
  never := h.never

/-- Neither does a context that begins again. -/
theorem restart (h : Retired s id) (c : Context) : Retired (restart s c) id := by
  refine h.weaken (x := .idle) (by simp) rfl (fun c' f hf => ?_) rfl
  rcases update_apply_cases hf with ⟨-, hnew⟩ | ⟨-, hold⟩
  · cases hnew
  · exact hold

/-- No event of the id is called with any more, even if one is still queued. -/
theorem callsOf_take (h : Retired s id) (c : Context) (l : LuaState) (e : Event) :
    callsOf (take s c l e) id = callsOf s id := by
  show (s.called ++ _).filter _ = _
  rw [List.filter_append]
  cases hf : s.callbacks c e.id with
  | none => exact List.append_nil _
  | some f =>
    have hne : e.id ≠ id := by
      rintro rfl
      exact h.none c f hf
    simp [callsOf, hne]

/-- A retired id stays so, and its handler is not called. -/
theorem step (h : Retired s id) (hsound : Sound px s) (hstep : step px s a = some t)
    (hgiven : t.given < 2 ^ 32) : Retired t id ∧ callsOf t id = callsOf s id := by
  have hcalls (hsame : Untouched s t) : callsOf t id = callsOf s id := by
    rw [callsOf, hsame.2.2.2, callsOf]
  rcases step_cases hstep with ⟨job, -, rfl⟩ | ⟨c, rfl⟩ | ⟨p, rfl⟩ | ⟨k, key, widget, arg, new, -, rfl⟩ |
    ⟨f, fs, -, rfl⟩ | ⟨c, l, e, -, rfl⟩ | ⟨k, names, rfl⟩ | ⟨k, rfl⟩ | ⟨c, rfl⟩
  · exact ⟨h.assign job, hcalls untouched_assign⟩
  · exact ⟨h.go hsound hgiven, hcalls untouched_go⟩
  · exact ⟨h.destroy p, rfl⟩
  · refine ⟨?_, hcalls (untouched_fire _)⟩
    unfold fire
    split <;> exact h.congr rfl rfl rfl
  · unfold post
    split
    · exact ⟨h.congr rfl rfl rfl, rfl⟩
    · split <;> exact ⟨h.congr rfl rfl rfl, rfl⟩
  · exact ⟨h.congr rfl rfl rfl, h.callsOf_take c l e⟩
  · exact ⟨h.congr rfl rfl rfl, rfl⟩
  · exact ⟨h.congr rfl rfl rfl, rfl⟩
  · exact ⟨h.restart c, rfl⟩

end Retired

/-- An assignment retires the id that the member had. -/
theorem retired_assign {was : ℕ} (hsound : Sound px s) (hfiled : Filed px s)
    (hwas : (s.registered job.proxy).lookup job.key = some was) : Retired (assign px s job) was := by
  obtain ⟨l₁, l₂, hsplit, -⟩ := List.lookup_eq_some_iff.mp hwas
  have hmem : (job.key, was) ∈ s.registered job.proxy := by
    rw [hsplit]
    exact List.mem_append_right l₁ List.mem_cons_self
  obtain ⟨job₀, hjob₀, hproxy⟩ := hfiled.registered _ _ _ hmem
  unfold assign
  rw [hwas]
  constructor
  · exact ⟨job₀, hjob₀⟩
  · intro c f hf
    rcases update_apply_cases hf with ⟨rfl, hnew⟩ | ⟨hne, hold⟩
    · rw [Function.update_self] at hnew
      cases hnew
    · -- another context has no function under it
      obtain ⟨job₁, hjob₁, hcontext, -⟩ := hsound.callbacks c was f hold
      obtain rfl : job₀ = job₁ := Option.some.inj (hjob₀.symm.trans hjob₁)
      rw [hproxy] at hcontext
      exact hne hcontext.symm
  · intro c job' hstoring
    have hold := storing_of_update (by simp) hstoring
    exact hfiled.done c job' was hold _ _ hmem

/-- Once a member is assigned anew through the same userdata, what it was set to before is not called
again, whatever is still queued and whatever the threads do. -/
theorem calls_end_of_assign {was : ℕ} {u : State} (h : AnyRun px start as s)
    (hassign : step px s (.assign job) = some t)
    (hwas : (s.registered job.proxy).lookup job.key = some was) (h' : AnyRun px t bs u)
    (hgiven : u.given < 2 ^ 32) : callsOf u was = callsOf s was := by
  obtain ⟨-, ht⟩ := Option.ite_none_right_eq_some.mp hassign
  have hassigned : t = assign px s job := (Option.some.inj ht).symm
  have hstart (hfew : t.given < 2 ^ 32) :
      Sound px t ∧ Retired t was ∧ callsOf t was = callsOf s was := by
    have hfew' := (given_le_of_step hassign).trans_lt hfew
    have hsound := sound h hfew'
    refine ⟨hsound.step hassign hfew, ?_, ?_⟩
    · rw [hassigned]
      exact retired_assign hsound (filed_of_run h hfew') hwas
    · rw [hassigned]
      show (assign px s job).called.filter _ = _
      rw [untouched_assign.2.2.2]
      rfl
  exact (h'.invariant (I := fun u => u.given < 2 ^ 32 →
      Sound px u ∧ Retired u was ∧ callsOf u was = callsOf s was) hstart
    (fun _ _ _ hs _ hstep hfew => by
      obtain ⟨hsound, hretired, hcalls⟩ := hs ((given_le_of_step hstep).trans_lt hfew)
      obtain ⟨hretired', hsame⟩ := hretired.step hsound hstep hfew
      exact ⟨hsound.step hstep hfew, hretired', hsame.trans hcalls⟩) hgiven).2.2

/-- Function 8 comes in the place of 9 before the second click is taken. -/
def secondSet : Action := .assign ⟨2, 1, bytes "OnClick", some 8⟩

/-- The context finishes that, and then takes the click. -/
def lateTake : List Action := [.go 0, .go 0, .go 0, .go 0, .go 0, .take 0 2, .take 1 3]

theorem calls_end_of_assign_click : ∃ s t u, AnyRun twoWidgets start (threeClicks.take 15) s ∧
    step twoWidgets s secondSet = some t ∧ AnyRun twoWidgets t lateTake u ∧ u.gone.length = 3 ∧
    (callsOf s 1).length = 1 ∧ callsOf u 1 = callsOf s 1 := by
  obtain ⟨s, hrun, hs⟩ := Run.exists_of_follow (step twoWidgets) (fun _ _ => True) start
    (threeClicks.take 15)
    (fun s => ((s.registered 1).lookup (bytes "OnClick") = some 1 ∧ (callsOf s 1).length = 1) ∧
      (step twoWidgets s secondSet).any fun t =>
        (Run.follow (step twoWidgets) (fun _ _ => True) t lateTake).any fun u =>
          u.given < 2 ^ 32 ∧ u.gone.length = 3) (by decide)
  obtain ⟨⟨hwas, honce⟩, hstep⟩ := of_decide_eq_true hs
  obtain ⟨t, ht, hfollow⟩ := (Option.any_eq_true _ _).mp hstep
  obtain ⟨u, hrun', hu⟩ := Run.exists_of_follow _ _ _ _ _ hfollow
  obtain ⟨hgiven, hgone⟩ := of_decide_eq_true hu
  exact ⟨s, t, u, hrun, ht, hrun', hgone, honce, calls_end_of_assign hrun ht hwas hrun' hgiven⟩

end Imgui
end Bg3le
