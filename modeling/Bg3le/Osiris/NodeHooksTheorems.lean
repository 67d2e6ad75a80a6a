import Bg3le.Osiris.NodeHooks

/-!
# Every tuple reaches the engine once, as long as no patch is left half done or done twice
-/

namespace Bg3le
namespace NodeHooks

variable {s s' : State} {call : Call} {vtable other : Vtable} {slot slot' : Slot}

/-! ## One class -/

theorem slots_setSlot (s : State) (proc : Proc) :
    (s.setSlot vtable slot proc).slots other slot' =
      if other = vtable ∧ slot' = slot then proc else s.slots other slot' := by
  unfold State.setSlot
  by_cases hother : other = vtable
  · subst hother
    by_cases hslot : slot' = slot
    · simp [hslot]
    · simp [hslot]
  · simp [hother]

@[simp] theorem hooked_setSlot (s : State) (proc : Proc) :
    (s.setSlot vtable slot proc).hooked = s.hooked := rfl

/-- Both slots patched, and what they held recorded. -/
def State.hook (s : State) (vtable : Vtable) : State :=
  { (s.setSlot vtable .insert (.watched .insert)).setSlot vtable .delete (.watched .delete) with
    hooked := Function.update s.hooked vtable (some ⟨s.slots vtable .insert, s.slots vtable .delete⟩) }

theorem slots_hook (s : State) (vtable other : Vtable) (slot : Slot) :
    (s.hook vtable).slots other slot = if other = vtable then .watched slot else s.slots other slot := by
  show ((s.setSlot vtable .insert (.watched .insert)).setSlot vtable .delete (.watched .delete)).slots
    other slot = _
  rw [slots_setSlot, slots_setSlot]
  by_cases hother : other = vtable
  · cases slot with
    | insert => simp [hother]
    | delete => simp [hother]
  · simp [hother]

/-- What the loop does with a class. -/
theorem hookClass_eq (call : Call) (s : State) (vtable : Vtable) :
    hookClass call s vtable =
      if call.writable vtable .insert then
        if call.writable vtable .delete then (s.hook vtable, true)
        else (s.setSlot vtable .insert (.watched .insert), false)
      else (s, false) := by
  unfold hookClass hookPointer
  by_cases hinsert : call.writable vtable .insert = true
  · by_cases hdelete : call.writable vtable .delete = true
    · simp only [hinsert, hdelete, if_true]
      unfold State.hook
      rw [slots_setSlot, if_neg (by simp)]
      rfl
    · simp [hinsert, hdelete]
  · simp [hinsert]

/-- A class that is watched with its originals recorded, or not watched at all. -/
def Good (s : State) (vtable : Vtable) : Prop :=
  (s.hooked vtable = none ∧ ∀ slot, s.slots vtable slot = .engine vtable slot) ∨
    (s.hooked vtable = some ⟨.engine vtable .insert, .engine vtable .delete⟩ ∧
      ∀ slot, s.slots vtable slot = .watched slot)

/-- A class that is watched without a recorded original, or with a watching function as such. -/
def Bad (s : State) (vtable : Vtable) : Prop :=
  s.slots vtable .insert = .watched .insert ∧
    (s.hooked vtable = none ∨ ∃ hooked, s.hooked vtable = some hooked ∧ hooked.insert = .watched .insert)

/-- Another class is left alone. -/
theorem hookClass_other (call : Call) (s : State) (h : other ≠ vtable) :
    (hookClass call s vtable).1.slots other = s.slots other ∧
      (hookClass call s vtable).1.hooked other = s.hooked other := by
  rw [hookClass_eq]
  split
  · split
    · refine ⟨?_, Function.update_of_ne h _ _⟩
      apply funext
      intro slot
      show (s.hook vtable).slots other slot = _
      rw [slots_hook, if_neg h]
    · exact ⟨Function.update_of_ne h _ _, rfl⟩
  · exact ⟨rfl, rfl⟩

theorem good_hookClass (h : Good s vtable) (hclean : CleanClass s call vtable) :
    Good (hookClass call s vtable).1 vtable := by
  rw [hookClass_eq]
  by_cases hinsert : call.writable vtable .insert = true
  · rw [if_pos hinsert]
    have hiff := hclean hinsert
    by_cases hdelete : call.writable vtable .delete = true
    · have hnone := hiff.mp hdelete
      rw [if_pos hdelete]
      rcases h with ⟨_, hslots⟩ | ⟨hsome, _⟩
      · refine Or.inr ⟨?_, ?_⟩
        · show Function.update _ _ _ _ = _
          rw [Function.update_self, hslots, hslots]
        · intro slot
          rw [slots_hook, if_pos rfl]
      · rw [hsome] at hnone
        exact absurd hnone (by simp)
    · have hrecorded : s.hooked vtable ≠ none := fun hnone => hdelete (hiff.mpr hnone)
      rw [if_neg hdelete]
      rcases h with ⟨hnone, _⟩ | ⟨hsome, hslots⟩
      · exact absurd hnone hrecorded
      · refine Or.inr ⟨hsome, ?_⟩
        intro slot
        rw [slots_setSlot]
        split
        · next heq => rw [heq.2]
        · exact hslots slot
  · rw [if_neg hinsert]
    exact h

theorem bad_hookClass (h : Good s vtable) (hclean : ¬CleanClass s call vtable) :
    Bad (hookClass call s vtable).1 vtable := by
  unfold CleanClass at hclean
  rw [Classical.not_imp] at hclean
  obtain ⟨hinsert, hiff⟩ := hclean
  rw [hookClass_eq, if_pos hinsert]
  by_cases hdelete : call.writable vtable .delete = true
  · have hrecorded : s.hooked vtable ≠ none := fun hnone => hiff ⟨fun _ => hnone, fun _ => hdelete⟩
    rw [if_pos hdelete]
    rcases h with ⟨hnone, _⟩ | ⟨_, hslots⟩
    · exact absurd hnone hrecorded
    · refine ⟨?_, Or.inr ⟨_, Function.update_self .., hslots .insert⟩⟩
      rw [slots_hook, if_pos rfl]
  · have hnone : s.hooked vtable = none := by
      by_contra hrecorded
      exact hiff ⟨fun hd => absurd hd hdelete, fun hn => absurd hn hrecorded⟩
    rw [if_neg hdelete]
    refine ⟨?_, Or.inl hnone⟩
    rw [slots_setSlot, if_pos ⟨rfl, rfl⟩]

/-! ## The loop -/

theorem hookClasses_cons (call : Call) (s : State) (vtable : Vtable) (rest : List Vtable) :
    hookClasses call s (vtable :: rest) =
      if (hookClass call s vtable).2 then hookClasses call (hookClass call s vtable).1 rest
      else ((hookClass call s vtable).1, false) := rfl

theorem attempted_cons (call : Call) (vtable : Vtable) (rest : List Vtable) :
    attempted call (vtable :: rest) =
      if call.writable vtable .insert ∧ call.writable vtable .delete then vtable :: attempted call rest
      else [vtable] := rfl

theorem hookClasses_other (call : Call) (s : State) {classes : List Vtable} (h : other ∉ classes) :
    (hookClasses call s classes).1.slots other = s.slots other ∧
      (hookClasses call s classes).1.hooked other = s.hooked other := by
  induction classes generalizing s with
  | nil => exact ⟨rfl, rfl⟩
  | cons vtable rest ih =>
    rw [List.mem_cons, not_or] at h
    have hone := hookClass_other call s h.1
    rw [hookClasses_cons]
    split
    · obtain ⟨hslots, hhooked⟩ := @ih (hookClass call s vtable).1 h.2
      exact ⟨hslots.trans hone.1, hhooked.trans hone.2⟩
    · exact hone

theorem Good.congr (h : Good s vtable) (hslots : s'.slots vtable = s.slots vtable)
    (hhooked : s'.hooked vtable = s.hooked vtable) : Good s' vtable := by
  unfold Good
  rw [hslots, hhooked]
  exact h

theorem Bad.congr (h : Bad s vtable) (hslots : s'.slots vtable = s.slots vtable)
    (hhooked : s'.hooked vtable = s.hooked vtable) : Bad s' vtable := by
  unfold Bad
  rw [hslots, hhooked]
  exact h

theorem CleanClass.congr (hhooked : s'.hooked vtable = s.hooked vtable) :
    CleanClass s' call vtable ↔ CleanClass s call vtable := by
  unfold CleanClass
  rw [hhooked]

theorem good_after_class (h : ∀ v, Good s v) (hclean : CleanClass s call vtable) (v : Vtable) :
    Good (hookClass call s vtable).1 v := by
  by_cases hv : v = vtable
  · rw [hv]
    exact good_hookClass (h vtable) hclean
  · obtain ⟨hslots, hhooked⟩ := hookClass_other call s hv
    exact (h v).congr hslots hhooked

theorem ok_hookClass (call : Call) (s : State) (vtable : Vtable) :
    (hookClass call s vtable).2 = true ↔
      call.writable vtable .insert = true ∧ call.writable vtable .delete = true := by
  rw [hookClass_eq]
  split
  · split
    · simp [*]
    · simp [*]
  · simp [*]

theorem subset_attempted (call : Call) (classes : List Vtable) : attempted call classes ⊆ classes := by
  induction classes with
  | nil => exact List.Subset.refl _
  | cons vtable rest ih =>
    rw [attempted_cons]
    split
    · exact List.cons_subset_cons _ ih
    · simp

/-- Where each class is clean when its turn comes, all classes stay good. -/
theorem good_hookClasses {classes : List Vtable} (hnodup : classes.Nodup) (h : ∀ v, Good s v)
    (hclean : ∀ v ∈ attempted call classes, CleanClass s call v) (v : Vtable) :
    Good (hookClasses call s classes).1 v := by
  induction classes generalizing s with
  | nil => exact h v
  | cons vtable rest ih =>
    obtain ⟨hnotin, hnodup'⟩ := List.nodup_cons.mp hnodup
    have hfirst : CleanClass s call vtable := by
      apply hclean
      rw [attempted_cons]
      split
      · exact List.mem_cons_self
      · exact List.mem_cons_self
    have hgood := good_after_class h hfirst
    rw [hookClasses_cons]
    by_cases hok : (hookClass call s vtable).2 = true
    · rw [if_pos hok]
      apply ih hnodup' hgood
      intro v hv
      have hne : v ≠ vtable := fun heq => hnotin (heq ▸ subset_attempted call rest hv)
      apply (CleanClass.congr (hookClass_other call s hne).2).mpr
      apply hclean
      rw [attempted_cons, if_pos ((ok_hookClass ..).mp hok)]
      exact List.mem_cons_of_mem _ hv
    · rw [if_neg hok]
      exact hgood v

/-- A class that is not clean when its turn comes is bad afterwards. -/
theorem bad_hookClasses {classes : List Vtable} (hnodup : classes.Nodup) (h : ∀ v, Good s v)
    {v : Vtable} (hv : v ∈ attempted call classes) (hclean : ¬CleanClass s call v) :
    ∃ v, Bad (hookClasses call s classes).1 v := by
  induction classes generalizing s with
  | nil => exact absurd hv List.not_mem_nil
  | cons vtable rest ih =>
    obtain ⟨hnotin, hnodup'⟩ := List.nodup_cons.mp hnodup
    rw [hookClasses_cons]
    rw [attempted_cons] at hv
    by_cases hfirst : CleanClass s call vtable
    · -- then the class comes later, and the loop gets there
      have hne : v ≠ vtable := fun heq => hclean (heq ▸ hfirst)
      have hok : call.writable vtable .insert ∧ call.writable vtable .delete := by
        by_contra hnot
        rw [if_neg hnot, List.mem_singleton] at hv
        exact hne hv
      rw [if_pos hok] at hv
      rw [if_pos ((ok_hookClass ..).mpr hok)]
      apply ih hnodup' (good_after_class h hfirst) (List.mem_of_ne_of_mem hne hv)
      exact fun hc => hclean ((CleanClass.congr (hookClass_other call s hne).2).mp hc)
    · have hbad := bad_hookClass (h vtable) hfirst
      refine ⟨vtable, ?_⟩
      split
      · obtain ⟨hslots, hhooked⟩ :=
          hookClasses_other call (hookClass call s vtable).1 hnotin
        exact hbad.congr hslots hhooked
      · exact hbad

/-! ## Calls -/

/-- In a good state every tuple arrives. -/
theorem delivers_of_good (h : ∀ v, Good s v) : Delivers s := by
  constructor
  · intro vtable slot
    rcases h vtable with ⟨_, hslots⟩ | ⟨hsome, hslots⟩
    · rw [hslots]
      exact .engine
    · rw [hslots]
      refine Reaches.passed ?_ (@Reaches.engine s vtable vtable slot)
      unfold State.original
      rw [hsome]
      cases slot with
      | insert => rfl
      | delete => rfl
  · intro vtable slot slot' hwatched
    rcases h vtable with ⟨_, hslots⟩ | ⟨hsome, _⟩
    · rw [hslots] at hwatched
      exact absurd hwatched (by simp)
    · rw [hsome]
      simp
  · intro vtable hooked slot slot' hhooked
    rcases h vtable with ⟨hnone, _⟩ | ⟨hsome, _⟩
    · rw [hnone] at hhooked
      exact absurd hhooked (by simp)
    · rw [hsome] at hhooked
      rw [← Option.some.inj hhooked]
      cases slot with
      | insert => simp [Hooked.get]
      | delete => simp [Hooked.get]

theorem not_delivers_of_bad (h : Bad s vtable) : ¬Delivers s := by
  intro hdelivers
  rcases h.2 with hnone | ⟨hooked, hhooked, hinsert⟩
  · exact hdelivers.recorded vtable .insert .insert h.1 hnone
  · exact hdelivers.original vtable hooked .insert .insert hhooked hinsert

theorem installNodeHooks_eq (hhooks : Hooks s call) :
    (installNodeHooks s call).1.slots = (hookClasses call s call.classes).1.slots ∧
      (installNodeHooks s call).1.hooked = (hookClasses call s call.classes).1.hooked := by
  obtain ⟨hbound, hwatching, htwo, hslots⟩ := hhooks
  unfold installNodeHooks
  rw [if_neg (by simp [hbound]), if_neg (by simp [hwatching]), if_neg (by simp [htwo, hslots])]
  dsimp only
  split
  · exact ⟨rfl, rfl⟩
  · exact ⟨rfl, rfl⟩

theorem installNodeHooks_idle (hhooks : ¬Hooks s call) : (installNodeHooks s call).1 = s := by
  unfold installNodeHooks
  split
  · rfl
  split
  · rfl
  split
  · rfl
  · next hbound hwatching hrest =>
    apply absurd _ hhooks
    simp only [Bool.not_eq_true', Bool.not_eq_false, not_or, not_not] at hbound hwatching hrest
    exact ⟨hbound, by simpa using hwatching, hrest.1, hrest.2⟩

theorem good_installNodeHooks (h : ∀ v, Good s v) (hclean : Clean s call) (v : Vtable) :
    Good (installNodeHooks s call).1 v := by
  by_cases hhooks : Hooks s call
  · obtain ⟨hslots, hhooked⟩ := installNodeHooks_eq hhooks
    have hgood := good_hookClasses call.nodup h (hclean hhooks) v
    exact hgood.congr (congrFun hslots v) (congrFun hhooked v)
  · rw [installNodeHooks_idle hhooks]
    exact h v

/-- From a good state, a call leads to a state in which tuples arrive just if it is clean. -/
theorem delivers_iff (h : ∀ v, Good s v) : Delivers (installNodeHooks s call).1 ↔ Clean s call := by
  constructor
  · intro hdelivers hhooks v hv
    by_contra hclean
    obtain ⟨v', hbad⟩ := bad_hookClasses call.nodup h hv hclean
    obtain ⟨hslots, hhooked⟩ := installNodeHooks_eq hhooks
    exact not_delivers_of_bad (hbad.congr (congrFun hslots v') (congrFun hhooked v')) hdelivers
  · intro hclean
    exact delivers_of_good (good_installNodeHooks h hclean)

/-! ## Runs -/

theorem good_of_run {calls : List Call} (h : Run step Clean {} calls s) : ∀ v, Good s v := by
  apply h.invariant (I := fun s => ∀ v, Good s v)
  · exact fun v => Or.inl ⟨rfl, fun _ => rfl⟩
  · intro t call u hgood hclean hstep
    rw [← Option.some.inj hstep]
    exact good_installNodeHooks hgood hclean

/-- In every run of clean calls every tuple reaches the engine's function once, and a further call
keeps that just if it is clean. -/
theorem delivers_of_run {calls : List Call} (h : Run step Clean {} calls s) :
    Delivers s ∧ ∀ call, Delivers (installNodeHooks s call).1 ↔ Clean s call :=
  ⟨delivers_of_good (good_of_run h), fun _ => delivers_iff (good_of_run h)⟩

/-- A call that finds the two classes and can write to some of their slots. -/
def demoCall (writable : Vtable → Slot → Bool) : Call where
  bound := true
  classes := [1, 2]
  slotsOk := true
  writable := writable
  nodup := by decide

/-- A first call that can write to nothing, and one that can write to everything. -/
theorem delivers_of_run_demo : ∃ s, Run step Clean {}
    [demoCall fun _ _ => false, demoCall fun _ _ => true] s ∧ (Delivers s ∧
      ∀ call, Delivers (installNodeHooks s call).1 ↔ Clean s call) := by
  obtain ⟨s, hrun, -⟩ : ∃ s, Run step Clean {}
      [demoCall fun _ _ => false, demoCall fun _ _ => true] s ∧ s.watching = true :=
    Run.exists_of_follow _ _ _ _ _ (by decide +kernel)
  exact ⟨s, hrun, delivers_of_run hrun⟩

/-- The second slot of the first class cannot be made writable: the first one stays watched, and
what is inserted is lost. -/
theorem half_hooked_drops : ¬∀ (calls : List Call) (s : State),
    Run step (fun _ _ => True) {} calls s → Delivers s := by
  intro h
  have hrun : Run step (fun _ _ => True) {} ([] ++ [demoCall fun _ slot => slot = .insert])
      (installNodeHooks {} (demoCall fun _ slot => slot = .insert)).1 :=
    .step (.refl _) trivial rfl
  have hdelivers := h _ _ hrun
  exact hdelivers.recorded 1 .insert .insert (by decide) (by decide)

end NodeHooks
end Bg3le
