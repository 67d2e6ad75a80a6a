import Bg3le.Lua.LoadOrder

namespace Bg3le
namespace LoadOrder

variable {s s' : State} {l old new : Lists} {out uuids : List Bytes} {uuid : Bytes}

/-! ## The order -/

theorem appendUnseen_eq : appendUnseen out uuid = if uuid ∈ out then out else out ++ [uuid] := by
  simp [appendUnseen]

theorem mem_appendUnseen {other : Bytes} : uuid ∈ appendUnseen out other ↔ uuid ∈ out ∨ uuid = other := by
  rw [appendUnseen_eq]
  split
  · next hseen =>
    apply Iff.intro Or.inl
    intro h
    apply h.elim id
    intro heq
    rw [heq]
    exact hseen
  · rw [List.mem_append, List.mem_singleton]

theorem nodup_appendUnseen (h : out.Nodup) : (appendUnseen out uuid).Nodup := by
  rw [appendUnseen_eq]
  split
  · exact h
  · next hnew => exact List.nodup_append.mpr ⟨h, List.nodup_singleton _, by
      intro other hother last hlast heq
      rw [List.mem_singleton.mp hlast] at heq
      exact hnew (heq ▸ hother)⟩

theorem mem_foldl_appendUnseen :
    uuid ∈ uuids.foldl appendUnseen out ↔ uuid ∈ out ∨ uuid ∈ uuids := by
  induction uuids generalizing out with
  | nil => simp
  | cons first rest ih => rw [List.foldl_cons, ih, mem_appendUnseen, List.mem_cons, or_assoc]

theorem nodup_foldl_appendUnseen (h : out.Nodup) : (uuids.foldl appendUnseen out).Nodup := by
  induction uuids generalizing out with
  | nil => exact h
  | cons first rest ih => exact ih (nodup_appendUnseen h)

/-- What is appended are the unseen uuids, each where it comes first. -/
theorem foldl_appendUnseen :
    uuids.foldl appendUnseen out = out ++ (uuids.filter fun uuid => uuid ∉ out).eraseDups := by
  induction uuids generalizing out with
  | nil => simp
  | cons first rest ih =>
    rw [List.foldl_cons, ih, appendUnseen_eq]
    split
    · next hseen => rw [List.filter_cons_of_neg (by simpa using hseen)]
    · next hnew =>
      rw [List.filter_cons_of_pos (by simpa using hnew), List.eraseDups_cons, List.filter_filter,
        List.append_assoc, List.singleton_append]
      congr 4
      funext uuid
      by_cases heq : uuid = first
      · simp [heq]
      · simp [heq, beq_eq_false_iff_ne.mpr heq]

/-- The engine's loop appends what the player's order does not name. -/
theorem buildLoadOrder_foldl (engine settings : List Bytes) :
    buildLoadOrder engine settings = settings.foldl appendUnseen
      ((engine.filter fun uuid => !settings.contains uuid).foldl appendUnseen []) := by
  unfold buildLoadOrder
  rw [List.foldl_filter]
  simp

/-- `BuildLoadOrder` lists every uuid once, the engine's own modules first. -/
theorem orders_loadOrder (l : Lists) : Orders l l.loadOrder := by
  unfold Lists.loadOrder
  rw [buildLoadOrder_foldl]
  refine ⟨?_, nodup_foldl_appendUnseen (nodup_foldl_appendUnseen List.nodup_nil), ?_⟩
  · have hall (own : List Bytes) : own.foldl appendUnseen [] = own.eraseDups := by
      rw [foldl_appendUnseen]
      simp
    rw [foldl_appendUnseen, hall]
    -- none of the engine's own modules is in the player's order
    congr 2
    apply List.filter_eq_self.mpr
    intro uuid huuid
    apply decide_eq_true
    rw [List.mem_eraseDups, List.mem_filter]
    intro h
    have hunlisted : uuid ∉ l.modSettings := by simpa using h.2
    exact hunlisted huuid
  · intro uuid
    rw [mem_foldl_appendUnseen, mem_foldl_appendUnseen, List.mem_filter, List.mem_filterMap]
    by_cases hlisted : uuid ∈ l.modSettings
    · simp [hlisted]
    · simp [hlisted]

theorem mem_uuids : uuid ∈ l.uuids ↔ some uuid ∈ l.engine ∨ uuid ∈ l.modSettings := by
  unfold Lists.uuids
  rw [List.mem_append, List.mem_filterMap]
  simp

theorem mem_loadOrder : uuid ∈ l.loadOrder ↔ uuid ∈ l.uuids := by
  rw [(orders_loadOrder l).mem_iff, mem_uuids]

theorem length_loadOrder (l : Lists) : l.loadOrder.length = l.uuids.toFinset.card := by
  rw [← List.toFinset_card_of_nodup (orders_loadOrder l).nodup]
  congr 1
  ext uuid
  rw [List.mem_toFinset, List.mem_toFinset, mem_loadOrder]

/-- The names of the order are those of both lists. -/
theorem mem_names {name : Bytes} :
    name ∈ l.loadOrder.map stringLower ↔ name ∈ l.uuids.map stringLower := by
  rw [List.mem_map, List.mem_map]
  exact exists_congr fun uuid => and_congr_left' mem_loadOrder

/-! ## The tables -/

/-- What the tables hold, and every answer until now. -/
structure Inv (s : State) : Prop where
  order : s.loadOrder.From (fun l => some l.key) Lists.loadOrder s.orderedOver
  loaded : s.modLoaded.From (fun l => (l.loadOrder.length : ℤ))
    (fun l => l.loadOrder.map stringLower) s.loadedOver
  right : ∀ e ∈ s.history, Right e

theorem Inv.start (l : Lists) : Inv (start l) where
  order := ⟨fun _ _ => nofun, nofun⟩
  loaded := by
    refine ⟨?_, nofun⟩
    intro _ l
    show (l.loadOrder.length : ℤ) ≠ -1
    omega
  right := nofun

/-- `load_order` after `current_load_order`. -/
theorem Inv.currentLoadOrder (h : Inv s) : Inv (currentLoadOrder s) where
  order := h.order.ask rfl
  loaded := h.loaded
  right := h.right

theorem Inv.order_eq (h : Inv s) (hnotices : ∀ old ∈ s.orderedOver, old.Noticed s.lists) :
    (LoadOrder.currentLoadOrder s).loadOrder.value = s.lists.loadOrder := by
  rcases h.order.value_cases s.lists rfl with hnow | ⟨old, hold, hkey, hvalue⟩
  · exact hnow
  · rcases hnotices old hold with hsame | hother
    · refine hvalue.trans ?_
      rw [(orders_loadOrder old).eq_namedLast, hsame]
      exact (orders_loadOrder s.lists).eq_namedLast.symm
    · exact absurd (Option.some.inj hkey) hother

/-- An answer is added to the history. -/
theorem Inv.answered (h : Inv s) {e : Event} (he : Right e) :
    Inv { s with history := s.history ++ [e] } where
  order := h.order
  loaded := h.loaded
  right := by
    intro e' he'
    rcases List.mem_append.mp he' with hold | hnew
    · exact h.right e' hold
    · rw [List.mem_singleton.mp hnew]
      exact he

/-- `mod_loaded` after it was compared with the order. -/
theorem Inv.modLoaded (h : Inv s) {order : List Bytes} (horder : order = s.lists.loadOrder) :
    Inv { s with
      modLoaded := s.modLoaded.ask order.length (order.map stringLower)
      loadedOver := s.modLoaded.sourceAfter order.length s.loadedOver s.lists } where
  order := h.order
  loaded := by
    rw [horder]
    exact h.loaded.ask rfl
  right := h.right

/-- The table holds the names of the present order. -/
theorem Inv.mem_modLoaded (h : Inv s) {order : List Bytes} (horder : order = s.lists.loadOrder)
    (hcounted : ∀ old ∈ s.loadedOver, old.Counted s.lists) {name : Bytes} :
    name ∈ (s.modLoaded.ask order.length (order.map stringLower)).value ↔
      name ∈ s.lists.loadOrder.map stringLower := by
  rw [horder]
  rcases h.loaded.value_cases s.lists rfl with hnow | ⟨old, hold, hlength, hvalue⟩
  · rw [hnow]
  · rw [hvalue, mem_names, mem_names]
    rcases hcounted old hold with hsame | hother
    · rw [← List.mem_toFinset, hsame, List.mem_toFinset]
    · rw [← length_loadOrder, ← length_loadOrder] at hother
      exact absurd (Int.ofNat.inj hlength) hother

theorem Inv.getLoadOrder (h : Inv s) (hnotices : Notices s .getLoadOrder) :
    Inv (getLoadOrder s) := by
  apply h.currentLoadOrder.answered
  have heq := h.order_eq hnotices
  refine ⟨heq, ?_⟩
  rw [heq]
  exact orders_loadOrder s.lists

theorem Inv.isModLoaded (h : Inv s) {uuid : Option Bytes} (hnotices : Notices s (.isModLoaded uuid)) :
    Inv (isModLoaded s uuid) := by
  unfold LoadOrder.isModLoaded
  cases uuid with
  | none => exact h.answered ⟨nofun, nofun⟩
  | some id =>
    dsimp only
    split
    · next hloose =>
      rw [List.contains_iff_mem] at hloose
      exact h.answered ⟨fun _ => ⟨id, rfl, Or.inr hloose⟩, fun _ => rfl⟩
    · next hloose =>
      rw [List.contains_iff_mem] at hloose
      obtain ⟨hnoticed, hcounted⟩ := hnotices hloose
      have horder := h.order_eq hnoticed
      apply (h.currentLoadOrder.modLoaded horder).answered
      show (List.contains _ _ = true ↔ _)
      rw [List.contains_iff_mem, h.currentLoadOrder.mem_modLoaded horder hcounted, List.mem_map]
      constructor
      · exact fun hin => ⟨id, rfl, Or.inl hin⟩
      · rintro ⟨id', heq, hin⟩
        obtain rfl := Option.some.inj heq
        exact hin.resolve_right hloose

theorem Inv.step {a : Action} (h : Inv s) (hnotices : Notices s a) (hstep : step s a = some s') :
    Inv s' := by
  cases a with
  | engine _ | settings _ | loose _ =>
    obtain rfl := Option.some.inj hstep
    exact ⟨h.order, h.loaded, h.right⟩
  | getLoadOrder =>
    obtain rfl := Option.some.inj hstep
    exact h.getLoadOrder hnotices
  | isModLoaded uuid =>
    obtain rfl := Option.some.inj hstep
    exact h.isModLoaded hnotices

/-! ## Runs -/

/-- In a run whose calls notice what changed, every answer is right. -/
theorem answers_of_run {actions : List Action} (h : Run step Notices (start l) actions s) :
    ∀ e ∈ s.history, Right e := by
  have hinv : Inv s := h.invariant (Inv.start l) fun _ _ _ hinv hnotices hstep =>
    hinv.step hnotices hstep
  exact hinv.right

def firstMod : Bytes := bytes "755a8a72-407f-4f0d-9a33-274ac0f0b53d"

def secondMod : Bytes := bytes "67fbbd53-7c7d-4cfa-9409-6d737b4d92a9"

/-- One mod after the other is enabled, and asked for in another spelling. -/
def addedRun : List Action :=
  [.settings (some [firstMod]), .isModLoaded (some secondMod), .getLoadOrder,
    .settings (some [firstMod, secondMod]),
    .isModLoaded (some (bytes "67FBBD53-7C7D-4CFA-9409-6D737B4D92A9")),
    .engine [some secondMod], .getLoadOrder]

theorem answers_of_run_demo : ∃ s, Run step Notices (start {}) addedRun s ∧ s.history.length = 4 ∧
    ∀ e ∈ s.history, Right e := by
  obtain ⟨s, hrun, hlength⟩ := Run.exists_of_follow step Notices (start {}) addedRun
    (fun s => s.history.length = 4) (by decide +kernel)
  exact ⟨s, hrun, of_decide_eq_true hlength, answers_of_run hrun⟩

/-- A mod takes the place of another in the player's order between two calls. -/
def replacedRun : List Action :=
  [.settings (some [firstMod]), .isModLoaded (some firstMod), .settings (some [secondMod]),
    .isModLoaded (some secondMod)]

/-- The new mod is in the order, but `IsModLoaded` answers from the table of the old one. -/
theorem replaced_not_loaded : ∃ s, Run step (fun _ _ => True) (start {}) replacedRun s ∧
    ∃ e ∈ s.history, ¬Right e := by
  obtain ⟨s, hrun, hmem⟩ := Run.exists_of_follow step (fun _ _ => True) (start {}) replacedRun
    (fun s => .isModLoaded { settings := some [secondMod] } [] (some secondMod) false ∈ s.history)
    (by decide +kernel)
  refine ⟨s, hrun, _, of_decide_eq_true hmem, ?_⟩
  intro hright
  have hloaded : secondMod ∈ Lists.loadOrder { settings := some [secondMod] } := by decide +kernel
  exact absurd (hright.mpr ⟨secondMod, rfl, Or.inl ⟨secondMod, hloaded, rfl⟩⟩) nofun

end LoadOrder
end Bg3le
