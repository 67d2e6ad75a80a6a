import Bg3le.Lua.SystemUpdate
import Mathlib.Data.List.Induction
import Mathlib.Data.List.Nodup
import Mathlib.Order.Basic

/-!
# A system update settles just if its handlers stop subscribing

What one round does, what a table keeps in every run, and the measure that the rounds take down.
-/

namespace Bg3le
namespace SystemUpdate

open EntitySubs

variable {E : Type} {t t₀ : Table E} {u : Update E} {op : Op E} {index i : ℕ} {post : Bool}
  {calls : ℕ → Call E} {sub : SystemSub}

/-! ## The table -/

/-- The lists are in the order of subscription, and have all subscribers of their systems. -/
structure Listed (t : Table E) : Prop where
  sorted : ∀ post index, (t.systemSubs post index).Pairwise fun a b => a.id < b.id
  old : ∀ post index, ∀ sub ∈ t.systemSubs post index, sub.id < t.nextSub
  fresh : ∀ id, t.entitySubs id ≠ none → id < t.nextSub
  listed : ∀ post index id, Registered t index post id → ∃ sub ∈ t.systemSubs post index, sub.id = id
  own : ∀ post index, ∀ sub ∈ t.systemSubs post index, t.entitySubs sub.id ≠ none →
    Registered t index post sub.id

/-- The tables begin empty. -/
theorem Listed.start : Listed ({} : Table E) where
  sorted := fun _ _ => List.Pairwise.nil
  old := fun _ _ _ h => absurd h List.not_mem_nil
  fresh := fun _ h => absurd rfl h
  listed := fun _ _ _ ⟨_, h, _⟩ => absurd h nofun
  own := fun _ _ _ h => absurd h List.not_mem_nil

/-- A cleared subscription is no longer registered. -/
theorem registered_clear {post' : Bool} {index' id id' : ℕ} :
    Registered (t.clear id) index' post' id' ↔ id' ≠ id ∧ Registered t index' post' id' := by
  unfold Registered
  rw [entitySubs_clear]
  by_cases h : id' = id
  · simp [h]
  · simp [h]

/-- The lists may keep an entry whose subscription is cleared. -/
theorem Listed.clear (h : Listed t) (id : ℕ) : Listed (t.clear id) where
  sorted := h.sorted
  old := h.old
  fresh := by
    intro id' hid'
    rw [entitySubs_clear] at hid'
    split at hid'
    · exact absurd rfl hid'
    · exact h.fresh id' hid'
  listed := by
    intro post' index' id' hid'
    exact h.listed post' index' id' (registered_clear.mp hid').2
  own := by
    intro post' index' sub hsub hsome
    rw [entitySubs_clear] at hsome
    split at hsome
    · exact absurd rfl hsome
    · next hne => exact registered_clear.mpr ⟨hne, h.own post' index' sub hsub hsome⟩

/-- A new subscription is registered with its system. -/
theorem registered_add {post' : Bool} {index' id : ℕ} (sub : Subscription E) :
    Registered (t.add sub) index' post' id ↔
      if id = t.nextSub then sub.system = some (index', post') else Registered t index' post' id := by
  unfold Registered
  rw [entitySubs_add]
  split
  · simp
  · rfl

/-- A new subscription to a component. -/
theorem Listed.add (h : Listed t) {sub : Subscription E} (hsystem : sub.system = none) : Listed (t.add sub) where
  sorted := h.sorted
  old := fun post' index' e he => (h.old post' index' e he).trans (Nat.lt_succ_self _)
  fresh := by
    intro id hid
    rw [entitySubs_add] at hid
    split at hid
    · next heq => exact heq ▸ Nat.lt_succ_self _
    · exact (h.fresh id hid).trans (Nat.lt_succ_self _)
  listed := by
    intro post' index' id hid
    rw [registered_add] at hid
    split at hid
    · rw [hsystem] at hid
      exact absurd hid nofun
    · exact h.listed post' index' id hid
  own := by
    intro post' index' e he hsome
    have hne : e.id ≠ t.nextSub := (h.old post' index' e he).ne
    rw [entitySubs_add, if_neg hne] at hsome
    rw [registered_add, if_neg hne]
    exact h.own post' index' e he hsome

/-- A new subscription to a system is the last of its list. -/
theorem Listed.addSystem (h : Listed t) (index : ℕ) (post once : Bool) :
    Listed ((t.setList index post (t.systemSubs post index ++ [⟨t.nextSub, once⟩])).add
      (.ofSystem index post)) := by
  -- only one list grows, and by one entry with a new id
  have hlist (post' : Bool) (index' : ℕ) (e : SystemSub)
      (he : e ∈ (t.setList index post (t.systemSubs post index ++ [⟨t.nextSub, once⟩])).systemSubs
        post' index') :
      e ∈ t.systemSubs post' index' ∨ (post' = post ∧ index' = index ∧ e = ⟨t.nextSub, once⟩) := by
    rw [systemSubs_setList] at he
    split at he
    · next hsame =>
      rcases List.mem_append.mp he with he | he
      · rw [hsame.1, hsame.2]
        exact Or.inl he
      · exact Or.inr ⟨hsame.1, hsame.2, List.mem_singleton.mp he⟩
    · exact Or.inl he
  constructor
  · intro post' index'
    rw [systemSubs_add, systemSubs_setList]
    split
    · rw [List.pairwise_append]
      refine ⟨h.sorted _ _, List.pairwise_singleton _ _, ?_⟩
      intro e he e' he'
      rw [List.mem_singleton.mp he']
      exact h.old _ _ e he
    · exact h.sorted _ _
  · intro post' index' e he
    show e.id < t.nextSub + 1
    rcases hlist post' index' e he with he | ⟨-, -, rfl⟩
    · exact (h.old _ _ e he).trans (Nat.lt_succ_self _)
    · exact Nat.lt_succ_self _
  · intro id hid
    show id < t.nextSub + 1
    rw [entitySubs_add] at hid
    split at hid
    · next heq =>
      rw [heq]
      exact Nat.lt_succ_self _
    · exact (h.fresh id hid).trans (Nat.lt_succ_self _)
  · intro post' index' id hid
    rw [registered_add] at hid
    rw [systemSubs_add, systemSubs_setList]
    split at hid
    · next heq =>
      obtain ⟨hindex, hpost⟩ := Prod.mk.inj (Option.some.inj hid)
      rw [if_pos ⟨hpost.symm, hindex.symm⟩]
      exact ⟨_, List.mem_append_right _ List.mem_cons_self, heq.symm⟩
    · obtain ⟨e, he, hid'⟩ := h.listed post' index' id hid
      refine ⟨e, ?_, hid'⟩
      split
      · next hsame =>
        rw [hsame.1, hsame.2] at he
        exact List.mem_append_left _ he
      · exact he
  · intro post' index' e he hsome
    rw [registered_add]
    rcases hlist post' index' e he with he | ⟨rfl, rfl, rfl⟩
    · have hne : e.id ≠ t.nextSub := (h.old post' index' e he).ne
      rw [entitySubs_add, nextSub_setList, if_neg hne] at hsome
      rw [nextSub_setList, if_neg hne]
      exact h.own post' index' e he hsome
    · rw [nextSub_setList, if_pos rfl]
      rfl

/-- Every operation keeps the lists right. -/
theorem Listed.apply (h : Listed t) (op : Op E) : Listed (op.apply t) := by
  rcases apply_cases t op with hsame | ⟨sub, hsystem, hadd⟩ | ⟨index, post, once, -, hadd⟩ | ⟨id, -, hclear⟩
  · rw [hsame]
    exact h
  · rw [hadd]
    exact h.add hsystem
  · rw [hadd]
    exact h.addSystem index post once
  · rw [hclear]
    exact h.clear id

/-- An entry of a subscriber that is gone is taken out of its list. -/
theorem Listed.erase (h : Listed t) {k : ℕ} (hk : ∀ sub, (t.systemSubs post index)[k]? = some sub →
    t.entitySubs sub.id = none) :
    Listed (t.setList index post ((t.systemSubs post index).eraseIdx k)) := by
  have hsub (post' : Bool) (index' : ℕ) :
      ((t.setList index post ((t.systemSubs post index).eraseIdx k)).systemSubs post' index').Sublist
        (t.systemSubs post' index') := by
    rw [systemSubs_setList]
    split
    · next hsame =>
      rw [hsame.1, hsame.2]
      exact List.eraseIdx_sublist _ _
    · exact List.Sublist.refl _
  constructor
  · exact fun post' index' => (h.sorted post' index').sublist (hsub post' index')
  · exact fun post' index' e he => h.old post' index' e ((hsub post' index').subset he)
  · exact h.fresh
  · intro post' index' id hid
    obtain ⟨e, he, hid'⟩ := h.listed post' index' id hid
    refine ⟨e, ?_, hid'⟩
    rw [systemSubs_setList]
    split
    · next hsame =>
      rw [hsame.1, hsame.2] at he
      rw [List.mem_eraseIdx_iff_getElem?]
      obtain ⟨n, hn⟩ := List.getElem?_of_mem he
      refine ⟨n, ?_, hn⟩
      rintro rfl
      obtain ⟨sub, hsub, -⟩ := hid
      have hnone := hk e hn
      rw [hid', show t.entitySubs id = some sub from hsub] at hnone
      exact absurd hnone nofun
    · exact he
  · exact fun post' index' e he hsome => h.own post' index' e ((hsub post' index').subset he) hsome

/-! ## Rounds -/

@[simp] theorem i_applyOp (u : Update E) (op : Op E) : (u.applyOp op).i = u.i := rfl

@[simp] theorem calls_applyOp (u : Update E) (op : Op E) : (u.applyOp op).calls = u.calls := rfl

@[simp] theorem status_applyOp (u : Update E) (op : Op E) : (u.applyOp op).status = u.status := rfl

/-- The loop itself is not affected by what a handler does. -/
theorem foldl_applyOp (ops : List (Op E)) (u : Update E) :
    (ops.foldl Update.applyOp u).i = u.i ∧ (ops.foldl Update.applyOp u).calls = u.calls ∧
      (ops.foldl Update.applyOp u).status = u.status := by
  induction ops generalizing u with
  | nil => exact ⟨rfl, rfl, rfl⟩
  | cons op ops ih => exact ih (u.applyOp op)

/-- A call leaves the loop where it is. -/
theorem frame_call (u : Update E) (sub : SystemSub) (call : Call E) :
    (u.call sub call).i = u.i ∧ (u.call sub call).calls = u.calls + 1 ∧
      (u.call sub call).status = u.status :=
  foldl_applyOp call.ops _

/-- What a round does. -/
theorem round_cases (index : ℕ) (post : Bool) (calls : ℕ → Call E) (hrunning : u.status = .running) :
    ((u.table.systemSubs post index)[u.i]? = none ∧
      round index post calls u = { u with status := .returned }) ∨
    ∃ sub, (u.table.systemSubs post index)[u.i]? = some sub ∧
      ((u.table.entitySubs sub.id = none ∧ round index post calls u = u.remove index post) ∨
      (u.table.entitySubs sub.id ≠ none ∧ (calls u.calls).raises = true ∧
        round index post calls u = { u.call sub (calls u.calls) with status := .raised }) ∨
      (u.table.entitySubs sub.id ≠ none ∧ (calls u.calls).raises = false ∧ sub.once = true ∧
        round index post calls u = { u.call sub (calls u.calls) with
          table := (u.call sub (calls u.calls)).table.clear sub.id }.remove index post) ∨
      (u.table.entitySubs sub.id ≠ none ∧ (calls u.calls).raises = false ∧ sub.once = false ∧
        round index post calls u = { u.call sub (calls u.calls) with
          i := (u.call sub (calls u.calls)).i + 1 })) := by
  unfold round
  rw [if_neg (by simp [hrunning])]
  cases hget : (u.table.systemSubs post index)[u.i]? with
  | none => exact Or.inl ⟨rfl, rfl⟩
  | some sub =>
    right
    refine ⟨sub, rfl, ?_⟩
    dsimp only
    by_cases hgone : u.table.entitySubs sub.id = none
    · rw [if_pos (by simp [hgone])]
      exact Or.inl ⟨hgone, rfl⟩
    · rw [if_neg (by simp [hgone])]
      right
      by_cases hraises : (calls u.calls).raises = true
      · rw [if_pos hraises]
        exact Or.inl ⟨hgone, hraises, rfl⟩
      · rw [if_neg hraises]
        right
        have hquiet : (calls u.calls).raises = false := by simpa using hraises
        by_cases honce : sub.once = true
        · rw [if_pos honce]
          exact Or.inl ⟨hgone, hquiet, honce, rfl⟩
        · rw [if_neg honce]
          exact Or.inr ⟨hgone, hquiet, by simpa using honce, rfl⟩

/-- What an operation of a handler does to the update. -/
theorem applyOp_cases (u : Update E) (op : Op E) :
    u.applyOp op = u ∨ (∃ sub, sub.system = none ∧ u.applyOp op = { u with table := u.table.add sub }) ∨
      (∃ index post once, op = .subscribeSystem (some index) post once ∧ u.applyOp op =
        { u with table := (u.table.setList index post
          (u.table.systemSubs post index ++ [⟨u.table.nextSub, once⟩])).add (.ofSystem index post) }) ∨
      ∃ id, u.table.entitySubs id ≠ none ∧ u.applyOp op =
        { u with table := u.table.clear id, log := u.log ++ [.unsubscribed id] } := by
  cases op with
  | subscribe watch kind component entity once flags =>
    unfold Update.applyOp
    rw [List.append_nil]
    rcases subscribe_cases u.table watch kind component entity once flags with hsame | ⟨sub, hsub, hadd⟩
    · left
      show { u with table := u.table.subscribe watch kind component entity once flags } = u
      rw [hsame]
    · right
      left
      refine ⟨sub, hsub, ?_⟩
      show { u with table := u.table.subscribe watch kind component entity once flags } = _
      rw [hadd]
  | subscribeSystem index post once =>
    unfold Update.applyOp
    rw [List.append_nil]
    cases index with
    | none => exact Or.inl rfl
    | some index => exact Or.inr (Or.inr (Or.inl ⟨index, post, once, rfl, rfl⟩))
  | unsubscribe id =>
    unfold Update.applyOp
    cases hid : u.table.entitySubs id with
    | none =>
      left
      have hsame : u.table.unsubscribe id = (u.table, false) := by
        unfold Table.unsubscribe
        rw [hid]
      show { u with table := (u.table.unsubscribe id).1, log := _ } = u
      simp [hsame]
    | some sub =>
      right
      right
      right
      refine ⟨id, by simp [hid], ?_⟩
      have hcleared : u.table.unsubscribe id = (u.table.clear id, true) := by
        unfold Table.unsubscribe
        rw [hid]
      show { u with table := (u.table.unsubscribe id).1, log := _ } = _
      simp [hcleared]

/-- Who had its turn had it. -/
theorem Served.append {log : List Event} {id : ℕ} (h : Served log id) (later : List Event) :
    Served (log ++ later) id :=
  h.imp (fun ⟨sub, hid, hran⟩ => ⟨sub, hid, List.mem_append_left _ hran⟩) (List.mem_append_left _)

/-- What holds of an update at position `i`; while the handler of an entry is called, that is
`open'`. -/
structure Inv (t₀ : Table E) (index : ℕ) (post : Bool) (u : Update E) (i : ℕ)
    (open' : Option SystemSub) : Prop extends Listed u.table where
  right : Throughout (Right t₀ index post) u.log
  ran_old : ∀ sub, .ran sub ∈ u.log → sub.id < u.table.nextSub
  gone : ∀ id, .unsubscribed id ∈ u.log → id < u.table.nextSub ∧ u.table.entitySubs id = none
  /-- What lies before the position was called. -/
  passed : ∀ sub ∈ (u.table.systemSubs post index).take i, .ran sub ∈ u.log ∧
    (u.table.entitySubs sub.id ≠ none ∨ .unsubscribed sub.id ∈ u.log)
  /-- What lies behind it is younger than all that were called. -/
  ahead : ∀ sub, .ran sub ∈ u.log → ∀ sub' ∈ (u.table.systemSubs post index).drop i, sub.id < sub'.id
  served : ∀ id, Registered t₀ index post id → Served u.log id ∨ Registered u.table index post id
  spent : ∀ sub, .ran sub ∈ u.log → sub.once = true →
    u.table.entitySubs sub.id = none ∨ open' = some sub
  /-- A subscriber that was gone when the update began stays gone. -/
  kept : ∀ id, id < t₀.nextSub → t₀.entitySubs id = none →
    u.table.entitySubs id = none ∧ ∀ sub, .ran sub ∈ u.log → sub.id ≠ id
  grown : t₀.nextSub ≤ u.table.nextSub
  within : i ≤ (u.table.systemSubs post index).length

/-- The update begins with no one called. -/
theorem Inv.start (h : Listed t₀) : Inv t₀ index post { table := t₀ } 0 none where
  toListed := h
  right := Throughout.nil
  ran_old := fun _ h => absurd h List.not_mem_nil
  gone := fun _ h => absurd h List.not_mem_nil
  passed := fun _ h => absurd h (by simp)
  ahead := fun _ h => absurd h List.not_mem_nil
  served := fun _ h => Or.inr h
  spent := fun _ h => absurd h List.not_mem_nil
  kept := fun _ _ hnone => ⟨hnone, fun _ h => absurd h List.not_mem_nil⟩
  grown := le_rfl
  within := Nat.zero_le _

variable {open' : Option SystemSub}

/-- A new subscription that is not in the list changes nothing of what holds. -/
theorem Inv.subscribe (h : Inv t₀ index post u i open') {t : Table E} {sub : Subscription E}
    (hlisted : Listed (t.add sub)) (hnext : t.nextSub = u.table.nextSub)
    (hsubs : t.entitySubs = u.table.entitySubs)
    (htake : (t.systemSubs post index).take i = (u.table.systemSubs post index).take i)
    (hdrop : ∀ e ∈ (t.systemSubs post index).drop i,
      e ∈ (u.table.systemSubs post index).drop i ∨ e.id = u.table.nextSub)
    (hwithin : i ≤ (t.systemSubs post index).length) :
    Inv t₀ index post { u with table := t.add sub } i open' := by
  -- the new subscription has an id that no earlier one had
  have hold (id : ℕ) (hid : id < u.table.nextSub) :
      (t.add sub).entitySubs id = u.table.entitySubs id := by
    rw [entitySubs_add, hnext, if_neg hid.ne, hsubs]
  have hnext' : (t.add sub).nextSub = u.table.nextSub + 1 := congrArg (· + 1) hnext
  constructor
  · exact hlisted
  · exact h.right
  · intro e he
    rw [hnext']
    exact (h.ran_old e he).trans (Nat.lt_succ_self _)
  · intro id hid
    obtain ⟨hlt, hnone⟩ := h.gone id hid
    rw [hnext', hold id hlt]
    exact ⟨hlt.trans (Nat.lt_succ_self _), hnone⟩
  · intro e he
    rw [systemSubs_add, htake] at he
    rw [hold e.id (h.old post index e (List.mem_of_mem_take he))]
    exact h.passed e he
  · intro e he e' he'
    rw [systemSubs_add] at he'
    rcases hdrop e' he' with hin | hnew
    · exact h.ahead e he e' hin
    · rw [hnew]
      exact h.ran_old e he
  · intro id hid
    refine (h.served id hid).imp_right ?_
    rintro ⟨sub', hsub', hsystem⟩
    have hlt := h.fresh id (by simp [hsub'])
    exact ⟨sub', (hold id hlt).trans hsub', hsystem⟩
  · intro e he honce
    rw [hold e.id (h.ran_old e he)]
    exact h.spent e he honce
  · intro id hid hnone
    rw [hold id (hid.trans_le h.grown)]
    exact h.kept id hid hnone
  · rw [hnext']
    exact h.grown.trans (Nat.le_succ _)
  · exact hwithin

/-- A subscriber that is cleared, if its entry in the list stays. -/
theorem Inv.unsubscribe (h : Inv t₀ index post u i open') {id : ℕ} (hid : u.table.entitySubs id ≠ none) :
    Inv t₀ index post { u with table := u.table.clear id, log := u.log ++ [.unsubscribed id] } i open' := by
  -- nothing runs, so the fields about what ran carry over
  have hmem (e : SystemSub) : .ran e ∈ u.log ++ [.unsubscribed id] ↔ .ran e ∈ u.log := by simp
  constructor
  · exact h.toListed.clear id
  · exact h.right.concat trivial
  · exact fun e he => h.ran_old e ((hmem e).mp he)
  · intro id' hid'
    rw [entitySubs_clear]
    rcases List.mem_append.mp hid' with hold | hnew
    · obtain ⟨hlt, hnone⟩ := h.gone id' hold
      refine ⟨hlt, ?_⟩
      split
      · rfl
      · exact hnone
    · obtain rfl := Event.unsubscribed.inj (List.mem_singleton.mp hnew)
      exact ⟨h.fresh _ hid, if_pos rfl⟩
  · intro e he
    obtain ⟨hran, hkept⟩ := h.passed e he
    refine ⟨(hmem e).mpr hran, ?_⟩
    rw [entitySubs_clear]
    split
    · next heq =>
      right
      rw [heq]
      exact List.mem_append_right _ List.mem_cons_self
    · exact hkept.imp_right (List.mem_append_left _)
  · exact fun e he => h.ahead e ((hmem e).mp he)
  · intro id' hid'
    rcases h.served id' hid' with hserved | hregistered
    · exact Or.inl (hserved.append _)
    · by_cases heq : id' = id
      · left
        right
        rw [heq]
        exact List.mem_append_right _ List.mem_cons_self
      · exact Or.inr (registered_clear.mpr ⟨heq, hregistered⟩)
  · intro e he honce
    rw [entitySubs_clear]
    split
    · exact Or.inl rfl
    · exact h.spent e ((hmem e).mp he) honce
  · intro id' hid' hnone
    obtain ⟨hgone, hran⟩ := h.kept id' hid' hnone
    rw [entitySubs_clear]
    refine ⟨?_, fun e he => hran e ((hmem e).mp he)⟩
    split
    · rfl
    · exact hgone
  · exact h.grown
  · exact h.within

/-- What a handler does keeps the update right. -/
theorem Inv.applyOp (h : Inv t₀ index post u i open') (op : Op E) :
    Inv t₀ index post (u.applyOp op) i open' := by
  rcases applyOp_cases u op with hsame | ⟨sub, hsystem, hadd⟩ | ⟨index', post', once, -, hadd⟩ | ⟨id, hid, hclear⟩
  · rw [hsame]
    exact h
  · rw [hadd]
    exact h.subscribe (h.toListed.add hsystem) rfl rfl rfl (fun _ he => Or.inl he) h.within
  · rw [hadd]
    apply h.subscribe (h.toListed.addSystem index' post' once) rfl rfl
    · rw [systemSubs_setList]
      split
      · next hsame =>
        rw [← hsame.1, ← hsame.2, List.take_append_of_le_length h.within]
      · rfl
    · intro e he
      rw [systemSubs_setList] at he
      split at he
      · next hsame =>
        rw [← hsame.1, ← hsame.2, List.drop_append_of_le_length h.within] at he
        rcases List.mem_append.mp he with he | he
        · exact Or.inl he
        · exact Or.inr (congrArg SystemSub.id (List.mem_singleton.mp he))
      · exact Or.inl he
    · rw [systemSubs_setList]
      split
      · next hsame =>
        rw [← hsame.1, ← hsame.2, List.length_append]
        exact Nat.le_add_right_of_le h.within
      · exact h.within
  · rw [hclear]
    exact h.unsubscribe hid

/-- So does all that it does. -/
theorem Inv.handler (h : Inv t₀ index post u i open') (ops : List (Op E)) :
    Inv t₀ index post (ops.foldl Update.applyOp u) i open' := by
  induction ops generalizing u with
  | nil => exact h
  | cons op ops ih => exact ih (h.applyOp op)

theorem drop_of_get {list : List SystemSub} (hget : list[i]? = some sub) :
    list.drop i = sub :: list.drop (i + 1) := by
  obtain ⟨hlt, heq⟩ := List.getElem?_eq_some_iff.mp hget
  rw [List.drop_eq_getElem_cons hlt, heq]

/-- The handler of the entry at the position is called. -/
theorem Inv.ran (h : Inv t₀ index post u i none) (k : ℕ)
    (hget : (u.table.systemSubs post index)[i]? = some sub)
    (hregistered : u.table.entitySubs sub.id ≠ none) :
    Inv t₀ index post { u with calls := k, log := u.log ++ [.ran sub] } (i + 1) (some sub) := by
  have hdrop := drop_of_get hget
  obtain ⟨hlt, heq⟩ := List.getElem?_eq_some_iff.mp hget
  have hmem : sub ∈ u.table.systemSubs post index := List.mem_of_getElem? hget
  have hrest : ∀ e ∈ (u.table.systemSubs post index).drop (i + 1), sub.id < e.id := by
    have hsorted := (h.sorted post index).sublist (List.drop_sublist i _)
    rw [hdrop] at hsorted
    exact (List.pairwise_cons.mp hsorted).1
  have hnew (e : SystemSub) : .ran e ∈ u.log ++ [.ran sub] ↔ .ran e ∈ u.log ∨ e = sub := by simp
  constructor
  · exact h.toListed
  · apply h.right.concat
    refine ⟨?_, ?_, ?_⟩
    · intro e heq' hran
      have hahead := h.ahead e hran sub (hdrop ▸ List.mem_cons_self)
      omega
    · intro hgone
      exact hregistered (h.gone _ hgone).2
    · intro id hid hbefore
      -- whoever is registered with a lower id stands before this one in the list, so has run
      rcases h.served id hid with hserved | hstill
      · exact hserved
      · obtain ⟨e, he, rfl⟩ := h.listed post index id hstill
        rw [← List.take_append_drop i (u.table.systemSubs post index), hdrop] at he
        rcases List.mem_append.mp he with hpassed | hrest'
        · exact Or.inl ⟨e, rfl, (h.passed e hpassed).1⟩
        · rcases List.mem_cons.mp hrest' with rfl | hrest'
          · exact absurd hbefore (Nat.lt_irrefl _)
          · exact absurd (hrest e hrest') (Nat.lt_asymm hbefore)
  · intro e he
    rcases (hnew e).mp he with he | rfl
    · exact h.ran_old e he
    · exact h.fresh _ hregistered
  · intro id hid
    exact h.gone id (by simpa using hid)
  · intro e he
    rw [List.take_succ_eq_append_getElem hlt, heq] at he
    rcases List.mem_append.mp he with he | he
    · obtain ⟨hran, hkept⟩ := h.passed e he
      exact ⟨(hnew e).mpr (Or.inl hran), hkept.imp_right (List.mem_append_left _)⟩
    · rw [List.mem_singleton.mp he]
      exact ⟨(hnew sub).mpr (Or.inr rfl), Or.inl hregistered⟩
  · intro e he e' he'
    rcases (hnew e).mp he with he | rfl
    · exact h.ahead e he e' (hdrop ▸ List.mem_cons_of_mem _ he')
    · exact hrest e' he'
  · exact fun id hid => (h.served id hid).imp_left fun hserved => hserved.append _
  · intro e he honce
    rcases (hnew e).mp he with he | rfl
    · exact Or.inl ((h.spent e he honce).resolve_right nofun)
    · exact Or.inr rfl
  · intro id hid hnone
    obtain ⟨hgone, hran⟩ := h.kept id hid hnone
    refine ⟨hgone, ?_⟩
    intro e he
    rcases (hnew e).mp he with he | rfl
    · exact hran e he
    · intro heq'
      exact hregistered (heq' ▸ hgone)
  · exact h.grown
  · exact hlt

/-- The entry behind the position is removed, if its subscriber is gone. -/
theorem Inv.remove (h : Inv t₀ index post u i none) (hi : u.i = i)
    (hget : (u.table.systemSubs post index)[i]? = some sub)
    (hgone : u.table.entitySubs sub.id = none) : Inv t₀ index post (u.remove index post) i none := by
  have hdrop := drop_of_get hget
  have hlist : (u.remove index post).table.systemSubs post index =
      (u.table.systemSubs post index).take i ++ (u.table.systemSubs post index).drop (i + 1) := by
    unfold Update.remove
    rw [systemSubs_setList, if_pos ⟨rfl, rfl⟩, hi, List.eraseIdx_eq_take_drop_succ]
  have htake : ((u.table.systemSubs post index).take i).length = i := List.length_take_of_le h.within
  constructor
  · apply h.toListed.erase
    rw [hi]
    intro e he
    rw [hget] at he
    rw [← Option.some.inj he]
    exact hgone
  · exact h.right
  · exact h.ran_old
  · exact h.gone
  · intro e he
    rw [hlist, List.take_left' htake] at he
    exact h.passed e he
  · intro e he e' he'
    rw [hlist, List.drop_left' htake] at he'
    exact h.ahead e he e' (hdrop ▸ List.mem_cons_of_mem _ he')
  · exact h.served
  · exact h.spent
  · exact h.kept
  · exact h.grown
  · rw [hlist, List.length_append, htake]
    exact Nat.le_add_right _ _

/-- A subscriber for one time is spent when its handler has returned, and its entry removed. -/
theorem Inv.spend (h : Inv t₀ index post u (i + 1) (some sub)) (hi : u.i = i)
    (hget : (u.table.systemSubs post index)[i]? = some sub) :
    Inv t₀ index post ({ u with table := u.table.clear sub.id }.remove index post) i none := by
  obtain ⟨hlt, heq⟩ := List.getElem?_eq_some_iff.mp hget
  have hlist : ({ u with table := u.table.clear sub.id }.remove index post).table.systemSubs post index =
      (u.table.systemSubs post index).take i ++ (u.table.systemSubs post index).drop (i + 1) := by
    unfold Update.remove
    rw [systemSubs_setList, if_pos ⟨rfl, rfl⟩]
    show (u.table.systemSubs post index).eraseIdx u.i = _
    rw [hi, List.eraseIdx_eq_take_drop_succ]
  have htake : ((u.table.systemSubs post index).take i).length = i := List.length_take_of_le hlt.le
  have hstart : (u.table.systemSubs post index).take (i + 1) =
      (u.table.systemSubs post index).take i ++ [sub] := by
    rw [List.take_succ_eq_append_getElem hlt, heq]
  -- no earlier entry of the list has the id, as the ids of a list rise
  have hsorted : ∀ e ∈ (u.table.systemSubs post index).take i, e.id ≠ sub.id := by
    have hpairwise := (h.sorted post index).sublist (List.take_sublist (i + 1) _)
    rw [hstart, List.pairwise_append] at hpairwise
    intro e he
    exact (hpairwise.2.2 e he sub List.mem_cons_self).ne
  have hran : .ran sub ∈ u.log := (h.passed sub (hstart ▸ by simp)).1
  constructor
  · apply (h.toListed.clear sub.id).erase
    intro e he
    have he' : (u.table.systemSubs post index)[i]? = some e := hi ▸ he
    rw [hget] at he'
    rw [← Option.some.inj he', entitySubs_clear, if_pos rfl]
  · exact h.right
  · exact h.ran_old
  · intro id hid
    obtain ⟨hold, hnone⟩ := h.gone id hid
    refine ⟨hold, ?_⟩
    show (u.table.clear sub.id).entitySubs id = none
    rw [entitySubs_clear]
    split
    · rfl
    · exact hnone
  · intro e he
    rw [hlist, List.take_left' htake] at he
    obtain ⟨hran', hkept⟩ := h.passed e (hstart ▸ List.mem_append_left _ he)
    refine ⟨hran', ?_⟩
    show (u.table.clear sub.id).entitySubs e.id ≠ none ∨ _
    rw [entitySubs_clear, if_neg (hsorted e he)]
    exact hkept
  · intro e he e' he'
    rw [hlist, List.drop_left' htake] at he'
    exact h.ahead e he e' he'
  · intro id hid
    rcases h.served id hid with hserved | hregistered
    · exact Or.inl hserved
    -- what was served is served still: only this subscription went, and it ran
    · by_cases hsame : id = sub.id
      · exact Or.inl (Or.inl ⟨sub, hsame.symm, hran⟩)
      · exact Or.inr (registered_clear.mpr ⟨hsame, hregistered⟩)
  · intro e he honce
    left
    show (u.table.clear sub.id).entitySubs e.id = none
    rw [entitySubs_clear]
    split
    · rfl
    · next hne =>
      apply (h.spent e he honce).resolve_right
      intro hopen
      exact hne (congrArg SystemSub.id (Option.some.inj hopen)).symm
  · intro id hid hnone
    obtain ⟨hgone, hran'⟩ := h.kept id hid hnone
    refine ⟨?_, hran'⟩
    show (u.table.clear sub.id).entitySubs id = none
    rw [entitySubs_clear]
    split
    · rfl
    · exact hgone
  · exact h.grown
  · rw [hlist, List.length_append, htake]
    exact Nat.le_add_right _ _

/-- The handler of an entry, from its call to its return. -/
theorem Inv.call (h : Inv t₀ index post u u.i none)
    (hget : (u.table.systemSubs post index)[u.i]? = some sub)
    (hregistered : u.table.entitySubs sub.id ≠ none) (call : Call E) :
    Inv t₀ index post (u.call sub call) (u.i + 1) (some sub) :=
  (h.ran _ hget hregistered).handler call.ops

/-- A handler may add to the list, but leaves what is in it. -/
theorem prefix_handler (u : Update E) (ops : List (Op E)) (index : ℕ) (post : Bool) :
    u.table.systemSubs post index <+: (ops.foldl Update.applyOp u).table.systemSubs post index := by
  induction ops generalizing u with
  | nil => exact List.prefix_rfl
  | cons op ops ih =>
    refine List.IsPrefix.trans ?_ (ih (u.applyOp op))
    rcases applyOp_cases u op with hsame | ⟨sub, -, hadd⟩ | ⟨index', post', once, -, hadd⟩ | ⟨id, -, hclear⟩
    · simp only [hsame, List.prefix_rfl]
    · simp only [hadd, systemSubs_add, List.prefix_rfl]
    · rw [hadd]
      show _ <+: (u.table.setList index' post' _).systemSubs post index
      rw [systemSubs_setList]
      split
      · next hsame =>
        rw [hsame.1, hsame.2]
        exact List.prefix_append _ _
      · exact List.prefix_rfl
    · rw [hclear]
      exact List.prefix_rfl

/-- A handler does not move its own entry. -/
theorem get_call (hget : (u.table.systemSubs post index)[u.i]? = some sub) (call : Call E) :
    ((u.call sub call).table.systemSubs post index)[u.i]? = some sub := by
  have hstart : u.table.systemSubs post index <+: (u.call sub call).table.systemSubs post index :=
    prefix_handler { u with calls := u.calls + 1, log := u.log ++ [.ran sub] } call.ops index post
  obtain ⟨hlt, heq⟩ := List.getElem?_eq_some_iff.mp hget
  obtain ⟨more, hmore⟩ := hstart
  rw [← hmore, List.getElem?_append_left hlt]
  exact hget

/-- A round that does not raise keeps what holds. -/
theorem Inv.round (h : Inv t₀ index post u u.i none) (hrunning : u.status = .running)
    (hraised : (SystemUpdate.round index post calls u).status ≠ .raised) :
    Inv t₀ index post (SystemUpdate.round index post calls u)
      (SystemUpdate.round index post calls u).i none := by
  rcases round_cases index post calls hrunning with
    ⟨-, hend⟩ | ⟨sub, hget, ⟨hgone, hskip⟩ | ⟨-, -, hraise⟩ | ⟨hlive, -, honce, hspend⟩ | ⟨hlive, -, honce, hnext⟩⟩
  · rw [hend]
    exact { h with }
  · rw [hskip]
    exact h.remove rfl hget hgone
  · rw [hraise] at hraised
    exact absurd rfl hraised
  · rw [hspend]
    have hcall := h.call hget hlive (calls u.calls)
    obtain ⟨hi, -, -⟩ := frame_call u sub (calls u.calls)
    have hspent := hcall.spend hi (get_call hget _)
    show Inv _ _ _ _ (u.call sub (calls u.calls)).i _
    rw [hi]
    exact hspent
  · rw [hnext]
    have hcall := h.call hget hlive (calls u.calls)
    obtain ⟨hi, -, -⟩ := frame_call u sub (calls u.calls)
    show Inv _ _ _ _ ((u.call sub (calls u.calls)).i + 1) _
    rw [hi]
    refine { hcall with spent := ?_ }
    intro e he honce'
    left
    apply (hcall.spent e he honce').resolve_right
    intro hopen
    rw [← Option.some.inj hopen, honce] at honce'
    exact absurd honce' nofun

/-! ## The loop -/

variable {k n rounds : ℕ}

/-- One more round. -/
theorem fireSystemUpdate_succ (t : Table E) (index : ℕ) (post : Bool) (calls : ℕ → Call E) (n : ℕ) :
    fireSystemUpdate t index post calls (n + 1) =
      round index post calls (fireSystemUpdate t index post calls n) :=
  Function.iterate_succ_apply' _ _ _

/-- The loop stays ended. -/
theorem round_ended (h : u.status ≠ .running) : round index post calls u = u := by
  unfold round
  rw [if_pos h]

/-- An update that is over stays so. -/
theorem fire_ended (h : (fireSystemUpdate t index post calls n).status ≠ .running) (m : ℕ) :
    fireSystemUpdate t index post calls (n + m) = fireSystemUpdate t index post calls n := by
  induction m with
  | zero => rfl
  | succ m ih =>
    rw [← Nat.add_assoc, fireSystemUpdate_succ, ih, round_ended h]

/-- A round makes at most one call, and raises just if that call does. -/
theorem calls_round (index : ℕ) (post : Bool) (calls : ℕ → Call E) (hrunning : u.status = .running) :
    ((round index post calls u).calls = u.calls ∧ (round index post calls u).status ≠ .raised) ∨
      ((round index post calls u).calls = u.calls + 1 ∧
        ((round index post calls u).status = .raised ↔ (calls u.calls).raises = true) ∧
        ((round index post calls u).status ≠ .returned)) := by
  rcases round_cases index post calls hrunning with
    ⟨-, hend⟩ | ⟨sub, -, ⟨-, hskip⟩ | ⟨-, hraises, hraise⟩ | ⟨-, hraises, -, hspend⟩ | ⟨-, hraises, -, hnext⟩⟩
  · rw [hend]
    exact Or.inl ⟨rfl, nofun⟩
  · rw [hskip]
    left
    refine ⟨rfl, ?_⟩
    show u.status ≠ .raised
    rw [hrunning]
    exact nofun
  · obtain ⟨-, hcalls, -⟩ := frame_call u sub (calls u.calls)
    rw [hraise]
    exact Or.inr ⟨hcalls, ⟨fun _ => hraises, fun _ => rfl⟩, nofun⟩
  · obtain ⟨-, hcalls, hstatus⟩ := frame_call u sub (calls u.calls)
    rw [hspend]
    right
    refine ⟨hcalls, ?_, ?_⟩
    · show (u.call sub (calls u.calls)).status = .raised ↔ _
      rw [hstatus, hrunning, hraises]
      simp
    · show (u.call sub (calls u.calls)).status ≠ .returned
      rw [hstatus, hrunning]
      exact nofun
  · obtain ⟨-, hcalls, hstatus⟩ := frame_call u sub (calls u.calls)
    rw [hnext]
    right
    refine ⟨hcalls, ?_, ?_⟩
    · show (u.call sub (calls u.calls)).status = .raised ↔ _
      rw [hstatus, hrunning, hraises]
      simp
    · show (u.call sub (calls u.calls)).status ≠ .returned
      rw [hstatus, hrunning]
      exact nofun

/-- The calls are counted up. -/
theorem calls_le_round : u.calls ≤ (round index post calls u).calls := by
  by_cases hrunning : u.status = .running
  · rcases calls_round index post calls hrunning with ⟨heq, -⟩ | ⟨heq, -⟩
    · exact heq.ge
    · rw [heq]
      exact Nat.le_succ _
  · rw [round_ended hrunning]

/-- The update comes to a call of a handler. -/
def Made (t : Table E) (index : ℕ) (post : Bool) (calls : ℕ → Call E) (k : ℕ) : Prop :=
  ∃ rounds, k < (fireSystemUpdate t index post calls rounds).calls

/-- A call that is made is made in some round. -/
theorem Made.round (h : Made t index post calls k) :
    ∃ n, (fireSystemUpdate t index post calls n).status = .running ∧
      (fireSystemUpdate t index post calls n).calls = k ∧
      (fireSystemUpdate t index post calls (n + 1)).calls = k + 1 := by
  obtain ⟨rounds, hlt⟩ := h
  induction rounds with
  | zero => exact absurd hlt (Nat.not_lt_zero k)
  | succ rounds ih =>
    by_cases hbefore : k < (fireSystemUpdate t index post calls rounds).calls
    · exact ih hbefore
    · have hrunning : (fireSystemUpdate t index post calls rounds).status = .running := by
        by_contra hended
        rw [fireSystemUpdate_succ, round_ended hended] at hlt
        exact hbefore hlt
      have hnext := fireSystemUpdate_succ t index post calls rounds
      rcases calls_round index post calls hrunning with ⟨heq, -⟩ | ⟨heq, -⟩
      · rw [hnext, heq] at hlt
        exact absurd hlt hbefore
      · rw [hnext, heq] at hlt
        refine ⟨rounds, hrunning, by omega, ?_⟩
        rw [hnext, heq]
        omega

/-! ## The list -/

/-- How much of the list lies behind the position. -/
def Update.ahead (u : Update E) (index : ℕ) (post : Bool) : ℕ :=
  (u.table.systemSubs post index).length - u.i

/-- A handler that does not subscribe to the system leaves the list. -/
theorem list_handler (ops : List (Op E)) (u : Update E)
    (hops : ∀ op ∈ ops, op.system ≠ some (index, post)) :
    (ops.foldl Update.applyOp u).table.systemSubs post index = u.table.systemSubs post index := by
  induction ops generalizing u with
  | nil => rfl
  | cons op ops ih =>
    refine (ih (u.applyOp op) fun op' hop' => hops op' (List.mem_cons_of_mem _ hop')).trans ?_
    rcases applyOp_cases u op with hsame | ⟨sub, -, hadd⟩ | ⟨index', post', once, rfl, hadd⟩ | ⟨id, -, hclear⟩
    · rw [hsame]
    · rw [hadd]
      rfl
    · rw [hadd]
      show (u.table.setList index' post' _).systemSubs post index = _
      rw [systemSubs_setList, if_neg]
      rintro ⟨rfl, rfl⟩
      exact hops _ List.mem_cons_self rfl
    · rw [hclear]
      rfl

/-- A round ends the loop, or comes closer to the end of the list, or makes a call; a call that
does not subscribe to the system comes closer, too. -/
theorem round_ahead (hrunning : u.status = .running)
    (hraised : (round index post calls u).status ≠ .raised) :
    (round index post calls u).status = .returned ∨
      ((round index post calls u).status = .running ∧
        (((round index post calls u).calls = u.calls ∧
          (round index post calls u).ahead index post < u.ahead index post) ∨
        ((round index post calls u).calls = u.calls + 1 ∧
          ((∀ op ∈ (calls u.calls).ops, op.system ≠ some (index, post)) →
            (round index post calls u).ahead index post < u.ahead index post)))) := by
  rcases round_cases index post calls hrunning with
    ⟨-, hend⟩ | ⟨sub, hget, ⟨-, hskip⟩ | ⟨-, -, hraise⟩ | ⟨-, -, -, hspend⟩ | ⟨-, -, -, hnext⟩⟩
  · rw [hend]
    exact Or.inl rfl
  -- a subscription that is gone: its entry is erased, and the round calls nobody
  · rw [hskip]
    right
    obtain ⟨hlt, -⟩ := List.getElem?_eq_some_iff.mp hget
    refine ⟨hrunning, Or.inl ⟨rfl, ?_⟩⟩
    unfold Update.ahead Update.remove
    dsimp only
    rw [systemSubs_setList, if_pos ⟨rfl, rfl⟩, List.length_eraseIdx_of_lt hlt]
    omega
  · rw [hraise] at hraised
    exact absurd rfl hraised
  · obtain ⟨hi, hcalls, hstatus⟩ := frame_call u sub (calls u.calls)
    obtain ⟨hlt, -⟩ := List.getElem?_eq_some_iff.mp (get_call hget (calls u.calls))
    -- a one-shot: its entry is erased after the call
    rw [hspend]
    right
    refine ⟨hstatus.trans hrunning, Or.inr ⟨hcalls, ?_⟩⟩
    intro hops
    have hlist : (u.call sub (calls u.calls)).table.systemSubs post index =
        u.table.systemSubs post index := list_handler (calls u.calls).ops _ hops
    unfold Update.ahead Update.remove
    dsimp only
    rw [systemSubs_setList, if_pos ⟨rfl, rfl⟩, systemSubs_clear, hi, List.length_eraseIdx_of_lt hlt, hlist]
    rw [hlist] at hlt
    omega
  · obtain ⟨hi, hcalls, hstatus⟩ := frame_call u sub (calls u.calls)
    obtain ⟨hlt, -⟩ := List.getElem?_eq_some_iff.mp hget
    -- the position moves past the entry
    rw [hnext]
    right
    refine ⟨hstatus.trans hrunning, Or.inr ⟨hcalls, ?_⟩⟩
    intro hops
    have hlist : (u.call sub (calls u.calls)).table.systemSubs post index =
        u.table.systemSubs post index := list_handler (calls u.calls).ops _ hops
    unfold Update.ahead
    dsimp only
    rw [hi, hlist]
    omega

/-- After any number of rounds the update is right. -/
theorem Inv.fire (index : ℕ) (post : Bool) (calls : ℕ → Call E) (h : Listed t) (n : ℕ)
    (hraised : (fireSystemUpdate t index post calls n).status ≠ .raised) :
    Inv t index post (fireSystemUpdate t index post calls n)
      (fireSystemUpdate t index post calls n).i none := by
  induction n with
  | zero => exact Inv.start h
  | succ n ih =>
    by_cases hrunning : (fireSystemUpdate t index post calls n).status = .running
    · rw [fireSystemUpdate_succ] at hraised ⊢
      exact (ih (by rw [hrunning]; exact nofun)).round hrunning hraised
    · have hsame := fire_ended hrunning 1
      rw [hsame] at hraised ⊢
      exact ih hraised

/-- A round returns at the end of the list, and does nothing else. -/
theorem round_returned (hrunning : u.status = .running)
    (h : (round index post calls u).status = .returned) :
    (u.table.systemSubs post index)[u.i]? = none ∧
      round index post calls u = { u with status := .returned } := by
  rcases round_cases index post calls hrunning with
    hend | ⟨sub, -, ⟨-, hskip⟩ | ⟨-, -, hraise⟩ | ⟨-, -, -, hspend⟩ | ⟨-, -, -, hnext⟩⟩
  · exact hend
  · rw [hskip] at h
    exact absurd (hrunning.symm.trans h) nofun
  · rw [hraise] at h
    exact absurd h nofun
  · rw [hspend] at h
    have hstatus := (frame_call u sub (calls u.calls)).2.2
    exact absurd (hrunning.symm.trans (hstatus.symm.trans h)) nofun
  · rw [hnext] at h
    have hstatus := (frame_call u sub (calls u.calls)).2.2
    exact absurd (hrunning.symm.trans (hstatus.symm.trans h)) nofun

/-- A round that makes a call makes that of the entry at the position. -/
theorem live_of_called (hrunning : u.status = .running)
    (h : (round index post calls u).calls = u.calls + 1) :
    ∃ sub, (u.table.systemSubs post index)[u.i]? = some sub ∧ u.table.entitySubs sub.id ≠ none := by
  rcases round_cases index post calls hrunning with
    ⟨-, hend⟩ | ⟨sub, hget, ⟨-, hskip⟩ | ⟨hlive, -⟩ | ⟨hlive, -⟩ | ⟨hlive, -⟩⟩
  · rw [hend] at h
    exact absurd h (Nat.succ_ne_self _).symm
  · rw [hskip] at h
    exact absurd h (Nat.succ_ne_self _).symm
  · exact ⟨sub, hget, hlive⟩
  · exact ⟨sub, hget, hlive⟩
  · exact ⟨sub, hget, hlive⟩

/-- The loop returns at the end of the list. -/
theorem end_of_returned (h : (fireSystemUpdate t index post calls n).status = .returned) :
    (fireSystemUpdate t index post calls n).table.systemSubs post index
      = ((fireSystemUpdate t index post calls n).table.systemSubs post index).take
        (fireSystemUpdate t index post calls n).i := by
  induction n with
  | zero => exact absurd h nofun
  | succ n ih =>
    by_cases hrunning : (fireSystemUpdate t index post calls n).status = .running
    · rw [fireSystemUpdate_succ] at h ⊢
      obtain ⟨hnone, hend⟩ := round_returned hrunning h
      rw [hend]
      exact (List.take_of_length_le (List.getElem?_eq_none_iff.mp hnone)).symm
    · have hsame := fire_ended hrunning 1
      rw [hsame] at h ⊢
      exact ih h

/-! ## Turns -/

/-- Both tables have the same subscriptions from an id on, and the same id for the next one. -/
structure Agree (c : ℕ) (t t' : Table E) : Prop where
  nextSub : t.nextSub = t'.nextSub
  subs : ∀ id, c ≤ id → t.entitySubs id = t'.entitySubs id

section Agree

variable {t' : Table E} {c : ℕ}

/-- Tables that agree from an id on agree from a later one on. -/
theorem Agree.mono (h : Agree c t t') {c' : ℕ} (hle : c ≤ c') : Agree c' t t' :=
  ⟨h.nextSub, fun id hid => h.subs id (hle.trans hid)⟩

/-- The subscribers are the same from there on. -/
theorem Agree.registered (h : Agree c t t') {id : ℕ} (hid : c ≤ id) :
    Registered t index post id ↔ Registered t' index post id := by
  unfold Registered
  rw [h.subs id hid]

/-- A new subscription gets the same id in both. -/
theorem Agree.add (h : Agree c t t') (sub : Subscription E) : Agree c (t.add sub) (t'.add sub) := by
  refine ⟨congrArg (· + 1) h.nextSub, ?_⟩
  intro id hid
  rw [entitySubs_add, entitySubs_add, h.nextSub, h.subs id hid]

/-- What lies before does not show in a clearing either. -/
theorem Agree.clear (h : Agree c t t') (id : ℕ) : Agree c (t.clear id) (t'.clear id) := by
  refine ⟨h.nextSub, ?_⟩
  intro id' hid'
  rw [entitySubs_clear, entitySubs_clear, h.subs id' hid']

/-- An operation does the same to both tables. -/
theorem Agree.apply (h : Agree c t t') (op : Op E) : Agree c (op.apply t) (op.apply t') := by
  cases op with
  | subscribe watch kind component entity once flags =>
    show Agree c (t.subscribe watch kind component entity once flags)
      (t'.subscribe watch kind component entity once flags)
    unfold Table.subscribe
    cases watchedKind watch kind with
    | none => exact h
    | some kind => exact h.add _
  | subscribeSystem index post once =>
    cases index with
    | none => exact h
    | some index =>
      -- the lists play no part in who is registered
      have hlists : Agree c (t.setList index post (t.systemSubs post index ++ [⟨t.nextSub, once⟩]))
          (t'.setList index post (t'.systemSubs post index ++ [⟨t'.nextSub, once⟩])) :=
        ⟨h.nextSub, h.subs⟩
      exact hlists.add _
  | unsubscribe id =>
    show Agree c (t.unsubscribe id).1 (t'.unsubscribe id).1
    rw [unsubscribe_eq, unsubscribe_eq]
    exact h.clear id

/-- So does a handler. -/
theorem Agree.handler (h : Agree c t t') (ops : List (Op E)) :
    Agree c (ops.foldl Op.apply t) (ops.foldl Op.apply t') := by
  induction ops generalizing t t' with
  | nil => exact h
  | cons op ops ih => exact ih (h.apply op)

end Agree

/-- A handler changes the table by its operations. -/
theorem table_handler (u : Update E) (ops : List (Op E)) :
    (ops.foldl Update.applyOp u).table = ops.foldl Op.apply u.table := by
  induction ops generalizing u with
  | nil => rfl
  | cons op ops ih => exact ih (u.applyOp op)

/-- A handler calls no other one. -/
theorem ran_handler (u : Update E) (ops : List (Op E)) :
    .ran sub ∈ (ops.foldl Update.applyOp u).log ↔ .ran sub ∈ u.log := by
  induction ops generalizing u with
  | nil => exact Iff.rfl
  | cons op ops ih =>
    refine (ih (u.applyOp op)).trans ?_
    rcases applyOp_cases u op with hsame | ⟨sub, -, hadd⟩ | ⟨index, post, once, -, hadd⟩ | ⟨id, -, hclear⟩
    · rw [hsame]
    · rw [hadd]
    · rw [hadd]
    · rw [hclear]
      simp

/-- A call is the turn of one subscriber. -/
theorem Turn.unique {id id' : ℕ} (h : Turn t index post calls k id) (h' : Turn t index post calls k id') :
    id = id' := by
  induction h generalizing id' with
  | first hleast =>
    cases h' with
    | first hleast' => exact hleast.unique hleast'
  | next _ _ hleast ih =>
    cases h' with
    | next hturn _ hleast' =>
      obtain rfl := ih hturn
      exact hleast.unique hleast'

/-- The least id that may have the next turn, when some calls have been made. -/
def Floor (t : Table E) (index : ℕ) (post : Bool) (calls : ℕ → Call E) : ℕ → ℕ → Prop
  | 0, c => c = 0
  | k + 1, c => ∃ id, Turn t index post calls k id ∧ (calls k).raises = false ∧ c = id + 1

/-- The turn is that of the first subscriber from there on. -/
theorem turn_iff {id : ℕ} : Turn t index post calls k id ↔ ∃ c, Floor t index post calls k c ∧
    IsLeast {id | c ≤ id ∧ Registered (tableAfter t calls k) index post id} id := by
  constructor
  · intro h
    cases h with
    | first hleast => exact ⟨0, rfl, by simpa [tableAfter] using hleast⟩
    | next hturn hquiet hleast => exact ⟨_, ⟨_, hturn, hquiet, rfl⟩, hleast⟩
  · rintro ⟨c, hfloor, hleast⟩
    cases k with
    | zero =>
      obtain rfl : c = 0 := hfloor
      exact .first (by simpa [tableAfter] using hleast)
    | succ k =>
      obtain ⟨id', hturn, hquiet, rfl⟩ := hfloor
      exact .next hturn hquiet hleast

/-- After a call there was a turn before. -/
theorem Floor.before {c : ℕ} (h : Floor t index post calls (k + 1) c) :
    ∃ id, Turn t index post calls k id ∧ (calls k).raises = false ∧ c = id + 1 := h

/-- So the id to go on at is one. -/
theorem Floor.unique {c c' : ℕ} (h : Floor t index post calls k c) (h' : Floor t index post calls k c') :
    c = c' := by
  cases k with
  | zero => exact Eq.trans h (Eq.symm h')
  | succ k =>
    obtain ⟨id, hturn, -, rfl⟩ := h
    obtain ⟨id', hturn', -, rfl⟩ := h'
    rw [hturn.unique hturn']

/-- The update has made its calls in turn, and is to go on at an id. -/
structure Follows (t : Table E) (index : ℕ) (post : Bool) (calls : ℕ → Call E) (u : Update E)
    (c : ℕ) : Prop where
  floor : Floor t index post calls u.calls c
  agree : Agree c u.table (tableAfter t calls u.calls)
  ran_lt : ∀ sub, .ran sub ∈ u.log → sub.id < c
  last : c = 0 ∨ ∃ sub, .ran sub ∈ u.log ∧ c = sub.id + 1

section Follows

variable {c : ℕ}

/-- What lies behind the position was not called yet. -/
theorem Follows.le_ahead (h : Follows t index post calls u c) (hinv : Inv t index post u i none)
    {e : SystemSub} (he : e ∈ (u.table.systemSubs post index).drop i) : c ≤ e.id := by
  rcases h.last with rfl | ⟨sub, hran, rfl⟩
  · exact Nat.zero_le _
  · exact hinv.ahead sub hran e he

/-- A subscriber that is to have a turn yet lies behind the position. -/
theorem Follows.mem_ahead (h : Follows t index post calls u c) (hinv : Inv t index post u i none)
    {id : ℕ} (hid : c ≤ id) (hregistered : Registered u.table index post id) :
    ∃ e ∈ (u.table.systemSubs post index).drop i, e.id = id := by
  obtain ⟨e, he, rfl⟩ := hinv.listed post index id hregistered
  rw [← List.take_append_drop i (u.table.systemSubs post index)] at he
  rcases List.mem_append.mp he with hpassed | hahead
  · exact absurd (h.ran_lt e (hinv.passed e hpassed).1) (Nat.not_lt.mpr hid)
  · exact ⟨e, hahead, rfl⟩

/-- The handler that is called is the one whose turn it is. -/
theorem Follows.turn (h : Follows t index post calls u c) (hinv : Inv t index post u i none)
    (hget : (u.table.systemSubs post index)[i]? = some sub)
    (hlive : u.table.entitySubs sub.id ≠ none) : Turn t index post calls u.calls sub.id := by
  have hdrop := drop_of_get hget
  have hle : c ≤ sub.id := h.le_ahead hinv (hdrop ▸ List.mem_cons_self)
  have hregistered := hinv.own post index sub (List.mem_of_getElem? hget) hlive
  rw [turn_iff]
  refine ⟨c, h.floor, ⟨hle, (h.agree.registered hle).mp hregistered⟩, ?_⟩
  rintro id ⟨hid, hlater⟩
  obtain ⟨e, he, rfl⟩ := h.mem_ahead hinv hid ((h.agree.registered hid).mpr hlater)
  have hsorted := (hinv.sorted post index).sublist (List.drop_sublist i _)
  rw [hdrop] at he hsorted
  rcases List.mem_cons.mp he with rfl | hrest
  · exact le_rfl
  · exact ((List.pairwise_cons.mp hsorted).1 e hrest).le

/-- Its call leaves the update to go on behind it. -/
theorem Follows.call (h : Follows t index post calls u c)
    (hturn : Turn t index post calls u.calls sub.id) (hle : c ≤ sub.id)
    (hquiet : (calls u.calls).raises = false) :
    Follows t index post calls (u.call sub (calls u.calls)) (sub.id + 1) := by
  obtain ⟨-, hcalls, -⟩ := frame_call u sub (calls u.calls)
  have hran (e : SystemSub) : .ran e ∈ (u.call sub (calls u.calls)).log ↔ .ran e ∈ u.log ∨ e = sub := by
    refine (ran_handler _ _).trans ?_
    simp
  refine ⟨?_, ?_, ?_, Or.inr ⟨sub, (hran sub).mpr (Or.inr rfl), rfl⟩⟩
  · rw [hcalls]
    exact ⟨sub.id, hturn, hquiet, rfl⟩
  · rw [hcalls]
    have htable : (u.call sub (calls u.calls)).table = (calls u.calls).ops.foldl Op.apply u.table :=
      table_handler _ _
    rw [htable]
    exact (h.agree.handler _).mono (Nat.le_succ_of_le hle)
  · intro e he
    rcases (hran e).mp he with hbefore | rfl
    · exact Nat.lt_succ_of_lt ((h.ran_lt e hbefore).trans_le hle)
    · exact Nat.lt_succ_self _

/-- As long as it runs, the update makes its calls in turn. -/
theorem Follows.fire (h : Listed t) (n : ℕ)
    (hrunning : (fireSystemUpdate t index post calls n).status = .running) :
    ∃ c, Follows t index post calls (fireSystemUpdate t index post calls n) c := by
  induction n with
  | zero => exact ⟨0, rfl, ⟨rfl, fun _ _ => rfl⟩, fun _ h => absurd h List.not_mem_nil, Or.inl rfl⟩
  | succ n ih =>
    by_cases hbefore : (fireSystemUpdate t index post calls n).status = .running
    · obtain ⟨c, hfollows⟩ := ih hbefore
      have hinv := Inv.fire index post calls h n (by rw [hbefore]; exact nofun)
      rw [fireSystemUpdate_succ] at hrunning ⊢
      generalize fireSystemUpdate t index post calls n = u at *
      have hcall {sub : SystemSub} (hget : (u.table.systemSubs post index)[u.i]? = some sub)
          (hlive : u.table.entitySubs sub.id ≠ none) (hquiet : (calls u.calls).raises = false) :
          Follows t index post calls (u.call sub (calls u.calls)) (sub.id + 1) :=
        hfollows.call (hfollows.turn hinv hget hlive)
          (hfollows.le_ahead hinv (drop_of_get hget ▸ List.mem_cons_self)) hquiet
      rcases round_cases index post calls hbefore with
        ⟨-, hend⟩ | ⟨sub, hget, ⟨-, hskip⟩ | ⟨-, -, hraise⟩ | ⟨hlive, hquiet, -, hspend⟩ |
          ⟨hlive, hquiet, -, hnext⟩⟩
      · rw [hend] at hrunning
        exact absurd hrunning nofun
      · rw [hskip]
        exact ⟨c, hfollows.floor, ⟨hfollows.agree.nextSub, hfollows.agree.subs⟩, hfollows.ran_lt,
          hfollows.last⟩
      · rw [hraise] at hrunning
        exact absurd hrunning nofun
      -- the spent subscriber lies before the id to go on at
      · have hcalled := hcall hget hlive hquiet
        rw [hspend]
        refine ⟨sub.id + 1, hcalled.floor, ⟨hcalled.agree.nextSub, ?_⟩, hcalled.ran_lt, hcalled.last⟩
        intro id hid
        have hne : id ≠ sub.id := by omega
        show ((u.call sub (calls u.calls)).table.clear sub.id).entitySubs id = _
        rw [entitySubs_clear, if_neg hne]
        exact hcalled.agree.subs id hid
      · have hcalled := hcall hget hlive hquiet
        rw [hnext]
        exact ⟨sub.id + 1, hcalled.floor, hcalled.agree, hcalled.ran_lt, hcalled.last⟩
    · rw [fire_ended hbefore 1] at hrunning
      exact absurd hrunning hbefore

end Follows

/-- While someone is to have a turn, the update comes to a call. -/
theorem made_of_registered (h : Listed t) {c id : ℕ}
    (hrunning : (fireSystemUpdate t index post calls n).status = .running)
    (hfloor : Floor t index post calls (fireSystemUpdate t index post calls n).calls c) (hid : c ≤ id)
    (hregistered : Registered (tableAfter t calls (fireSystemUpdate t index post calls n).calls)
      index post id) :
    Made t index post calls (fireSystemUpdate t index post calls n).calls := by
  -- by the length of what lies behind the position, which a round without a call takes down
  induction hahead : (fireSystemUpdate t index post calls n).ahead index post using Nat.strong_induction_on
    generalizing n with
  | _ ahead ih =>
    subst hahead
    have hsucc := fireSystemUpdate_succ t index post calls n
    rcases calls_round index post calls hrunning with ⟨hcalls, hquiet⟩ | ⟨hcalls, -⟩
    · rw [← hsucc] at hcalls hquiet
      obtain ⟨c', hfollows⟩ := Follows.fire h n hrunning
      obtain rfl := hfollows.floor.unique hfloor
      rcases round_ahead hrunning (hsucc ▸ hquiet) with hreturned | ⟨hstill, ⟨-, hless⟩ | ⟨hmore, -⟩⟩
      · obtain ⟨hnone, -⟩ := round_returned hrunning hreturned
        have hinv := Inv.fire index post calls h n (by rw [hrunning]; exact nofun)
        obtain ⟨e, he, -⟩ :=
          hfollows.mem_ahead hinv hid ((hfollows.agree.registered hid).mpr hregistered)
        rw [List.drop_eq_nil_of_le (List.getElem?_eq_none_iff.mp hnone)] at he
        exact absurd he List.not_mem_nil
      · rw [← hsucc] at hstill hless
        rw [← hcalls] at hfloor hregistered ⊢
        exact ih _ hless hstill hfloor hregistered rfl
      · rw [← hsucc] at hmore
        omega
    · exact ⟨n + 1, by rw [hsucc, hcalls]; exact Nat.lt_succ_self _⟩

/-- The update comes to the calls that are someone's turn. -/
theorem made_iff_turn (h : Listed t) :
    Made t index post calls k ↔ ∃ id, Turn t index post calls k id := by
  constructor
  · intro hmade
    obtain ⟨n, hrunning, rfl, hnext⟩ := Made.round hmade
    obtain ⟨c, hfollows⟩ := Follows.fire h n hrunning
    have hinv := Inv.fire index post calls h n (by rw [hrunning]; exact nofun)
    rw [fireSystemUpdate_succ] at hnext
    obtain ⟨sub, hget, hlive⟩ := live_of_called hrunning hnext
    exact ⟨sub.id, hfollows.turn hinv hget hlive⟩
  · rintro ⟨id, hturn⟩
    induction k generalizing id with
    | zero =>
      obtain ⟨c, hfloor, ⟨hid, hregistered⟩, -⟩ := turn_iff.mp hturn
      exact made_of_registered (n := 0) h rfl hfloor hid hregistered
    | succ k ih =>
      obtain ⟨c, hfloor, ⟨hid, hregistered⟩, -⟩ := turn_iff.mp hturn
      obtain ⟨id', hturn', hquiet, -⟩ := hfloor.before
      obtain ⟨n, hrunning, rfl, hnext⟩ := Made.round (ih id' hturn')
      -- the handler before did not raise, so the update runs on
      have hstill : (fireSystemUpdate t index post calls (n + 1)).status = .running := by
        rw [fireSystemUpdate_succ] at hnext ⊢
        rcases calls_round index post calls hrunning with ⟨heq, -⟩ | ⟨-, hraised, hreturned⟩
        · omega
        · cases hstatus : (round index post calls (fireSystemUpdate t index post calls n)).status with
          | running => rfl
          | returned => exact absurd hstatus hreturned
          | raised => exact absurd ((hraised.mp hstatus).symm.trans hquiet) nofun
      rw [← hnext] at hfloor hregistered ⊢
      exact made_of_registered h hstill hfloor hid hregistered

/-! ## Termination -/

/-- An update that returned settles: the calls were finitely many, and none of them raised. -/
theorem settles_of_returned (hlisted : Listed t)
    (h : (fireSystemUpdate t index post calls n).status = .returned) : Settles t index post calls := by
  have hended : (fireSystemUpdate t index post calls n).status ≠ .running := by
    rw [h]
    exact nofun
  -- an update ends once, so no round of this one raised
  have hbefore {m : ℕ} (hm : (fireSystemUpdate t index post calls m).status ≠ .running)
      (hm' : (fireSystemUpdate t index post calls m).status ≠ .returned) : False := by
    rcases Nat.le_total m n with hle | hle
    · obtain ⟨d, rfl⟩ := Nat.exists_eq_add_of_le hle
      rw [fire_ended hm] at h
      exact hm' h
    · obtain ⟨d, rfl⟩ := Nat.exists_eq_add_of_le hle
      rw [fire_ended hended] at hm'
      exact hm' h
  constructor
  · intro k id hturn
    obtain ⟨m, hrunning, hcalls, hnext⟩ := Made.round ((made_iff_turn hlisted).mpr ⟨id, hturn⟩)
    rw [fireSystemUpdate_succ] at hnext
    rcases calls_round index post calls hrunning with ⟨heq, -⟩ | ⟨-, hraised, -⟩
    · omega
    · rw [hcalls] at hraised
      by_contra hraises
      have hstatus := hraised.mpr (by simpa using hraises)
      rw [← fireSystemUpdate_succ] at hstatus
      exact hbefore (by rw [hstatus]; exact nofun) (by rw [hstatus]; exact nofun)
  · refine ⟨(fireSystemUpdate t index post calls n).calls, ?_⟩
    intro k id hk hturn
    obtain ⟨m, hlt⟩ := (made_iff_turn hlisted).mpr ⟨id, hturn⟩
    -- no call is made after the end, so none beyond the calls made then
    have hmore (d : ℕ) : (fireSystemUpdate t index post calls m).calls ≤
        (fireSystemUpdate t index post calls (m + d)).calls := by
      induction d with
      | zero => exact le_rfl
      | succ d ih =>
        rw [← Nat.add_assoc, fireSystemUpdate_succ]
        exact ih.trans calls_le_round
    have hsame := fire_ended hended m
    have hle := hmore n
    rw [Nat.add_comm, hsame] at hle
    omega

/-- What a round takes down: the calls that may still subscribe, and for each number of them how
much of the list lies ahead. -/
def Update.left (u : Update E) (index : ℕ) (post : Bool) (last : ℕ) : ℕ × ℕ :=
  (last - u.calls, u.ahead index post)

/-- When no call subscribes any more, each round leaves less of the list. -/
theorem settling_round (hquiet : ∀ k, Made t index post calls k → (calls k).raises = false) {last : ℕ}
    (hlast : ∀ k, last ≤ k → Made t index post calls k →
      ∀ op ∈ (calls k).ops, op.system ≠ some (index, post))
    (hrunning : (fireSystemUpdate t index post calls n).status = .running) :
    (fireSystemUpdate t index post calls (n + 1)).status = .returned ∨
      ((fireSystemUpdate t index post calls (n + 1)).status = .running ∧
        Prod.Lex (· < ·) (· < ·) ((fireSystemUpdate t index post calls (n + 1)).left index post last)
          ((fireSystemUpdate t index post calls n).left index post last)) := by
  have hnext := fireSystemUpdate_succ t index post calls n
  have hmade (hcalls : (fireSystemUpdate t index post calls (n + 1)).calls =
      (fireSystemUpdate t index post calls n).calls + 1) :
      Made t index post calls (fireSystemUpdate t index post calls n).calls :=
    ⟨n + 1, by omega⟩
  have hraised : (fireSystemUpdate t index post calls (n + 1)).status ≠ .raised := by
    intro hraised
    rw [hnext] at hraised hmade
    rcases calls_round index post calls hrunning with ⟨-, hnot⟩ | ⟨heq, hiff, -⟩
    · exact hnot hraised
    · have hraises := hiff.mp hraised
      rw [hquiet _ (hmade heq)] at hraises
      exact absurd hraises nofun
  rw [hnext] at hraised hmade ⊢
  rcases round_ahead hrunning hraised with hreturned | ⟨hstill, ⟨hcalls, hahead⟩ | ⟨hcalls, hahead⟩⟩
  · exact Or.inl hreturned
  -- either the list left to go through shrinks, or a call is made
  · right
    refine ⟨hstill, ?_⟩
    unfold Update.left
    rw [hcalls]
    exact Prod.Lex.right _ hahead
  · right
    refine ⟨hstill, ?_⟩
    unfold Update.left
    rw [hcalls]
    -- after the last subscription a call leaves less of the list
    by_cases hearly : (fireSystemUpdate t index post calls n).calls < last
    · exact Prod.Lex.left _ _ (by omega)
    · have hless := hahead (hlast _ (Nat.not_lt.mp hearly) (hmade hcalls))
      rw [Nat.sub_eq_zero_of_le (Nat.not_lt.mp hearly),
        Nat.sub_eq_zero_of_le (Nat.le_succ_of_le (Nat.not_lt.mp hearly))]
      exact Prod.Lex.right _ hless

/-- What settles does so in the calls that the update comes to. -/
theorem Settles.made (h : Settles t index post calls) (hlisted : Listed t) :
    (∀ k, Made t index post calls k → (calls k).raises = false) ∧
      ∃ last, ∀ k, last ≤ k → Made t index post calls k →
        ∀ op ∈ (calls k).ops, op.system ≠ some (index, post) := by
  obtain ⟨hquiet, last, hlast⟩ := h
  constructor
  · intro k hmade
    obtain ⟨id, hturn⟩ := (made_iff_turn hlisted).mp hmade
    exact hquiet k id hturn
  · refine ⟨last, fun k hk hmade => ?_⟩
    obtain ⟨id, hturn⟩ := (made_iff_turn hlisted).mp hmade
    exact hlast k id hk hturn

/-- So the update returns. -/
theorem returned_of_settles (h : Settles t index post calls) (hlisted : Listed t) :
    ∃ n, (fireSystemUpdate t index post calls n).status = .returned := by
  obtain ⟨hquiet, last, hlast⟩ := h.made hlisted
  have hwf := (Prod.lex Nat.lt_wfRel Nat.lt_wfRel).wf
  have hloop (left : ℕ × ℕ) : ∀ n, (fireSystemUpdate t index post calls n).left index post last = left →
      (fireSystemUpdate t index post calls n).status = .running →
      ∃ m, (fireSystemUpdate t index post calls m).status = .returned := by
    induction left using hwf.induction with
    | _ left ih =>
      rintro n rfl hrunning
      rcases settling_round hquiet hlast hrunning with hreturned | ⟨hstill, hless⟩
      · exact ⟨n + 1, hreturned⟩
      · exact ih _ hless (n + 1) rfl hstill
  exact hloop _ 0 rfl rfl

/-! ## Updates and runs -/

/-- An update that returns has done what is expected. -/
theorem done_of_returned (h : Listed t)
    (hreturned : (fireSystemUpdate t index post calls n).status = .returned) :
    Done t index post (fireSystemUpdate t index post calls n) := by
  have hinv := Inv.fire index post calls h n (by
    rw [hreturned]
    exact nofun)
  have hend := end_of_returned hreturned
  constructor
  · exact hinv.right
  · intro id hid
    apply (hinv.served id hid).elim
    · exact fun hserved => hserved
    · intro hregistered
      obtain ⟨sub, hsub, hid'⟩ := hinv.listed post index id hregistered
      rw [hend] at hsub
      exact Or.inl ⟨sub, hid', (hinv.passed sub hsub).1⟩
  · exact fun sub hsub honce => (hinv.spent sub hsub honce).resolve_right nofun
  · exact hinv.sorted post index
  · exact hinv.listed post index
  · intro sub hsub
    have hpassed := hinv.passed sub (hend ▸ hsub)
    exact hpassed.2.imp_left (hinv.own post index sub hsub)

/-- An update returns, with all done, just if it settles. -/
theorem returns_iff (h : Listed t) : Returns t index post calls ↔ Settles t index post calls := by
  constructor
  · rintro ⟨n, hreturned, -⟩
    exact settles_of_returned h hreturned
  · intro hsettles
    obtain ⟨n, hreturned⟩ := returned_of_settles hsettles h
    exact ⟨n, hreturned, done_of_returned h hreturned⟩

/-- An update that settles does not raise. -/
theorem not_raised (h : Settles t index post calls) (hlisted : Listed t) (n : ℕ) :
    (fireSystemUpdate t index post calls n).status ≠ .raised := by
  obtain ⟨hquiet, last, hlast⟩ := h.made hlisted
  induction n with
  | zero => exact nofun
  | succ n ih =>
    by_cases hrunning : (fireSystemUpdate t index post calls n).status = .running
    · rcases settling_round hquiet hlast hrunning with hreturned | ⟨hstill, -⟩
      · rw [hreturned]
        exact nofun
      · rw [hstill]
        exact nofun
    · rw [fire_ended hrunning 1]
      exact ih

theorem mem_entries {log : List Event} : sub ∈ log.filterMap Event.entry ↔ .ran sub ∈ log := by
  rw [List.mem_filterMap]
  constructor
  · rintro ⟨e, he, hentry⟩
    cases e with
    | ran sub' =>
      obtain rfl := Option.some.inj hentry
      exact he
    | unsubscribed id => exact absurd hentry nofun
  · intro h
    exact ⟨_, h, rfl⟩

/-- An update calls no handler twice. -/
theorem nodup_entries {log : List Event} (h : Throughout (Right t index post) log) :
    ((log.filterMap Event.entry).map SystemSub.id).Nodup := by
  induction log using List.reverseRecOn with
  | nil => exact List.nodup_nil
  | append_singleton log e ih =>
    obtain ⟨hlog, hright⟩ := Throughout.concat_iff.mp h
    rw [List.filterMap_append, List.map_append, List.nodup_append]
    cases e with
    | unsubscribed id => exact ⟨ih hlog, List.nodup_nil, fun _ _ _ hid => absurd hid List.not_mem_nil⟩
    | ran sub =>
      refine ⟨ih hlog, List.nodup_singleton _, ?_⟩
      intro id hid id' hid' heq
      obtain ⟨sub', hsub', rfl⟩ := List.mem_map.mp hid
      rw [List.mem_singleton.mp hid'] at heq
      exact hright.1 sub' heq (mem_entries.mp hsub')

/-- A subscription that is gone does not come back. -/
theorem gone_apply {id : ℕ} (op : Op E) (hid : id < t.nextSub) (hnone : t.entitySubs id = none) :
    id < (op.apply t).nextSub ∧ (op.apply t).entitySubs id = none := by
  rcases apply_cases t op with hsame | ⟨sub, -, hadd⟩ | ⟨index, post, once, -, hadd⟩ | ⟨id', -, hclear⟩
  · rw [hsame]
    exact ⟨hid, hnone⟩
  · rw [hadd, entitySubs_add, if_neg hid.ne]
    exact ⟨hid.trans (Nat.lt_succ_self _), hnone⟩
  · rw [hadd, entitySubs_add, nextSub_setList, if_neg hid.ne]
    exact ⟨hid.trans (Nat.lt_succ_self _), hnone⟩
  · rw [hclear, entitySubs_clear]
    refine ⟨hid, ?_⟩
    split
    · rfl
    · exact hnone

/-- What holds along a run: subscribers for one time that were called are gone. -/
structure RunInv (s : State E) : Prop extends Listed s.table where
  spent : ∀ sub ∈ s.ran, sub.once = true →
    sub.id < s.table.nextSub ∧ s.table.entitySubs sub.id = none
  once : OnceEver s

/-- Every update that settles keeps the run right. -/
theorem RunInv.step {s s' : State E} {a : Action E} (h : RunInv s) (hallowed : Allowed s a)
    (hstep : SystemUpdate.step s a = some s') : RunInv s' := by
  cases a with
  | op op =>
    obtain rfl := Option.some.inj hstep
    refine { h.toListed.apply op with spent := ?_, once := h.once }
    intro sub hsub honce
    obtain ⟨hold, hnone⟩ := h.spent sub hsub honce
    exact gone_apply op hold hnone
  | update index post calls rounds =>
    have hinv := Inv.fire _ _ calls h.toListed rounds (not_raised hallowed h.toListed rounds)
    unfold SystemUpdate.step at hstep
    dsimp only at hstep
    split at hstep
    · exact absurd hstep nofun
    · obtain rfl := Option.some.inj hstep
      have hran (sub : SystemSub) (hsub : sub ∈ s.ran) (honce : sub.once = true) :=
        hinv.kept sub.id (h.spent sub hsub honce).1 (h.spent sub hsub honce).2
      refine { hinv.toListed with spent := ?_, once := ?_ }
      · intro sub hsub honce
        rcases List.mem_append.mp hsub with hold | hnew
        · exact ⟨(h.spent sub hold honce).1.trans_le hinv.grown, (hran sub hold honce).1⟩
        · have hlog := mem_entries.mp hnew
          exact ⟨hinv.ran_old sub hlog, (hinv.spent sub hlog honce).resolve_right nofun⟩
      · unfold OnceEver
        rw [List.filter_append, List.map_append, List.nodup_append]
        refine ⟨h.once, ?_, ?_⟩
        · exact (nodup_entries hinv.right).sublist (List.filter_sublist.map _)
        · intro id hid id' hid' heq
          obtain ⟨sub, hsub, rfl⟩ := List.mem_map.mp hid
          obtain ⟨sub', hsub', rfl⟩ := List.mem_map.mp hid'
          obtain ⟨hold, honce⟩ := List.mem_filter.mp hsub
          obtain ⟨hnew, -⟩ := List.mem_filter.mp hsub'
          exact (hran sub hold honce).2 sub' (mem_entries.mp hnew) heq.symm

/-- In every run of updates that settle, a handler for one time is called at most once, and an
update of any system returns with all done just if it settles. -/
theorem returns_of_run {s : State E} {as : List (Action E)} (h : Run step Allowed {} as s) :
    OnceEver s ∧ ∀ index post calls, Returns s.table index post calls ↔ Settles s.table index post calls := by
  have hinv : RunInv s := by
    apply h.invariant
    · exact { Listed.start with spent := fun _ h => absurd h List.not_mem_nil, once := List.nodup_nil }
    · exact fun _ _ _ hinv hallowed hstep => hinv.step hallowed hstep
  exact ⟨hinv.once, fun index post calls => returns_iff hinv.toListed⟩

/-- The first call subscribes a handler for one time behind it, and the others do nothing. -/
def addingCalls : ℕ → Call ℕ
  | 0 => { ops := [.subscribeSystem (some 3) false true] }
  | _ + 1 => {}

/-- The handler that is added has its turn in the same update, and is not called in the next. -/
theorem returns_of_run_demo : ∃ s : State ℕ, Run step Allowed {}
    [.op (.subscribeSystem (some 3) false false), .update 3 false addingCalls 3,
      .update 3 false (fun _ => {}) 2] s ∧ s.ran = [⟨1, false⟩, ⟨2, true⟩, ⟨1, false⟩] ∧
      OnceEver s ∧ ∀ index post calls,
        Returns s.table index post calls ↔ Settles s.table index post calls := by
  have hrun : ∃ s : State ℕ, Run step Allowed {}
      ((([] ++ [.op (.subscribeSystem (some 3) false false)]) ++ [.update 3 false addingCalls 3]) ++
        [.update 3 false (fun _ => {}) 2]) s ∧ s.ran = [⟨1, false⟩, ⟨2, true⟩, ⟨1, false⟩] := by
    refine ⟨_, .step (.step (.step (.refl _) trivial rfl) ⟨?_, 1, ?_⟩ rfl) ⟨?_, 0, ?_⟩ rfl, rfl⟩
    · intro k _ _
      cases k with
      | zero => rfl
      | succ k => rfl
    · intro k _ hlast _ op hop
      obtain ⟨k, rfl⟩ : ∃ n, k = n + 1 := ⟨k - 1, by omega⟩
      exact absurd hop List.not_mem_nil
    · exact fun _ _ _ => rfl
    · exact fun _ _ _ _ _ hop => absurd hop List.not_mem_nil
  obtain ⟨s, hrun, hran⟩ := hrun
  exact ⟨s, hrun, hran, returns_of_run hrun⟩

/-- A handler that subscribes itself again each time it is called. -/
def againCalls : ℕ → Call ℕ := fun _ => { ops := [.subscribeSystem (some 3) false false] }

/-- Each round calls the last entry, and leaves a new one behind it. -/
theorem again_round (n : ℕ) :
    let u := fireSystemUpdate (({} : Table ℕ).subscribeSystem (some 3) false false) 3 false againCalls n
    u.status = .running ∧ u.calls = n ∧ u.i = n ∧ (u.table.systemSubs false 3).length = n + 1 ∧
      ∃ sub, (u.table.systemSubs false 3)[n]? = some sub ∧ u.table.entitySubs sub.id ≠ none ∧
        sub.once = false := by
  induction n with
  | zero => exact ⟨rfl, rfl, rfl, rfl, ⟨1, false⟩, rfl, nofun, rfl⟩
  | succ n ih =>
    rw [fireSystemUpdate_succ]
    generalize fireSystemUpdate _ 3 false againCalls n = u at ih ⊢
    obtain ⟨hrunning, hcalls, hi, hlength, sub, hget, hlive, honce⟩ := ih
    have hlist (t : Table ℕ) : (t.subscribeSystem (some 3) false false).systemSubs false 3 =
        t.systemSubs false 3 ++ [⟨t.nextSub, false⟩] := by
      show (t.setList 3 false (t.systemSubs false 3 ++ [⟨t.nextSub, false⟩])).systemSubs false 3 = _
      exact (systemSubs_setList t _).trans (if_pos ⟨rfl, rfl⟩)
    have hcall : (u.call sub (againCalls u.calls)).table =
        u.table.subscribeSystem (some 3) false false := rfl
    -- of the ways a round can go only the last is open to a live handler that stays
    rcases round_cases 3 false againCalls hrunning with
      ⟨hnone, -⟩ | ⟨sub', hget', ⟨hgone, -⟩ | ⟨-, hraises, -⟩ | ⟨-, -, honce', -⟩ | ⟨-, -, -, hnext⟩⟩
    · rw [hi, hget] at hnone
      exact absurd hnone nofun
    · rw [hi, hget] at hget'
      exact absurd (Option.some.inj hget' ▸ hgone) hlive
    · exact absurd hraises nofun
    · rw [hi, hget] at hget'
      rw [← Option.some.inj hget', honce] at honce'
      exact absurd honce' nofun
    · rw [hi, hget] at hget'
      obtain rfl := Option.some.inj hget'
      obtain ⟨hi', hcalls', hstatus'⟩ := frame_call u sub (againCalls u.calls)
      rw [hnext]
      refine ⟨hstatus'.trans hrunning, hcalls'.trans (by rw [hcalls]), ?_, ?_, ⟨u.table.nextSub, false⟩, ?_, ?_, rfl⟩
      · show (u.call sub (againCalls u.calls)).i + 1 = n + 1
        rw [hi', hi]
      · show ((u.call sub (againCalls u.calls)).table.systemSubs false 3).length = n + 1 + 1
        rw [hcall, hlist, List.length_append, hlength]
        rfl
      · show ((u.call sub (againCalls u.calls)).table.systemSubs false 3)[n + 1]? = _
        rw [hcall, hlist, List.getElem?_append_right hlength.le, hlength, Nat.sub_self]
        rfl
      · show (u.call sub (againCalls u.calls)).table.entitySubs u.table.nextSub ≠ none
        rw [hcall]
        show ((u.table.setList 3 false _).add _).entitySubs u.table.nextSub ≠ none
        rw [entitySubs_add, nextSub_setList, if_pos rfl]
        exact nofun

/-- A handler that subscribes itself again each time it is called keeps the update going for ever. -/
theorem resubscribing_never_returns : ¬∀ (as : List (Action ℕ)) (s : State ℕ),
    Run step Allowed {} as s → ∀ index post calls, Returns s.table index post calls := by
  intro h
  have hrun : Run step Allowed ({} : State ℕ) ([] ++ [.op (.subscribeSystem (some 3) false false)])
      { table := ({} : Table ℕ).subscribeSystem (some 3) false false } := .step (.refl _) trivial rfl
  obtain ⟨n, hreturned, -⟩ := h _ _ hrun 3 false againCalls
  have hrunning := (again_round n).1
  rw [hreturned] at hrunning
  exact absurd hrunning nofun

end SystemUpdate
end Bg3le
