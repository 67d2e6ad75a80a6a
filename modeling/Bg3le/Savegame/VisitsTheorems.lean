import Bg3le.Savegame.Visits

/-!
# When the caches describe the last save

A read that finds no region, a save too new, no `LuaVariables` node or a version without extras
leaves the caches as they were. So they describe the last save exactly when each such read comes
after a save that held nothing there.
-/

namespace Bg3le
namespace Savegame

variable {longest : ℕ}

/-- A read replaces the PersistentVars where the save has a place for them. -/
theorem readSave_saved (caches : Caches) (save : Save longest) :
    (readSave caches save).saved =
      match readableRegion save >>= (·.enter .luaVariables) with
      | some node => readPersistentVariables node
      | none => caches.saved := by
  unfold readSave readableRegion
  cases enterRegion save .scriptExtenderSave with
  | none => rfl
  | some region =>
    dsimp only
    by_cases hversion : region.visitUInt32 .extenderVersion 0 ≤ kSavegameVersion
    · rw [if_neg (UInt32.not_lt.mpr hversion), Option.filter_some_pos (by simpa using hversion)]
      simp only [Option.bind_eq_bind, Option.bind_some]
      cases region.enter .luaVariables <;> split_ifs <;> rfl
    · rw [if_pos (UInt32.not_le.mp hversion), Option.filter_some_neg (by simpa using hversion)]
      rfl

/-- A read replaces the extras where the save's version has them. -/
theorem readSave_extras (caches : Caches) (save : Save longest) :
    (readSave caches save).extras =
      match extrasRegion save with
      | some region => readExtras region
      | none => caches.extras := by
  unfold readSave extrasRegion readableRegion
  cases enterRegion save .scriptExtenderSave with
  | none => rfl
  | some region =>
    dsimp only
    by_cases hversion : region.visitUInt32 .extenderVersion 0 ≤ kSavegameVersion
    · rw [if_neg (UInt32.not_lt.mpr hversion), Option.filter_some_pos (by simpa using hversion)]
      by_cases hextras : 9 ≤ region.visitUInt32 .extenderVersion 0
      · rw [if_pos hextras, Option.filter_some_pos (by simpa using hextras)]
      · rw [if_neg hextras, Option.filter_some_neg (by simpa using hextras)]
        cases region.enter .luaVariables <;> rfl
    · rw [if_pos (UInt32.not_le.mp hversion), Option.filter_some_neg (by simpa using hversion)]
      rfl

theorem readSave_saved_iff (caches : Caches) (save : Save longest) :
    (readSave caches save).saved = heldPersistentVars save ↔
      (readableRegion save >>= (·.enter .luaVariables)).isSome ∨ caches.saved = [] := by
  rw [readSave_saved, heldPersistentVars]
  cases readableRegion save >>= (·.enter .luaVariables) <;> simp

theorem readSave_extras_iff (caches : Caches) (save : Save longest) :
    (readSave caches save).extras = heldExtras save ↔
      (extrasRegion save).isSome ∨ caches.extras = {} := by
  rw [readSave_extras, heldExtras]
  cases extrasRegion save <;> simp

/-- A read leaves the caches describing its save exactly when it replaces what they held. -/
theorem describes_readSave_iff {caches : Caches} {last save : Save longest}
    (h : Describes caches last) : Describes (readSave caches save) save ↔ Replaces last save := by
  have hsaved := readSave_saved_iff caches save
  have hextras := readSave_extras_iff caches save
  rw [h.saved] at hsaved
  rw [h.extras] at hextras
  exact ⟨fun h => ⟨hsaved.mp h.saved, hextras.mp h.extras⟩,
    fun h => ⟨hsaved.mpr h.saved, hextras.mpr h.extras⟩⟩

theorem after_concat (visits : List (Visit longest)) (v : Visit longest) :
    after (visits ++ [v]) = visit (after visits) v := by
  simp [after]

theorem lastSave_concat (visits : List (Visit longest)) (v : Visit longest) :
    lastSave (visits ++ [v]) = match v with | .read save => save | _ => lastSave visits := by
  unfold lastSave
  rw [List.foldl_append]
  cases v <;> rfl

/-- Every visit but a read leaves what the caches hold. -/
theorem visit_of_not_read (caches : Caches) {v : Visit longest} (hread : ∀ save, v ≠ .read save) :
    (visit caches v).saved = caches.saved ∧ (visit caches v).extras = caches.extras := by
  cases v with
  | read save => exact absurd rfl (hread save)
  | write lua => exact ⟨rfl, rfl⟩
  | takePersistentVars =>
    simp only [visit, takeSavedPersistentVars]
    split_ifs <;> exact ⟨rfl, rfl⟩
  | takeExtras =>
    simp only [visit, takeSavedExtras]
    split_ifs <;> exact ⟨rfl, rfl⟩

theorem describes_concat {visits : List (Visit longest)} {v : Visit longest}
    (h : Describes (after visits) (lastSave visits)) (hread : ∀ save, v ≠ .read save) :
    Describes (after (visits ++ [v])) (lastSave (visits ++ [v])) := by
  have hlast : lastSave (visits ++ [v]) = lastSave visits := by
    rw [lastSave_concat]
    cases v with
    | read save => exact absurd rfl (hread save)
    | _ => rfl
  obtain ⟨hsaved, hextras⟩ := visit_of_not_read (after visits) hread
  rw [after_concat, hlast]
  exact ⟨hsaved.trans h.saved, hextras.trans h.extras⟩

/-- In a sequence of visits the caches describe the last save throughout exactly when every read
replaces what the save read before it held. -/
theorem caches_describe_iff (visits : List (Visit longest)) :
    (∀ pre, pre <+: visits → Describes (after pre) (lastSave pre)) ↔
      ∀ pre save, pre ++ [.read save] <+: visits → Replaces (lastSave pre) save := by
  constructor
  · intro h pre save hpre
    have hbefore := h pre ((List.prefix_append _ _).trans hpre)
    have hafter := h _ hpre
    rw [after_concat, lastSave_concat] at hafter
    exact (describes_readSave_iff hbefore).mp hafter
  · intro h pre
    induction pre using List.reverseRecOn with
    | nil => exact fun _ => ⟨rfl, rfl⟩
    | append_singleton pre v ih =>
      intro hpre
      have hbefore := ih ((List.prefix_append _ _).trans hpre)
      by_cases hread : ∃ save, v = .read save
      · obtain ⟨save, rfl⟩ := hread
        rw [after_concat, lastSave_concat]
        exact (describes_readSave_iff hbefore).mpr (h pre save hpre)
      · exact describes_concat hbefore fun save hv => hread ⟨save, hv⟩

/-! ## A save without the region -/

/-- A save with PersistentVars of one mod. -/
def modSave : Save 0 :=
  writeSave { saved := [(bytes "mod", bytes "state")] } {}

/-- Reading a save without the region keeps the variables of the save before it. -/
theorem missingRegion_stale :
    let visits : List (Visit 0) := [.read modSave, .read []]
    lastSave visits = [] ∧ (after visits).saved = [(bytes "mod", bytes "state")] ∧
      ¬ Describes (after visits) (lastSave visits) := by
  have hstale : (after [Visit.read modSave, .read []]).saved = [(bytes "mod", bytes "state")] := by
    decide
  refine ⟨rfl, hstale, fun h => ?_⟩
  exact absurd (hstale.symm.trans h.saved) (by decide)

end Savegame
end Bg3le
