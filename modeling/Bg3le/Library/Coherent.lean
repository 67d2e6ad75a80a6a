import Mathlib.Data.List.AList
import Mathlib.Data.Set.Insert

/-!
# A cache over a source that changes

A view gives what a source shows under a key, or nothing. A cache of it is coherent while what it
holds under a key is what the source shows there now, but for the keys whose values a reader has
spoiled. Filling it keeps that, and so does a change of the source, as long as every key that shows
something else is dropped.
-/

variable {κ ω : Type*} [DecidableEq κ] {spoiled : Set κ} {view view' : κ → Option ω}
  {cache : AList fun _ : κ => ω}

/-- What the cache holds, and was not spoiled, is what the source shows. -/
def Coherent (spoiled : Set κ) (view : κ → Option ω) (cache : AList fun _ : κ => ω) : Prop :=
  ∀ k ∉ spoiled, ∀ v ∈ cache.lookup k, view k = some v

namespace Coherent

theorem empty : Coherent spoiled view (∅ : AList fun _ : κ => ω) := by
  intro k _ v hv
  simp at hv

theorem insert (h : Coherent spoiled view cache) {k : κ} {v : ω} (hv : view k = some v) :
    Coherent spoiled view (cache.insert k v) := by
  intro k' hk' v' hv'
  by_cases hk : k' = k
  · subst hk
    rw [AList.lookup_insert] at hv'
    rw [hv, Option.mem_some.mp hv']
  · rw [AList.lookup_insert_ne hk] at hv'
    exact h k' hk' v' hv'

/-- A reader changed the value that it was given. -/
theorem spoil (h : Coherent spoiled view cache) (k : κ) (v : ω) :
    Coherent (Insert.insert k spoiled) view (cache.insert k v) := by
  intro k' hk' v' hv'
  rw [Set.mem_insert_iff, not_or] at hk'
  rw [AList.lookup_insert_ne hk'.1] at hv'
  exact h k' hk'.2 v' hv'

/-- The source changed, and the keys that stay show what they did. -/
theorem change (h : Coherent spoiled view cache) (same : ∀ k ∈ cache, view' k = view k) :
    Coherent spoiled view' cache := by
  intro k hspoiled v hv
  have hk : k ∈ cache := AList.lookup_isSome.mp (Option.isSome_of_mem hv)
  rw [same k hk]
  exact h k hspoiled v hv

/-- The source changed under one key, which is dropped. -/
theorem change_erase (h : Coherent spoiled view cache) {dropped : κ}
    (same : ∀ k ∈ cache, k ≠ dropped → view' k = view k) :
    Coherent (spoiled \ {dropped}) view' (cache.erase dropped) := by
  intro k hspoiled v hv
  by_cases hk : k = dropped
  · subst hk
    rw [AList.lookup_erase] at hv
    exact absurd hv (Option.not_mem_none v)
  · rw [AList.lookup_erase_ne hk] at hv
    have hmem : k ∈ cache := AList.lookup_isSome.mp (Option.isSome_of_mem hv)
    rw [same k hmem hk]
    exact h k (fun hin => hspoiled ⟨hin, hk⟩) v hv

end Coherent
