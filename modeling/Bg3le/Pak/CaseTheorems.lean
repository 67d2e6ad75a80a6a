import Bg3le.Pak.ReferencesTheorems

/-!
# What does not depend on case

Names of the same letters have the same components, and what the fixer looks names and texts up by
is the same for all of them.
-/

namespace Bg3le
namespace Pak

/-- The same text up to the case of letters. -/
def CaseEq (a b : Bytes) : Prop := a.map lower = b.map lower

variable {a b : Bytes} {c : UInt8} {k pos len : ℕ}

namespace CaseEq

theorem symm (h : CaseEq a b) : CaseEq b a := Eq.symm h

/-- Names that are equal but for case are of one length. -/
theorem length_eq (h : CaseEq a b) : a.length = b.length := by
  have := congrArg List.length h
  rwa [List.length_map, List.length_map] at this

theorem take (h : CaseEq a b) (k : ℕ) : CaseEq (a.take k) (b.take k) := by
  unfold CaseEq at *
  rw [List.map_take, List.map_take, h]

theorem drop (h : CaseEq a b) (k : ℕ) : CaseEq (a.drop k) (b.drop k) := by
  unfold CaseEq at *
  rw [List.map_drop, List.map_drop, h]

/-- Their parts are equal but for case. -/
theorem slice (h : CaseEq a b) (pos len : ℕ) : CaseEq (slice a pos len) (slice b pos len) :=
  (h.drop pos).take len

/-- Lower case of slashes is slashes of lower case. -/
theorem lower_slashed (c : UInt8) : lower (slashed c) = slashed (lower c) := by
  by_cases hc : c = 92
  · rw [hc]
    rfl
  · rw [slashed_of_ne hc, slashed_of_ne (lower_ne_backslash hc)]

/-- In lower case they are equal. -/
theorem lowered (h : CaseEq a b) : lowered a = lowered b := by
  have heq (s : Bytes) : Pak.lowered s = (s.map lower).map slashed := by
    rw [List.map_map]
    exact List.map_congr_left fun c _ => lower_slashed c
  rw [heq, heq, h]

/-! ## Characters that are no letters -/

theorem map_getElem? (h : CaseEq a b) (k : ℕ) : a[k]?.map lower = b[k]?.map lower := by
  have := congrArg (·[k]?) h
  simpa only [List.getElem?_map] using this

theorem lower_self (hc : ¬ (65 ≤ c ∧ c ≤ 90)) : lower c = c := if_neg hc

/-- A character that is no letter is where it was. -/
theorem getElem?_iff (h : CaseEq a b) (hlow : ¬ (97 ≤ c ∧ c ≤ 122)) (hhigh : ¬ (65 ≤ c ∧ c ≤ 90))
    (k : ℕ) : a[k]? = some c ↔ b[k]? = some c := by
  have hside {a b : Bytes} (h : CaseEq a b) (hk : a[k]? = some c) : b[k]? = some c := by
    have hmap := h.map_getElem? k
    rw [hk, Option.map_some, eq_comm, Option.map_eq_some_iff] at hmap
    obtain ⟨d, hd, hlower⟩ := hmap
    rw [lower_self hhigh] at hlower
    rw [hd, lower_eq_of_not_letter hlow hlower]
  exact ⟨hside h, hside h.symm⟩

/-- A character without case is in both or in none. -/
theorem mem_iff (h : CaseEq a b) (hlow : ¬ (97 ≤ c ∧ c ≤ 122)) (hhigh : ¬ (65 ≤ c ∧ c ≤ 90)) :
    c ∈ a ↔ c ∈ b := by
  rw [List.mem_iff_getElem?, List.mem_iff_getElem?]
  simp only [h.getElem?_iff hlow hhigh]

/-- It is last in both at one place. -/
theorem rfind (h : CaseEq a b) (hlow : ¬ (97 ≤ c ∧ c ≤ 122)) (hhigh : ¬ (65 ≤ c ∧ c ≤ 90)) :
    rfind c a = rfind c b := by
  cases ha : Pak.rfind c a with
  | none =>
    cases hb : Pak.rfind c b with
    | none => rfl
    | some k => exact absurd ((h.getElem?_iff hlow hhigh k).mpr (rfind_eq_some hb).1) (rfind_eq_none ha k)
  | some k =>
    obtain ⟨hk, hlast⟩ := rfind_eq_some ha
    cases hb : Pak.rfind c b with
    | none => exact absurd ((h.getElem?_iff hlow hhigh k).mp hk) (rfind_eq_none hb k)
    | some j =>
      obtain ⟨hj, hlast'⟩ := rfind_eq_some hb
      congr 1
      rcases Nat.lt_trichotomy k j with hlt | heq | hlt
      · exact absurd ((h.getElem?_iff hlow hhigh j).mpr hj) (hlast j hlt)
      · exact heq
      · exact absurd ((h.getElem?_iff hlow hhigh k).mp hk) (hlast' k hlt)

theorem slashes (h : CaseEq a b) : slashes a = slashes b := by
  unfold Pak.slashes
  rw [h.length_eq]
  apply List.filter_congr
  intro k _
  rw [decide_eq_decide]
  exact h.getElem?_iff (by decide) (by decide) k

/-! ## Names -/

/-- So their last components are equal but for case. -/
theorem lastComponent (h : CaseEq a b) : CaseEq (lastComponent a) (lastComponent b) := by
  unfold Pak.lastComponent
  rw [h.rfind (by decide) (by decide)]
  cases Pak.rfind 47 b with
  | none => exact h
  | some slash => exact h.drop _

/-- They have the same extension. -/
theorem extension (h : CaseEq a b) : extension a = extension b := by
  unfold Pak.extension
  rw [h.lastComponent.rfind (by decide) (by decide)]
  split
  · rfl
  · rfl
  · exact (h.lastComponent.drop _).lowered

theorem iequals (h : CaseEq a b) (s : Bytes) : iequals a s = iequals b s := by
  unfold Pak.iequals
  rw [h]

theorem iendsWith (h : CaseEq a b) (suffix : Bytes) : iendsWith a suffix = iendsWith b suffix := by
  unfold Pak.iendsWith
  rw [h.length_eq, (h.drop _).iequals]

/-- Both are the metadata's name, or neither. -/
theorem guiMetadata (h : CaseEq a b) : guiMetadata a = guiMetadata b := by
  unfold Pak.guiMetadata
  rw [h.iendsWith, h.iendsWith]

/-- Both are a fixed name, or neither. -/
theorem fixedName (h : CaseEq a b) : fixedName a = fixedName b := by
  unfold Pak.fixedName
  rw [h.lowered]

theorem leafBegin (h : CaseEq a b) : leafBegin a = leafBegin b := by
  unfold Pak.leafBegin
  rw [h.slashes]

/-- They have the last dot at one place. -/
theorem leafDot (h : CaseEq a b) : leafDot a = leafDot b := by
  unfold Pak.leafDot
  rw [h.rfind (by decide) (by decide), h.leafBegin]

/-- Their stems are at one place. -/
theorem stemRange (h : CaseEq a b) : stemRange a = stemRange b := by
  unfold Pak.stemRange
  rw [h.leafBegin, h.leafDot, h.length_eq]

/-- They have the same id. -/
theorem stemId (h : CaseEq a b) : stemId a = stemId b := by
  unfold Pak.stemId
  rw [h.lowered, h.stemRange]

/-- Names of the same letters have the same components. -/
theorem components (h : CaseEq a b) : components a = components b := by
  unfold Pak.components
  rw [h.slashes, h.lowered, h.stemId, h.stemRange, h.leafDot, h.length_eq]

/-- They have the same text. -/
theorem stemText (h : CaseEq a b) : stemText a = stemText b := by
  unfold Pak.stemText
  rw [h.lowered, h.stemRange]

theorem isTexture (h : CaseEq a b) : isTexture a = isTexture b := by
  unfold Pak.isTexture
  rw [h.leafDot, h.lowered, h.extension]

/-- Both are icons, or neither. -/
theorem isIcon (h : CaseEq a b) : isIcon a = isIcon b := by
  unfold Pak.isIcon
  rw [h.isTexture, h.lowered]

/-- They have the same pins. -/
theorem iconPins (h : CaseEq a b) : iconPins a = iconPins b := by
  have hcanonical : canonicalPin a = canonicalPin b := by
    funext c
    unfold canonicalPin
    rw [(h.slice _ _).lowered]
  have hgui (c : Bytes × ℕ × ℕ) : Pak.iequals (Pak.slice a c.2.1 (c.2.2 - c.2.1)) (bytes "GUI") =
      Pak.iequals (Pak.slice b c.2.1 (c.2.2 - c.2.1)) (bytes "GUI") := (h.slice _ _).iequals _
  unfold Pak.iconPins
  simp only [h.components, hcanonical, hgui]

/-- They require the same of a name. -/
theorem requiredFrom {source source' : Bytes} (h : CaseEq a b) (hsource : CaseEq source source')
    (len : ℕ) : requiredFrom source a len = requiredFrom source' b len := by
  unfold Pak.requiredFrom
  rw [hsource.extension, hsource.lowered, h.length_eq, h.lowered]

/-- They are in the same directory. -/
theorem directoryOf (h : CaseEq a b) : Index.directoryOf a = Index.directoryOf b := by
  unfold Index.directoryOf
  rw [h.rfind (by decide) (by decide), h.length_eq]
  exact (h.take _).lowered

end CaseEq

end Pak
end Bg3le
