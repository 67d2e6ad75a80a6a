import Bg3le.Pak.Names
import Mathlib.Data.List.DropRight

/-!
# Names in lower case, and their components

Lower case keeps every slash and dot of a name without backslashes, so that the components of a
name are those of its lower case spelling.
-/

namespace Bg3le
namespace Pak

variable {name s : Bytes} {c : UInt8} {k : ℕ}

/-! ## Lower case -/

@[simp]
theorem length_lowered (s : Bytes) : (lowered s).length = s.length := List.length_map ..

theorem getElem?_lowered (s : Bytes) (k : ℕ) :
    (lowered s)[k]? = s[k]?.map fun c => lower (slashed c) :=
  List.getElem?_map ..

theorem lowered_take (s : Bytes) (k : ℕ) : (lowered s).take k = lowered (s.take k) :=
  (List.map_take ..).symm

theorem lowered_drop (s : Bytes) (k : ℕ) : (lowered s).drop k = lowered (s.drop k) :=
  (List.map_drop ..).symm

theorem lower_eq_of_not_letter {d : UInt8} (hd : ¬ (97 ≤ d ∧ d ≤ 122)) (h : lower c = d) : c = d := by
  unfold lower at h
  split at h
  · next hc =>
    exfalso
    apply hd
    rw [← h]
    obtain ⟨hlow, hhigh⟩ := hc
    rw [UInt8.le_iff_toNat_le] at hlow hhigh ⊢
    rw [UInt8.le_iff_toNat_le, UInt8.toNat_add]
    simp at *
    omega
  · exact h

theorem lower_lower (c : UInt8) : lower (lower c) = lower c := by
  by_cases hc : 65 ≤ c ∧ c ≤ 90
  · have hlower : lower c = c + 32 := if_pos hc
    rw [hlower]
    apply if_neg
    obtain ⟨hlow, hhigh⟩ := hc
    rw [UInt8.le_iff_toNat_le] at hlow hhigh
    rw [UInt8.le_iff_toNat_le, UInt8.le_iff_toNat_le, UInt8.toNat_add]
    simp at *
    omega
  · have hlower : lower c = c := if_neg hc
    rw [hlower, hlower]

theorem slashed_of_ne (h : c ≠ 92) : slashed c = c := if_neg h

/-- The slashes of the lower case spelling are the slashes and backslashes. -/
theorem lower_slashed_eq_slash (c : UInt8) : lower (slashed c) = 47 ↔ c = 47 ∨ c = 92 := by
  constructor
  · intro h
    have hc := lower_eq_of_not_letter (by decide) h
    unfold slashed at hc
    split at hc
    · next h => exact .inr h
    · exact .inl hc
  · rintro (rfl | rfl) <;> rfl

theorem lower_slashed_eq_dot (c : UInt8) : lower (slashed c) = 46 ↔ c = 46 := by
  constructor
  · intro h
    have hc := lower_eq_of_not_letter (by decide) h
    unfold slashed at hc
    split at hc
    · cases hc
    · exact hc
  · rintro rfl
    rfl

theorem lower_ne_backslash (h : c ≠ 92) : lower c ≠ 92 := by
  intro hc
  exact h (lower_eq_of_not_letter (by decide) hc)

/-! ## Slices -/

theorem length_slice (h : k + n ≤ s.length) : (slice s k n).length = n := by
  rw [slice, List.length_take, List.length_drop]
  omega

end Pak
end Bg3le
