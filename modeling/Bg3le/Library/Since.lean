import Mathlib.Data.List.Basic

/-!
# What holds since something happened

Statements about the past of a machine: in the list of its events, some event started a thing and
every later event kept it. Both may depend on the events before the one they are asked of.
-/

variable {α : Type*} {keeps starts : List α → α → Prop} {past : List α} {e : α}

/-- Some event started it, and every event after that one kept it. -/
def Since (keeps starts : List α → α → Prop) (past : List α) : Prop :=
  ∃ pre e post, past = pre ++ e :: post ∧ starts pre e ∧
    ∀ mid e' rest, post = mid ++ e' :: rest → keeps (pre ++ e :: mid) e'

namespace Since

theorem start (h : starts past e) : Since keeps starts (past ++ [e]) :=
  ⟨past, e, [], rfl, h, by simp⟩

theorem keep (hk : keeps past e) (h : Since keeps starts past) : Since keeps starts (past ++ [e]) := by
  obtain ⟨pre, a, post, rfl, ha, hpost⟩ := h
  refine ⟨pre, a, post ++ [e], by simp, ha, fun mid e' rest hsplit => ?_⟩
  obtain rfl | ⟨rest, last, rfl⟩ := List.eq_nil_or_concat' rest
  · obtain ⟨rfl, rfl⟩ : post = mid ∧ e = e' := by simpa using List.append_inj' hsplit rfl
    exact hk
  · rw [← List.cons_append, ← List.append_assoc] at hsplit
    exact hpost mid e' rest (List.append_inj' hsplit rfl).1

/-- An event starts it or keeps it; nothing else makes it hold after the event. -/
theorem concat_iff :
    Since keeps starts (past ++ [e]) ↔ starts past e ∨ keeps past e ∧ Since keeps starts past := by
  constructor
  · rintro ⟨pre, a, post, hsplit, ha, hpost⟩
    obtain rfl | ⟨post, last, rfl⟩ := List.eq_nil_or_concat' post
    · obtain ⟨rfl, rfl⟩ : past = pre ∧ e = a := by simpa using List.append_inj' hsplit rfl
      exact .inl ha
    · rw [← List.cons_append, ← List.append_assoc] at hsplit
      obtain ⟨rfl, hlast⟩ := List.append_inj' hsplit rfl
      obtain rfl : e = last := by simpa using hlast
      refine .inr ⟨by simpa using hpost post e [] rfl, pre, a, post, rfl, ha, ?_⟩
      intro mid e' rest hmid
      exact hpost mid e' (rest ++ [e]) (by simp [hmid])
  · rintro (h | ⟨hk, h⟩)
    · exact start h
    · exact keep hk h

/-- It also holds since any event of a wider kind. -/
theorem imp {starts' : List α → α → Prop} (himp : ∀ pre e, starts pre e → starts' pre e)
    (h : Since keeps starts past) : Since keeps starts' past := by
  obtain ⟨pre, a, post, hsplit, ha, hpost⟩ := h
  exact ⟨pre, a, post, hsplit, himp pre a ha, hpost⟩

end Since
