import Bg3le.Pak.ChooseTheorems

/-!
# Edits of names and contents

An edit overwrites one occurrence, so that no buffer changes its length, and a target differs from
what it replaces in case only.
-/

namespace Bg3le
namespace Pak

variable {B B' : ℕ ⊕ ℕ → Bytes} {f : Fixer} {E : Edits} {o : Occurrence} {s t text target : Bytes}
  {names : List Bytes} {contents : List Content}

/-! ## Texts up to case -/

theorem lowered_eq_map (h : 92 ∉ s) : lowered s = s.map lower := by
  apply List.map_congr_left
  intro c hc
  rw [slashed_of_ne]
  rintro rfl
  exact h hc

theorem not_mem_of_map_lower (h : t.map lower = s.map lower) (hs : 92 ∉ s) : 92 ∉ t := by
  intro hmem
  have hmem := List.mem_map_of_mem (f := lower) hmem
  rw [h] at hmem
  obtain ⟨c, hc, hlower⟩ := List.mem_map.mp hmem
  have hc92 : c = 92 := lower_eq_of_not_letter (by decide) hlower
  exact hs (hc92 ▸ hc)

/-- Buffers that differ in case only. -/
def SameText (B B' : ℕ ⊕ ℕ → Bytes) : Prop := ∀ x, (B' x).map lower = (B x).map lower

theorem SameText.length_eq (h : SameText B B') (x : ℕ ⊕ ℕ) : (B' x).length = (B x).length := by
  have := congrArg List.length (h x)
  rwa [List.length_map, List.length_map] at this

theorem SameText.read (h : SameText B B') (slot : Slots.Slot (ℕ ⊕ ℕ)) :
    (Slots.read B' slot).map lower = (Slots.read B slot).map lower := by
  unfold Slots.read
  rw [List.map_take, List.map_drop, List.map_take, List.map_drop, h]

/-- An occurrence spells its text in any case. -/
theorem Spells.of_sameText (h : Spells B o text) (hB : SameText B B') : Spells B' o text := by
  have hread := hB.read o.slot
  have hslash := not_mem_of_map_lower hread h.noBackslash
  refine ⟨?_, ?_, hslash⟩
  · rw [hB.length_eq]
    exact h.fits
  · rw [lowered_eq_map hslash, hread, ← lowered_eq_map h.noBackslash]
    exact h.lowered_eq

theorem overwrite_map (s : Bytes) (pos : ℕ) (t : Bytes) (ht : t.map lower = ((s.drop pos).take t.length).map lower) :
    (Slots.overwrite s pos t).map lower = s.map lower := by
  have hlength := congrArg List.length ht
  rw [List.length_map, List.length_map, List.length_take, List.length_drop] at hlength
  by_cases hfits : pos + t.length ≤ s.length
  · apply List.ext_getElem?
    intro k
    rw [List.getElem?_map, List.getElem?_map, Slots.getElem?_overwrite hfits]
    split
    · next hk =>
      have hget := congrArg (·[k - pos]?) ht
      simp only [List.getElem?_map] at hget
      rw [hget, List.getElem?_take_of_lt (by omega), List.getElem?_drop]
      congr 2
      omega
    · rfl
  · -- only an empty text fits nowhere
    have hnil : t = [] := List.eq_nil_of_length_eq_zero (by omega)
    rw [hnil]
    congr 1
    apply List.ext_getElem?
    intro k
    unfold Slots.overwrite
    rw [List.getElem?_mapIdx]
    cases s[k]? <;> simp

/-- Writing a text of the same letters. -/
theorem SameText.write (h : SameText B B') {slot : Slots.Slot (ℕ ⊕ ℕ)} (hlength : t.length = slot.len)
    (ht : t.map lower = (Slots.read B slot).map lower) : SameText B (Slots.write B' slot t) := by
  intro x
  unfold Slots.write
  by_cases hx : x = slot.file
  · rw [hx, Function.update_self, overwrite_map, h]
    rw [hlength, ht]
    exact (h.read slot).symm
  · rw [Function.update_of_ne hx, h]

/-! ## One edit -/

/-- The buffers while they are edited. -/
def Edits.buffer (E : Edits) : ℕ ⊕ ℕ → Bytes := Pak.buffer E.names E.contents

theorem Content.bytes_overwrite (content : Content) (pos : ℕ) (t : Bytes) :
    (content.overwrite pos t).bytes = Slots.overwrite content.bytes pos t := by
  unfold Content.overwrite Content.bytes
  by_cases hlsf : content.lsf = true
  · simp [hlsf, LsfDocument.overwrite]
  · simp [hlsf]

theorem overwrite_nil (pos : ℕ) (t : Bytes) : Slots.overwrite ([] : Bytes) pos t = [] := rfl

/-- An edit is a write of the target, unless the occurrence is spelled so already. -/
theorem buffer_edit (f : Fixer) (hfits : o.pos + o.len ≤ (E.buffer o.file).length)
    (hlength : target.length = o.len) : (f.edit target E (o, s)).buffer =
      if s = target then E.buffer else Slots.write E.buffer o.slot target := by
  rw [Fixer.edit]
  split
  · rfl
  · obtain ⟨content, index, pos, len⟩ := o
    simp only at hlength
    subst hlength
    -- an occurrence is in a name or in a content, and only that buffer changes
    cases content with
    | none =>
      have hfits : pos + target.length ≤ (E.names.getD index []).length := hfits
      funext x
      cases x with
      | inl j =>
        show (E.names.modify index _).getD j [] = Slots.write E.buffer _ target (.inl j)
        rw [List.getD_eq_getElem?_getD, List.getElem?_modify]
        by_cases hj : j = index
        · subst hj
          have hself : Slots.write E.buffer (Occurrence.slot ⟨none, j, pos, target.length⟩) target (.inl j) =
              Slots.overwrite (E.names.getD j []) pos target := Function.update_self ..
          rw [hself, List.getD_eq_getElem?_getD] at *
          cases hget : E.names[j]? with
          | none => simp [overwrite_nil]
          | some name =>
            rw [hget] at hfits
            simp only [Option.getD_some] at hfits
            simp [Slots.overwrite_eq hfits]
        · have hother : Slots.write E.buffer (Occurrence.slot ⟨none, index, pos, target.length⟩) target
              (.inl j) = E.names.getD j [] :=
            Function.update_of_ne (fun heq => hj (Sum.inl.inj heq)) _ _
          rw [hother, List.getD_eq_getElem?_getD]
          simp [Ne.symm hj]
      | inr c => exact (Function.update_of_ne (by intro heq; cases heq) _ _).symm
    | some c =>
      funext x
      cases x with
      | inl j => exact (Function.update_of_ne (by intro heq; cases heq) _ _).symm
      | inr d =>
        show (((E.contents.modify c _)[d]?).map Content.bytes).getD [] =
          Slots.write E.buffer _ target (.inr d)
        rw [List.getElem?_modify]
        by_cases hd : d = c
        · subst hd
          have hself : Slots.write E.buffer (Occurrence.slot ⟨some d, index, pos, target.length⟩) target
              (.inr d) = Slots.overwrite (((E.contents[d]?).map Content.bytes).getD []) pos target :=
            Function.update_self ..
          rw [hself]
          cases hget : E.contents[d]? with
          | none => simp [overwrite_nil]
          | some content =>
            have hbytes := content.bytes_overwrite pos target
            simp only [if_pos, Option.map_some, Option.getD_some]
            exact hbytes
        · have hother : Slots.write E.buffer (Occurrence.slot ⟨some c, index, pos, target.length⟩) target
              (.inr d) = (((E.contents[d]?).map Content.bytes).getD []) :=
            Function.update_of_ne (fun heq => hd (Sum.inr.inj heq)) _ _
          rw [hother]
          simp [Ne.symm hd]

/-! ## Contents keep their shape -/

/-- A document but for its values. -/
structure LsfDocument.SameBut (a b : LsfDocument) : Prop where
  filePrefix : a.filePrefix = b.filePrefix
  metadataAt : a.metadataAt = b.metadataAt
  version : a.version = b.version
  hasKeys : a.hasKeys = b.hasKeys
  strings : a.strings = b.strings
  nodes : a.nodes = b.nodes
  attributes : a.attributes = b.attributes
  keys : a.keys = b.keys
  stringValues : a.stringValues = b.stringValues

/-- A content but for its bytes, and marked where they differ. -/
structure Content.Edited (a b : Content) : Prop where
  file : a.file = b.file
  lsf : a.lsf = b.lsf
  text (h : b.lsf = true) : a.text = b.text
  doc : a.doc.SameBut b.doc
  plain (h : b.lsf = false) : a.doc = b.doc
  changed : a.changed = true ∨ a = b

theorem Content.Edited.refl (a : Content) : a.Edited a :=
  ⟨rfl, rfl, fun _ => rfl, ⟨rfl, rfl, rfl, rfl, rfl, rfl, rfl, rfl, rfl⟩, fun _ => rfl, .inr rfl⟩

theorem Content.Edited.overwrite {a b : Content} (h : a.Edited b) (pos : ℕ) (t : Bytes) :
    Content.Edited { a.overwrite pos t with changed := true } b := by
  unfold Content.overwrite
  by_cases hlsf : a.lsf = true
  · simp only [hlsf, if_true]
    have hlsf' : b.lsf = true := h.lsf ▸ hlsf
    refine ⟨h.file, hlsf'.symm, fun _ => h.text hlsf', ?_, fun hplain => ?_, .inl rfl⟩
    · exact ⟨h.doc.filePrefix, h.doc.metadataAt, h.doc.version, h.doc.hasKeys, h.doc.strings,
        h.doc.nodes, h.doc.attributes, h.doc.keys, h.doc.stringValues⟩
    · exact absurd (hplain.symm.trans hlsf') (by decide)
  · have hplain : a.lsf = false := by simpa using hlsf
    simp only [hplain]
    have hplain' : b.lsf = false := h.lsf ▸ hplain
    refine ⟨h.file, hplain'.symm, fun htrue => ?_, h.doc, h.plain, .inl rfl⟩
    exact absurd (htrue.symm.trans hplain') (by decide)

/-- Edits so far: the buffers are the same up to case, and outside of the occurrences the same. -/
structure Edited (B : ℕ ⊕ ℕ → Bytes) (occurrences : Set Occurrence) (names : List Bytes)
    (contents : List Content) (E : Edits) : Prop where
  sameText : SameText B E.buffer
  rest {x : ℕ ⊕ ℕ} {k : ℕ} (h : ∀ o ∈ occurrences, ¬ o.slot.Covers x k) :
    (E.buffer x)[k]? = (B x)[k]?
  names_length : E.names.length = names.length
  contents_edited : List.Forall₂ Content.Edited E.contents contents

theorem Edited.start (occurrences : Set Occurrence) (names : List Bytes) (contents : List Content) :
    Edited (buffer names contents) occurrences names contents ⟨names, contents, []⟩ :=
  ⟨fun _ => rfl, fun _ => rfl, rfl, List.forall₂_same.mpr fun content _ => .refl content⟩

theorem forall₂_modify {α β : Type*} {R : α → β → Prop} {l : List α} {l' : List β}
    (h : List.Forall₂ R l l') {change : α → α} (hchange : ∀ a b, R a b → R (change a) b) (i : ℕ) :
    List.Forall₂ R (l.modify i change) l' := by
  induction h generalizing i with
  | nil => cases i <;> exact .nil
  | @cons a b l l' hab hrest ih =>
    cases i with
    | zero => exact .cons (hchange a b hab) hrest
    | succ i => exact .cons hab (ih i)

theorem Fixer.length_names_edit (f : Fixer) (target : Bytes) (E : Edits) (e : Occurrence × Bytes) :
    (f.edit target E e).names.length = E.names.length := by
  obtain ⟨o, s⟩ := e
  rw [Fixer.edit]
  split
  · rfl
  · cases o.content with
    | none => exact List.length_modify ..
    | some c => rfl

theorem Fixer.contents_edit (f : Fixer) {e : Occurrence × Bytes}
    (h : List.Forall₂ Content.Edited E.contents contents) :
    List.Forall₂ Content.Edited (f.edit target E e).contents contents := by
  obtain ⟨o, s⟩ := e
  rw [Fixer.edit]
  split
  · exact h
  · cases o.content with
    | none => exact h
    | some c => exact forall₂_modify h (fun a b hab => hab.overwrite o.pos target) c

/-- One edit keeps all that. -/
theorem Edited.edit {occurrences : Set Occurrence} (h : Edited B occurrences names contents E)
    (f : Fixer) (ho : o ∈ occurrences) (hspells : Spells B o text) (ht : lowered target = text)
    (hslash : 92 ∉ target) :
    Edited B occurrences names contents (f.edit target E (o, s)) := by
  have hspells' := hspells.of_sameText h.sameText
  have hlength : target.length = o.len := by
    rw [hspells.length_eq, ← ht, length_lowered]
  have hbuffer := buffer_edit (s := s) f hspells'.fits hlength
  have hmap : target.map lower = (Slots.read B o.slot).map lower := by
    rw [← lowered_eq_map hslash, ← lowered_eq_map hspells.noBackslash, ht, hspells.lowered_eq]
  refine ⟨?_, fun {x k} hrest => ?_, ?_, ?_⟩
  · rw [hbuffer]
    split
    · exact h.sameText
    · exact h.sameText.write hlength hmap
  · rw [hbuffer]
    split
    · exact h.rest hrest
    · rw [Slots.getElem?_write hspells'.fits hlength (hrest o ho)]
      exact h.rest hrest
  · rw [f.length_names_edit]
    exact h.names_length
  · exact f.contents_edit h.contents_edited

/-- All edits of one group. -/
theorem Edited.edits {occurrences : Set Occurrence} (h : Edited B occurrences names contents E)
    (f : Fixer) {os : List (Occurrence × Bytes)}
    (hos : ∀ e ∈ os, e.1 ∈ occurrences ∧ Spells B e.1 text) (ht : lowered target = text)
    (hslash : 92 ∉ target) : Edited B occurrences names contents (os.foldl (f.edit target) E) := by
  induction os generalizing E with
  | nil => exact h
  | cons e os ih =>
    obtain ⟨ho, hspells⟩ := hos e List.mem_cons_self
    exact ih (h.edit f ho hspells ht hslash) fun e' he' => hos e' (List.mem_cons_of_mem _ he')

end Pak
end Bg3le
