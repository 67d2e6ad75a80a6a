import Bg3le.Pak.UnifyTheorems

/-!
# What the occurrences become

Where no two tokens overlap, every occurrence becomes what its group calls for, and what is no
occurrence stays.
-/

namespace Bg3le
namespace Pak

open Slots (Progress)

variable {B : ℕ ⊕ ℕ → Bytes} {X : Index} {f : Fixer} {contents : List Content} {E : Edits} {l : Ledger}
  {g n : ℕ} {o : Occurrence} {id id' : Bytes}

/-- The slots of the groups, by their roots. -/
def Groups.slots (G : Groups) : Set (ℕ × Slots.Slot (ℕ ⊕ ℕ)) :=
  {p | p.1 < G.groups.length ∧ G.rootOf p.1 = p.1 ∧ ∃ o ∈ (G.groupOf p.1).occurrences, p.2 = o.slot}

/-- The targets of the groups, from the spellings as they were. -/
def Fixer.target (f : Fixer) (contents : List Content) (g : ℕ) : Option Bytes :=
  (f.groups.groupOf g).target
    ((f.groups.groupOf g).occurrences.map (spelling f.index.names contents))

theorem Scanned.separate (hs : Scanned B X contents G l) (hcontents : SeparatedTokens contents) :
    Slots.Separate G.slots := by
  rintro ⟨g, slot⟩ ⟨hg, hroot, o, ho, rfl⟩ ⟨g', slot'⟩ ⟨hg', hroot', o', ho', rfl⟩
  obtain ⟨id, hgroup, hm⟩ := (hs.mem_occurrences hg).mp ho
  obtain ⟨id', hgroup', hm'⟩ := (hs.mem_occurrences hg').mp ho'
  rcases hm.apart hs.ready.indexed hcontents hm' with ⟨hslot, hsame⟩ | hapart
  · left
    have hlabels : SameGroup X contents (l.label g) (l.label g') :=
      (hgroup.symm.trans _ _ _ hsame).trans _ _ _ hgroup'
    have hroots := (hs.holds.root_iff g g').mpr (hs.same_of_sameGroup hg hg' hlabels)
    have heq : g = g' := hroot.symm.trans (hroots.trans hroot')
    exact Prod.ext heq hslot
  · exact .inr hapart

/-- The edits of one group bring its slots to the target. -/
theorem progress_edits {S : Set (ℕ × Slots.Slot (ℕ ⊕ ℕ))} {target : ℕ → Option Bytes}
    {done : Set (ℕ × Slots.Slot (ℕ ⊕ ℕ))} {t : Bytes} (h : Progress S target B E.buffer done)
    (hS : Slots.Separate S) (f : Fixer) (ht : target g = some t) (os : List (Occurrence × Bytes))
    (hos : ∀ e ∈ os, (g, e.1.slot) ∈ S ∧ e.2 = Slots.read B e.1.slot ∧
      e.1.pos + e.1.len ≤ (B e.1.file).length ∧ t.length = e.1.len) :
    Progress S target B (os.foldl (f.edit t) E).buffer
      (done ∪ {p | ∃ e ∈ os, p = (g, e.1.slot)}) := by
  induction os generalizing E done with
  | nil => exact h.congr (by simp)
  | cons e os ih =>
    obtain ⟨hmem, hread, hfits, hlength⟩ := hos e List.mem_cons_self
    have hbuffer := buffer_edit (E := E) (s := e.2) f (by rw [h.length_eq]; exact hfits) hlength
    have hstep : Progress S target B (f.edit t E e).buffer (done ∪ {(g, e.1.slot)}) := by
      rw [show e = (e.1, e.2) from rfl, hbuffer]
      split
      · next heq =>
        apply h.skip
        rintro q rfl -
        simp only
        rw [ht, Option.getD_some, ← heq, hread]
      · exact h.write hS hmem hfits hlength ht
    refine (ih hstep fun e' he' => hos e' (List.mem_cons_of_mem _ he')).congr fun p _ => ?_
    simp only [Set.mem_union, Set.mem_singleton_iff, Set.mem_ofPred_eq, List.mem_cons,
      exists_eq_or_imp, or_assoc]

/-- A round brings the slots of one group to their target. -/
theorem progress_unifyGroup
    (hs : Scanned (buffer f.index.names contents) f.index contents f.groups l)
    (hcontents : SeparatedTokens contents) (hg : g < f.groups.groups.length)
    (h : Progress f.groups.slots (f.target contents) (buffer f.index.names contents) E.buffer
      {p | p.1 < g}) :
    Progress f.groups.slots (f.target contents) (buffer f.index.names contents)
      (f.unifyGroup E g).buffer {p | p.1 < g + 1} := by
  by_cases hroot : f.groups.rootOf g = g
  · rw [Fixer.unifyGroup_root hroot]
    -- the spellings of this group are still as they were
    have hsame : (f.groups.groupOf g).occurrences.map (spelling f.index.names E.contents) =
        (f.groups.groupOf g).occurrences.map (spelling f.index.names contents) := by
      apply List.map_congr_left
      intro o ho
      cases hcontent : o.content with
      | none =>
        unfold spelling
        rw [hcontent]
      | some c =>
        have hread := h.read_todo (p := (g, o.slot)) ⟨hg, hroot, o, ho, rfl⟩ (by simp)
        rw [spelling_eq, spelling_eq, ← hread]
        unfold Slots.read Occurrence.slot Occurrence.file
        rw [hcontent]
        rfl
    rw [hsame]
    have htarget : f.target contents g = (f.groups.groupOf g).target
      ((f.groups.groupOf g).occurrences.map (spelling f.index.names contents)) := rfl
    split
    · next hnone =>
      rw [hnone] at htarget
      have hskip : Progress _ _ _ _ (_ ∪ {p | p.1 = g}) := h.skip fun q hq _ => by
        rw [show q.1 = g from hq, htarget, Option.getD_none]
      refine hskip.congr fun p _ => ?_
      simp only [Set.mem_union, Set.mem_ofPred_eq]
      omega
    · next t hsome =>
      rw [hsome] at htarget
      by_cases hne : (f.groups.groupOf g).occurrences = []
      · rw [hne]
        refine h.congr fun p hp => ?_
        simp only [Set.mem_ofPred_eq]
        obtain ⟨-, -, o, ho, -⟩ := hp
        have hpg : p.1 ≠ g := fun heq => by
          rw [heq, hne] at ho
          exact List.not_mem_nil ho
        omega
      · have huniform := hs.uniform hg hne (fun _ => rfl : SameText _ (buffer f.index.names contents))
          (fun o => spelling_eq f.index.names contents o)
        have htext := (target_spec huniform hsome).1
        have hedits := progress_edits h (hs.separate hcontents) f htarget
          ((f.groups.groupOf g).occurrences.zip
            ((f.groups.groupOf g).occurrences.map (spelling f.index.names contents))) fun e he => by
          obtain ⟨hmem, heq⟩ := mem_zip_map.mp he
          have hspells := hs.spells hg hmem
          refine ⟨⟨hg, hroot, e.1, hmem, rfl⟩, heq.trans (spelling_eq _ _ _), hspells.fits, ?_⟩
          rw [hspells.length_eq, ← htext, length_lowered]
        refine hedits.congr fun p hp => ?_
        simp only [Set.mem_union, Set.mem_ofPred_eq]
        constructor
        · rintro (hlt | ⟨e, -, rfl⟩)
          · omega
          · simp
        · intro hlt
          rcases Nat.lt_succ_iff_lt_or_eq.mp hlt with hlt | heq
          · exact .inl hlt
          · obtain ⟨-, -, o, ho, hslot⟩ := hp
            refine .inr ⟨(o, spelling f.index.names contents o), mem_zip_map.mpr ⟨heq ▸ ho, rfl⟩, ?_⟩
            exact Prod.ext heq hslot
  · rw [Fixer.unifyGroup_other hroot]
    refine h.congr fun p hp => ?_
    simp only [Set.mem_ofPred_eq]
    have hpg : p.1 ≠ g := by
      rintro rfl
      exact hroot hp.2.1
    omega

/-- All slots have their targets in the end. -/
theorem progress_edits_all
    (hs : Scanned (buffer f.index.names contents) f.index contents f.groups l)
    (hcontents : SeparatedTokens contents) :
    Progress f.groups.slots (f.target contents) (buffer f.index.names contents)
      (f.edits contents).buffer {p | p.1 < f.groups.groups.length} := by
  have hrun (n : ℕ) (hn : n ≤ f.groups.groups.length) :
      Progress f.groups.slots (f.target contents) (buffer f.index.names contents)
        ((List.range n).foldl f.unifyGroup ⟨f.index.names, contents, []⟩).buffer {p | p.1 < n} := by
    induction n with
    | zero => exact (Progress.start _ _ _).congr (by simp)
    | succ n ih =>
      rw [List.range_succ, List.foldl_append]
      exact progress_unifyGroup hs hcontents hn (ih (Nat.le_of_succ_le hn))
  exact hrun _ le_rfl

/-! ## Outcomes -/

theorem SameGroup.symm {a b : Bytes} (h : SameGroup X contents a b) : SameGroup X contents b a :=
  Relation.EqvGen.symm _ _ h

theorem SameGroup.trans {a b c : Bytes} (h : SameGroup X contents a b)
    (h' : SameGroup X contents b c) : SameGroup X contents a c :=
  Relation.EqvGen.trans _ _ _ h h'

/-- Ids of one group have the same outcomes. -/
theorem Outcome.congr {s t : Bytes} (hgroup : SameGroup X contents id id') :
    Outcome X contents B id s t ↔ Outcome X contents B id' s t := by
  have hiff (a : Bytes) : SameGroup X contents a id ↔ SameGroup X contents a id' :=
    ⟨fun h => h.trans hgroup, fun h => h.trans hgroup.symm⟩
  unfold Outcome pinsOf spellingsOf archiveOf DirectoryGroup
  simp only [hiff]

/-- The group that an occurrence belongs to, at its root. -/
theorem Scanned.exists_root (hs : Scanned B X contents G l) (hm : Mentions X contents id o) :
    ∃ r < G.groups.length, G.rootOf r = r ∧ SameGroup X contents id (l.label r) ∧
      o ∈ (G.groupOf r).occurrences := by
  obtain ⟨x, hx, rfl, -⟩ := hs.exists_mem_of_mentions hm
  have hroot : G.rootOf (G.rootOf x) = G.rootOf x := hs.holds.forest.rootOf_rootOf x
  have hlt := hs.holds.rootOf_lt hx
  have hsame : l.Same x (G.rootOf x) := (hs.holds.root_iff _ _).mp hroot.symm
  have hgroup := hs.sameGroup_of_same hsame
  exact ⟨G.rootOf x, hlt, hroot, hgroup, (hs.mem_occurrences hlt).mpr ⟨_, hgroup, hm⟩⟩

/-- Every occurrence becomes what its group calls for. -/
theorem Scanned.outcome (hs : Scanned (buffer f.index.names contents) f.index contents f.groups l)
    (hcontents : SeparatedTokens contents) (hm : Mentions f.index contents id o) :
    Outcome f.index contents (buffer f.index.names contents) id
      (Slots.read (buffer f.index.names contents) o.slot)
      (Slots.read (f.edits contents).buffer o.slot) := by
  obtain ⟨r, hr, hroot, hgroup, hmem⟩ := hs.exists_root hm
  have hprogress := progress_edits_all hs hcontents
  have hread := hprogress.read_done (p := (r, o.slot)) ⟨hr, hroot, o, hmem, rfl⟩ hr
  simp only at hread
  have huniform := hs.uniform hr (List.ne_nil_of_mem hmem)
    (fun _ => rfl : SameText _ (buffer f.index.names contents))
    (fun o => spelling_eq f.index.names contents o)
  have hbecomes := becomes_target huniform hmem
  rw [hread, Outcome.congr hgroup]
  rw [spelling_eq] at hbecomes
  have hspellings : {s | ∃ o ∈ (f.groups.groupOf r).occurrences,
      s = spelling f.index.names contents o} =
      spellingsOf f.index contents (buffer f.index.names contents) (l.label r) := by
    ext s
    simp only [Set.mem_ofPred_eq, spellingsOf, spelling_eq, hs.mem_occurrences hr]
    constructor
    · rintro ⟨o, ⟨id, hgroup, hm⟩, heq⟩
      exact ⟨id, o, hgroup, hm, heq⟩
    · rintro ⟨id, o, hgroup, hm, heq⟩
      exact ⟨o, ⟨id, hgroup, hm⟩, heq⟩
  have harchive : {s | ∃ o ∈ (f.groups.groupOf r).occurrences, o.content = none ∧
      s = spelling f.index.names contents o} =
      archiveOf f.index contents (buffer f.index.names contents) (l.label r) := by
    ext s
    simp only [Set.mem_ofPred_eq, archiveOf, spelling_eq, hs.mem_occurrences hr]
    constructor
    · rintro ⟨o, ⟨id, hgroup, hm⟩, hnone, heq⟩
      exact ⟨id, o, hgroup, hm, hnone, heq⟩
    · rintro ⟨id, o, hgroup, hm, hnone, heq⟩
      exact ⟨o, ⟨id, hgroup, hm⟩, hnone, heq⟩
  rw [hspellings, harchive, hs.pinsOf_eq hr, propext (hs.directory_iff hr)] at hbecomes
  exact hbecomes

end Pak
end Bg3le
