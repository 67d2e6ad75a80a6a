import Bg3le.Pak.EditsTheorems

/-!
# The loop over the groups

Every round gives the occurrences of one group their target. Where no two tokens overlap, an
occurrence reads what its group calls for in the end.
-/

namespace Bg3le
namespace Pak

variable {B : ℕ ⊕ ℕ → Bytes} {f : Fixer} {contents : List Content} {E : Edits} {l : Ledger} {g n : ℕ}
  {o : Occurrence} {id id' : Bytes}

/-- The occurrences of all groups. -/
def mentioned (X : Index) (contents : List Content) : Set Occurrence := {o | ∃ id, Mentions X contents id o}

/-! ## One round -/

/-- One round, at the root of a group. -/
theorem Fixer.unifyGroup_root (hroot : f.groups.rootOf g = g) : f.unifyGroup E g =
    match (f.groups.groupOf g).target
      ((f.groups.groupOf g).occurrences.map (spelling f.index.names E.contents)) with
    | none => E
    | some target => ((f.groups.groupOf g).occurrences.zip
        ((f.groups.groupOf g).occurrences.map (spelling f.index.names E.contents))).foldl
          (f.edit target) E := by
  have hgroup : f.groups.groups.getD g Group.new = f.groups.groupOf g := by
    rw [Groups.groupOf, hroot]
  unfold Fixer.unifyGroup Group.target
  rw [Groups.find_snd, if_neg (not_not.mpr hroot), hgroup]
  simp only
  split
  · rfl
  · rfl

theorem Fixer.unifyGroup_other (hroot : f.groups.rootOf g ≠ g) : f.unifyGroup E g = E := by
  unfold Fixer.unifyGroup
  rw [Groups.find_snd, if_pos hroot]

/-- A group with an occurrence has one in a name. -/
theorem Scanned.exists_name (hs : Scanned B f.index contents f.groups l) (hg : g < f.groups.groups.length)
    (hne : (f.groups.groupOf g).occurrences ≠ []) :
    ∃ o ∈ (f.groups.groupOf g).occurrences, o.content = none := by
  obtain ⟨o, ho⟩ := List.exists_mem_of_ne_nil _ hne
  obtain ⟨id, hgroup, hm⟩ := (hs.mem_occurrences hg).mp ho
  have hname : ∃ i < f.index.names.length, ∃ r, (id, r) ∈ components (f.index.name i) := by
    cases hm with
    | name hi hr => exact ⟨_, hi, _, hr⟩
    | entry hc ht htarget hr _ _ => exact ⟨_, (hs.spelled ht htarget).1, _, hr⟩
    | icon hc ht htarget he =>
      exact ⟨_, ((hs.spelled ht htarget).2.2 _ he).1, _, List.mem_append_right _ List.mem_cons_self⟩
  obtain ⟨i, hi, r, hr⟩ := hname
  exact ⟨_, (hs.mem_occurrences hg).mpr ⟨id, hgroup, .name hi hr⟩, rfl⟩

/-- A group is uniform in buffers that differ in case only. -/
theorem Scanned.uniform (hs : Scanned B f.index contents f.groups l) (hg : g < f.groups.groups.length)
    (hne : (f.groups.groupOf g).occurrences ≠ []) {u : Occurrence → Bytes} {B' : ℕ ⊕ ℕ → Bytes}
    (hB : SameText B B') (hu : ∀ o, u o = Slots.read B' o.slot) :
    Uniform (f.groups.groupOf g) (l.pinsOf g) u (l.text g) where
  pinState := hs.holds.pin hg
  pins {p} hp := by
    obtain ⟨h, hmem, hsame⟩ := hp
    rw [← hs.holds.text_eq hsame]
    exact (hs.holds.pinned hmem).2
  spellings {o} ho := by
    have hspells := (hs.spells hg ho).of_sameText hB
    rw [hu]
    exact ⟨hspells.lowered_eq, hspells.noBackslash⟩
  archive := hs.exists_name hg hne

/-- The buffers that `unify` reads spellings from: names as they were, contents as they are. -/
theorem sameText_reading {names : List Bytes} (h : SameText (buffer names contents) E.buffer) :
    SameText (buffer names contents) (buffer names E.contents) := by
  intro x
  cases x with
  | inl i => rfl
  | inr c => exact h (.inr c)

/-- A round edits the occurrences of one group. -/
theorem Edited.unifyGroup (hs : Scanned (buffer f.index.names contents) f.index contents f.groups l)
    (h : Edited (buffer f.index.names contents) (mentioned f.index contents) f.index.names contents E)
    (hg : g < f.groups.groups.length) :
    Edited (buffer f.index.names contents) (mentioned f.index contents) f.index.names contents
      (f.unifyGroup E g) := by
  by_cases hroot : f.groups.rootOf g = g
  · rw [Fixer.unifyGroup_root hroot]
    by_cases hne : (f.groups.groupOf g).occurrences = []
    · rw [hne]
      split
      · exact h
      · exact h
    · have huniform := hs.uniform hg hne (sameText_reading h.sameText)
        (fun o => spelling_eq f.index.names E.contents o)
      split
      · exact h
      · next target htarget =>
        obtain ⟨hlowered, hslash⟩ := target_spec huniform htarget
        apply h.edits f _ hlowered hslash
        intro e he
        obtain ⟨hmem, -⟩ := mem_zip_map.mp he
        obtain ⟨id, -, hm⟩ := (hs.mem_occurrences hg).mp hmem
        exact ⟨⟨id, hm⟩, hs.spells hg hmem⟩
  · rw [Fixer.unifyGroup_other hroot]
    exact h

/-- What `unify` has edited when it has gone through all groups. -/
def Fixer.edits (f : Fixer) (contents : List Content) : Edits :=
  (List.range f.groups.groups.length).foldl f.unifyGroup ⟨f.index.names, contents, []⟩

/-- The names and the contents after all edits. -/
theorem Edited.all (hs : Scanned (buffer f.index.names contents) f.index contents f.groups l) :
    Edited (buffer f.index.names contents) (mentioned f.index contents) f.index.names contents
      (f.edits contents) := by
  have hrun (n : ℕ) (hn : n ≤ f.groups.groups.length) :
      Edited (buffer f.index.names contents) (mentioned f.index contents) f.index.names contents
        ((List.range n).foldl f.unifyGroup ⟨f.index.names, contents, []⟩) := by
    induction n with
    | zero => exact .start _ _ _
    | succ n ih =>
      rw [List.range_succ, List.foldl_append]
      exact (ih (Nat.le_of_succ_le hn)).unifyGroup hs hn
  exact hrun _ le_rfl

/-! ## Occurrences that are apart -/

/-- The string ranges of every binary content are disjoint or equal. -/
def SeparatedTokens (contents : List Content) : Prop :=
  ∀ content ∈ contents, content.lsf = true → content.doc.Separated

instance : Std.Symm fun r r' : Bytes × ℕ × ℕ =>
    r = r' ∨ r.2.2 < r'.2.1 ∨ r'.2.2 < r.2.1 where
  symm r r' h := by
    rcases h with heq | hlt | hlt
    · exact .inl heq.symm
    · exact .inr (.inr hlt)
    · exact .inr (.inl hlt)

/-- Two components of a name do not meet. -/
theorem components_apart {name : Bytes} {r r' : Bytes × ℕ × ℕ} (hr : r ∈ components name)
    (hr' : r' ∈ components name) : r = r' ∨ r.2.2 < r'.2.1 ∨ r'.2.2 < r.2.1 := by
  have hpairwise := pairwise_layout name
  rw [layout_eq, List.pairwise_map] at hpairwise
  have himp : (components name).Pairwise fun r r' => r = r' ∨ r.2.2 < r'.2.1 ∨ r'.2.2 < r.2.1 :=
    hpairwise.imp fun h => .inr (.inl h)
  exact himp.forall_of_forall (fun _ _ => .inl rfl) hr hr'

/-- The range of a token that an occurrence lies in. -/
theorem Mentions.in_token {X : Index} (hX : Indexed X) {c : ℕ} {content : Content}
    (hc : contents[c]? = some content) (hm : Mentions X contents id o) (ho : o.content = some c) :
    ∃ t ∈ content.tokens, ∃ target, X.targetOf content t = some target ∧ t.offset ≤ o.pos ∧
      o.pos + o.len ≤ t.offset + t.length ∧ Mentions X contents id o ∧ match target with
        | .entry i begin stop => ∃ r, (id, r) ∈ components (X.name i) ∧ begin ≤ r.1 ∧ r.2 ≤ stop ∧
            o = ⟨some c, 0, t.offset + (r.1 - begin), r.2 - r.1⟩
        | .icons entries => ∃ e ∈ entries, id = stemId (X.name e) ∧
            o = ⟨some c, 0, t.offset, t.length⟩ := by
  have hm' := hm
  cases hm with
  | name hi hr => cases ho
  | @entry c' i begin stop content' t id r hc' ht htarget hr hbegin hstop =>
    obtain rfl : c' = c := Option.some.inj ho
    obtain rfl : content' = content := Option.some.inj (hc'.symm.trans hc)
    obtain ⟨-, -, -, hlength, -⟩ := Index.spelled_targetOf hX ht htarget
    rw [length_slice (content'.token_le ht)] at hlength
    refine ⟨t, ht, _, htarget, ?_, ?_, hm', r, hr, hbegin, hstop, rfl⟩
    · exact Nat.le_add_right _ _
    · have := layout_le (mem_layout_of_mem hr)
      simp only
      omega
  | @icon c' e content' t entries hc' ht htarget he =>
    obtain rfl : c' = c := Option.some.inj ho
    obtain rfl : content' = content := Option.some.inj (hc'.symm.trans hc)
    exact ⟨t, ht, _, htarget, le_rfl, le_rfl, hm', e, he, rfl, rfl⟩

theorem Content.targetOf_eq {X : Index} {content : Content} {t t' : LsfString} (ht : t ∈ content.tokens)
    (hoffset : t.offset = t'.offset) (hlength : t.length = t'.length) {target target' : Target}
    (h : X.targetOf content t = some target) (h' : X.targetOf content t' = some target') :
    target = target' := by
  unfold Index.targetOf at h h'
  rw [← hoffset, ← hlength] at h'
  have hslice : (slice content.bytes t.offset t.length).length = t.length :=
    length_slice (content.token_le ht)
  generalize slice content.bytes t.offset t.length = raw at hslice h h'
  rw [← hslice] at h h'
  exact resolve_eq h h'

/-- Two occurrences are apart, or the same one of the same group. -/
theorem Mentions.apart {X : Index} (hX : Indexed X) (hcontents : SeparatedTokens contents)
    {o' : Occurrence} (hm : Mentions X contents id o) (hm' : Mentions X contents id' o') :
    (o.slot = o'.slot ∧ SameGroup X contents id id') ∨ Slots.Apart o.slot o'.slot := by
  cases hcontent : o.content with
  | none =>
    cases hcontent' : o'.content with
    | none =>
      cases hm with
      | entry => cases hcontent
      | icon => cases hcontent
      -- two names: components of one entry are apart, and names of two entries are two texts
      | @name i id r hi hr =>
        cases hm' with
        | entry => cases hcontent'
        | icon => cases hcontent'
        | @name i' id' r' hi' hr' =>
          by_cases heq : i = i'
          · subst heq
            rcases components_apart hr hr' with heq | hlt | hlt
            · obtain ⟨rfl, rfl⟩ := Prod.mk.inj heq
              exact .inl ⟨rfl, .refl _⟩
            · refine .inr (.inr (.inl ?_))
              show r.1 + (r.2 - r.1) ≤ r'.1
              have := layout_le (mem_layout_of_mem hr)
              simp only at hlt
              omega
            · refine .inr (.inr (.inr ?_))
              show r'.1 + (r'.2 - r'.1) ≤ r.1
              have := layout_le (mem_layout_of_mem hr')
              simp only at hlt
              omega
          · exact .inr (.inl fun hfile => heq (Sum.inl.inj hfile))
    | some c' =>
      refine .inr (.inl ?_)
      simp [Occurrence.slot, Occurrence.file, hcontent, hcontent']
  | some c =>
    cases hcontent' : o'.content with
    | none =>
      refine .inr (.inl ?_)
      simp [Occurrence.slot, Occurrence.file, hcontent, hcontent']
    | some c' =>
      by_cases heq : c = c'
      · subst heq
        -- both stand in one content, so each lies in a token of it
        have hsome : ∃ content, contents[c]? = some content := by
          cases hm with
          | name => cases hcontent
          | entry hc =>
            obtain rfl := Option.some.inj hcontent
            exact ⟨_, hc⟩
          | icon hc =>
            obtain rfl := Option.some.inj hcontent
            exact ⟨_, hc⟩
        obtain ⟨content, hc⟩ := hsome
        obtain ⟨t, ht, target, htarget, hpos, hstop, -, hspec⟩ := hm.in_token hX hc hcontent
        obtain ⟨t', ht', target', htarget', hpos', hstop', -, hspec'⟩ := hm'.in_token hX hc hcontent'
        rcases Content.tokens_separated (hcontents content (List.mem_of_getElem? hc)) ht ht' with
          ⟨hoffset, hlength⟩ | hle | hle
        -- the same range reads the same, so both are linked to one target
        · obtain rfl := Content.targetOf_eq ht hoffset hlength htarget htarget'
          cases target with
          | entry i begin stop =>
            obtain ⟨r, hr, hbegin, -, rfl⟩ := hspec
            obtain ⟨r', hr', hbegin', -, rfl⟩ := hspec'
            rcases components_apart hr hr' with heq | hlt | hlt
            · obtain ⟨rfl, rfl⟩ := Prod.mk.inj heq
              rw [hoffset]
              exact .inl ⟨rfl, .refl _⟩
            · refine .inr (.inr (.inl ?_))
              show t.offset + (r.1 - begin) + (r.2 - r.1) ≤ t'.offset + (r'.1 - begin)
              have := layout_le (mem_layout_of_mem hr)
              simp only at hlt
              omega
            · refine .inr (.inr (.inr ?_))
              show t'.offset + (r'.1 - begin) + (r'.2 - r'.1) ≤ t.offset + (r.1 - begin)
              have := layout_le (mem_layout_of_mem hr')
              simp only at hlt
              omega
          | icons entries =>
            obtain ⟨e, he, rfl, rfl⟩ := hspec
            obtain ⟨e', he', rfl, rfl⟩ := hspec'
            rw [hoffset, hlength]
            exact .inl ⟨rfl, .rel _ _ ⟨content, List.mem_of_getElem? hc, t, ht, entries, htarget, e, he,
              e', he', rfl, rfl⟩⟩
        · refine .inr (.inr (.inl ?_))
          show o.pos + o.len ≤ o'.pos
          omega
        · refine .inr (.inr (.inr ?_))
          show o'.pos + o'.len ≤ o.pos
          omega
      · refine .inr (.inl ?_)
        simpa [Occurrence.slot, Occurrence.file, hcontent, hcontent'] using heq

end Pak
end Bg3le
