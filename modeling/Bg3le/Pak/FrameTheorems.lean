import Bg3le.Pak.AgreementTheorems

/-!
# What the fixer leaves as it is

Names and contents change in the case of letters only, and contents only inside of the references
that were recorded. Without success nothing counts as changed.
-/

namespace Bg3le
namespace Pak

variable {names newNames : List Bytes} {f : Fixer} {contents : List Content} {l : Ledger}
  {content out : Content} {c k : ℕ}

/-- A place of a content inside of a range that the groups recorded. -/
def Groups.Recorded (G : Groups) (c k : ℕ) : Prop :=
  ∃ group ∈ G.groups, ∃ o ∈ group.occurrences, o.content = some c ∧ o.pos ≤ k ∧ k < o.pos + o.len

/-- What becomes of one content. -/
structure KeepsText (G : Groups) (c : ℕ) (out content : Content) : Prop where
  length_eq : out.bytes.length = content.bytes.length
  rest {k : ℕ} (hk : ¬ G.Recorded c k) : out.bytes[k]? = content.bytes[k]?
  letters : out.bytes.map lower = content.bytes.map lower
  changed (hne : out.bytes ≠ content.bytes) : out.changed = true

theorem firstRepeat_cons (seen : List Bytes) (n : Bytes) (names : List Bytes) :
    firstRepeat seen (n :: names) =
      if n ∈ seen then some n else firstRepeat (n :: seen) names := rfl

theorem nodup_of_firstRepeat {seen : List Bytes} (h : firstRepeat seen names = none) :
    names.Nodup ∧ ∀ n ∈ names, n ∉ seen := by
  induction names generalizing seen with
  | nil => exact ⟨.nil, fun n hn => absurd hn List.not_mem_nil⟩
  | cons n names ih =>
    rw [firstRepeat_cons] at h
    split at h
    · cases h
    · next hnew =>
      obtain ⟨hnodup, hseen⟩ := ih h
      refine ⟨List.nodup_cons.mpr ⟨fun hmem => ?_, hnodup⟩, fun n' hn' => ?_⟩
      · exact hseen n hmem List.mem_cons_self
      · rcases List.mem_cons.mp hn' with rfl | hn'
        · exact hnew
        · exact fun hmem => hseen n' hn' (List.mem_cons_of_mem _ hmem)

/-- Every mentioned place of a content is recorded. -/
theorem Scanned.recorded (hs : Scanned B X contents G l) {o : Occurrence} {id : Bytes}
    (hm : Mentions X contents id o) (hcovers : o.slot.Covers (.inr c) k) : G.Recorded c k := by
  obtain ⟨r, hr, hroot, -, hmem⟩ := hs.exists_root hm
  obtain ⟨hfile, hpos, hlt⟩ := hcovers
  have hcontent : o.content = some c := by
    cases hm with
    | name => cases hfile
    | entry => exact congrArg some (Sum.inr.inj hfile)
    | icon => exact congrArg some (Sum.inr.inj hfile)
  have hgroup : G.groupOf r ∈ G.groups := by
    rw [Groups.groupOf, hroot, List.getD_eq_getElem?_getD, List.getElem?_eq_getElem hr]
    exact List.getElem_mem hr
  exact ⟨_, hgroup, o, hmem, hcontent, hpos, hlt⟩

/-- Contents are edited in letters, where a reference was recorded. -/
theorem Scanned.keepsText (hs : Scanned (buffer f.index.names contents) f.index contents f.groups l)
    (hc : contents[c]? = some content) (hout : (f.edits contents).contents[c]? = some out) :
    KeepsText f.groups c out content := by
  have hedited := Edited.all hs
  have hbuffer : buffer f.index.names contents (.inr c) = content.bytes := by
    show ((contents[c]?).map Content.bytes).getD [] = content.bytes
    rw [hc]
    rfl
  have hsame := hedited.sameText (.inr c)
  rw [buffer_content hout, hbuffer] at hsame
  refine ⟨?_, fun {k} hk => ?_, hsame, fun hne => ?_⟩
  · have := congrArg List.length hsame
    rwa [List.length_map, List.length_map] at this
  · have hrest := hedited.rest (x := .inr c) (k := k) (by
      rintro o ⟨id, hm⟩ hcovers
      exact hk (hs.recorded hm hcovers))
    rwa [buffer_content hout, hbuffer] at hrest
  · have hrel : out.Edited content := by
      have hall := List.forall₂_iff_get.mp hedited.contents_edited
      obtain ⟨hlt, hget⟩ := List.getElem?_eq_some_iff.mp hout
      obtain ⟨hlt', hget'⟩ := List.getElem?_eq_some_iff.mp hc
      have := hall.2 c hlt hlt'
      rw [List.get_eq_getElem, List.get_eq_getElem, hget, hget'] at this
      exact this
    rcases hrel.changed with hchanged | rfl
    · exact hchanged
    · exact absurd rfl hne

theorem Fixer.unify_none (h : (f.unify contents).names = none) :
    ∀ content ∈ (f.unify contents).contents, content.changed = false := by
  unfold Fixer.unify at h ⊢
  simp only at h ⊢
  split at h
  · intro content hcontent
    obtain ⟨content', -, rfl⟩ := List.mem_map.mp hcontent
    rfl
  · cases h

/-- `scan` and `unify` change the case of letters and nothing else. -/
theorem unify_frame (contents : List Content) (hnames : ∀ name ∈ names, 92 ∉ name) :
    (∀ newNames, (((Fixer.new names).scan contents).unify contents).names = some newNames →
      newNames.map (List.map lower) = names.map (List.map lower) ∧ newNames.Nodup ∧
        (((Fixer.new names).scan contents).unify contents).contents.length = contents.length ∧
        ∀ c content out, contents[c]? = some content →
          (((Fixer.new names).scan contents).unify contents).contents[c]? = some out →
          KeepsText ((Fixer.new names).scan contents).groups c out content) ∧
      ((((Fixer.new names).scan contents).unify contents).names = none →
        ∀ content ∈ (((Fixer.new names).scan contents).unify contents).contents,
          content.changed = false) := by
  refine ⟨fun newNames hunify => ?_, Fixer.unify_none⟩
  obtain ⟨l, hs, heq⟩ := scanned_scan contents hnames
  have hedited := Edited.all hs
  obtain ⟨rfl, hcontents, hrepeat⟩ := Fixer.unify_some hunify
  rw [hcontents]
  refine ⟨?_, (nodup_of_firstRepeat hrepeat).1, hedited.contents_edited.length_eq,
    fun c content out hc hout => hs.keepsText hc hout⟩
  have hindexNames : ((Fixer.new names).scan contents).index.names = names := heq
  have hlength := hedited.names_length
  rw [hindexNames] at hlength
  apply List.ext_getElem?
  intro i
  have hsame : (((((Fixer.new names).scan contents).edits contents).names.getD i []).map lower) =
      ((((Fixer.new names).scan contents).index.names.getD i []).map lower) :=
    hedited.sameText (.inl i)
  rw [hindexNames, List.getD_eq_getElem?_getD, List.getD_eq_getElem?_getD] at hsame
  rw [List.getElem?_map, List.getElem?_map]
  by_cases hi : i < names.length
  · rw [List.getElem?_eq_getElem hi, List.getElem?_eq_getElem (hlength ▸ hi)] at hsame ⊢
    exact congrArg some hsame
  · rw [List.getElem?_eq_none (by omega), List.getElem?_eq_none (by omega)]

/-- The list is renamed in the case of one letter. -/
theorem unify_frame_list :
    [bytes "M/list.txt", bytes "M/Use.txt"].map (List.map lower) = listNames.map (List.map lower) :=
  ((unify_frame listContents (by decide)).1 _ (by decide +kernel)).1

end Pak
end Bg3le
