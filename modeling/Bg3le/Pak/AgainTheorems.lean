import Bg3le.Pak.ContextTheorems
import Bg3le.Pak.OrderTheorems

/-!
# The fixer over its own output

A second run finds the same references, and every spelling is what its group calls for already.
-/

namespace Bg3le
namespace Pak

variable {names newNames : List Bytes} {contents : List Content} {X : Index} {f f' : Fixer}
  {l l' : Ledger} {source raw field s t name word id : Bytes} {q : UInt8} {target : Target} {c k : ℕ}
  {content out : Content} {o : Occurrence}

/-- A name whose spellings in quotes are read alike in every case: it has no backslash and no quote,
and it does not end in what stands before a context, with or without its extension. -/
structure Plain (name : Bytes) : Prop where
  noBackslash : 92 ∉ name
  noQuote : 34 ∉ name ∧ 39 ∉ name
  noLead : ∀ word ∈ leadWords, iendsWith name word = false ∧
    iendsWith (name.take (stemRange name).2) word = false

/-! ## Tokens that lead somewhere -/

theorem iendsWith_iff : iendsWith s t = true ↔ t.map lower <:+ s.map lower := by
  unfold iendsWith iequals
  rw [List.suffix_iff_eq_drop, List.length_map, List.length_map, ← List.map_drop, Bool.and_eq_true,
    decide_eq_true_eq, decide_eq_true_eq]
  constructor
  · exact fun h => h.2.symm
  · intro h
    have hlength := congrArg List.length h
    rw [List.length_map, List.length_map, List.length_drop] at hlength
    exact ⟨by omega, h.symm⟩

theorem mem_lowered (hq : IsQuote q) (h : q ∈ s) : q ∈ lowered s := by
  have hmem := List.mem_map_of_mem (f := fun c => lower (slashed c)) h
  rcases hq with rfl | rfl <;> exact hmem

theorem mem_of_mem_lowered (hq : IsQuote q) (h : q ∈ lowered s) : q ∈ s := by
  obtain ⟨c, hc, hlower⟩ := List.mem_map.mp h
  have heq : slashed c = q := lower_eq_of_not_letter hq.not_letter.1 hlower
  unfold slashed at heq
  split at heq
  · rcases hq with rfl | rfl <;> cases heq
  · exact heq ▸ hc

theorem Plain.quote_not_mem (h : Plain name) (hq : IsQuote q) : q ∉ name := by
  rcases hq with rfl | rfl
  · exact h.noQuote.1
  · exact h.noQuote.2

theorem leadWord_lower (hword : word ∈ leadWords) : word.map lower = word := by
  have hall : ∀ word ∈ leadWords, word.map lower = word := by decide
  exact hall word hword

/-- A lead at the end of a token is at the end of its lower case. -/
theorem suffix_lowered (hword : word ∈ leadWords) (h : iendsWith raw word = true) :
    word <:+ lowered raw := by
  have hslashed : word.map slashed = word := by
    have hall : ∀ word ∈ leadWords, word.map slashed = word := by decide
    exact hall word hword
  rw [iendsWith_iff, leadWord_lower hword] at h
  have hmap := h.map slashed
  rw [hslashed, List.map_map] at hmap
  rwa [show lowered raw = raw.map (slashed ∘ lower) from
    List.map_congr_left fun c _ => CaseEq.lower_slashed c]

/-- A token whose lower case ends a name, or a name without its extension. -/
theorem plain_of_suffix (h : Plain name)
    (hraw : lowered raw <:+ lowered name ∨ lowered raw <:+ lowered (name.take (stemRange name).2)) :
    (∀ q, IsQuote q → q ∉ raw) ∧ ∀ word ∈ leadWords, iendsWith raw word = false := by
  constructor
  · intro q hq hmem
    have hmem := mem_lowered hq hmem
    apply h.quote_not_mem hq
    rcases hraw with hraw | hraw
    · exact mem_of_mem_lowered hq (hraw.mem hmem)
    · exact List.mem_of_mem_take (mem_of_mem_lowered hq (hraw.mem hmem))
  · intro word hword
    rw [Bool.eq_false_iff]
    intro hends
    have hlowered := suffix_lowered hword hends
    have hlead {s : Bytes} (hs : 92 ∉ s) (hsuffix : word <:+ lowered s) : iendsWith s word = true := by
      rw [iendsWith_iff, leadWord_lower hword, ← lowered_eq_map hs]
      exact hsuffix
    rcases hraw with hraw | hraw
    · have hname := hlead h.noBackslash (hlowered.trans hraw)
      rw [(h.noLead word hword).1] at hname
      cases hname
    · have hname := hlead (fun hmem => h.noBackslash (List.mem_of_mem_take hmem))
        (hlowered.trans hraw)
      rw [(h.noLead word hword).2] at hname
      cases hname

theorem map_lower_lowered (s : Bytes) : (lowered s).map lower = lowered s := by
  unfold lowered
  rw [List.map_map]
  exact List.map_congr_left fun c _ => lower_lower _

/-- The texture of a GUI metadata file is named with another extension. -/
theorem plain_of_texture {dir : Bytes} {n : ℕ} (h : Plain name)
    (hname : lowered name = dir ++ (lowered raw).take n ++ bytes ".dds")
    (hends : iendsWith (lowered raw) (bytes ".png") = true) (hn : n + 4 = raw.length) :
    (∀ q, IsQuote q → q ∉ raw) ∧ ∀ word ∈ leadWords, iendsWith raw word = false := by
  rw [iendsWith_iff, map_lower_lowered, show (bytes ".png").map lower = bytes ".png" by decide] at hends
  constructor
  · intro q hq hmem
    have hmem := mem_lowered hq hmem
    rw [← List.take_append_drop n (lowered raw), List.mem_append] at hmem
    rcases hmem with hmem | hmem
    · apply h.quote_not_mem hq
      apply mem_of_mem_lowered hq
      rw [hname]
      exact List.mem_append_left _ (List.mem_append_right _ hmem)
    · rw [List.suffix_iff_eq_drop, length_lowered, show (bytes ".png").length = 4 by decide,
        show raw.length - 4 = n by omega] at hends
      rw [← hends] at hmem
      have hall : ∀ c ∈ bytes ".png", c ≠ 34 ∧ c ≠ 39 := by decide +kernel
      rcases hq with rfl | rfl
      · exact (hall _ hmem).1 rfl
      · exact (hall _ hmem).2 rfl
  · intro word hword
    rw [Bool.eq_false_iff]
    intro hlead
    obtain ⟨u, hu⟩ := suffix_lowered hword hlead
    obtain ⟨u', hu'⟩ := hends
    have hall : ∀ word ∈ leadWords, word ≠ [] ∧ word.getLast? ≠ (bytes ".png").getLast? := by decide
    apply (hall word hword).2
    rw [← List.getLast?_append_of_ne_nil u (hall word hword).1, hu, ← hu',
      List.getLast?_append_of_ne_nil u' (by decide)]

/-- A token that leads to an entry has no quote in it, and it does not end in a lead. -/
theorem plain_of_resolve (hX : Indexed X) (hplain : ∀ i < X.names.length, Plain (X.name i))
    (h : X.resolve source raw raw.length field = some target) :
    (∀ q, IsQuote q → q ∉ raw) ∧ ∀ word ∈ leadWords, iendsWith raw word = false := by
  unfold Index.resolve at h
  split at h
  · cases h
  split at h
  · cases h
  simp only at h
  split at h
  · next i hfull =>
    obtain ⟨hi, -, hkey⟩ := hX.length_of_full hfull
    exact plain_of_suffix (hplain i hi) (.inl (hkey ▸ List.suffix_rfl))
  split at h
  · next i htail =>
    unfold Index.tail at htail
    split at htail
    · obtain ⟨hunique, -⟩ := Option.filter_eq_some_iff.mp htail
      have hmem := mem_of_unique hunique
      rw [hX.suffixes, List.mem_filter, List.mem_range, decide_eq_true_eq] at hmem
      obtain ⟨hi, slash, -, hkey⟩ := hmem
      exact plain_of_suffix (hplain i hi) (.inl (hkey ▸ List.drop_suffix _ _))
    · cases htail
  split at h
  · next hpng =>
    obtain ⟨i, hunique, rfl⟩ := Option.map_eq_some_iff.mp h
    obtain ⟨hi, -, hkey⟩ := hX.length_of_full hunique
    apply plain_of_texture (hplain i hi) hkey hpng.1
    have hends := hpng.1
    unfold iendsWith at hends
    simp only [Bool.and_eq_true, decide_eq_true_eq, length_lowered] at hends
    exact Nat.sub_add_cancel hends.1
  split at h
  · split at h
    · cases h
    · next hne =>
      obtain ⟨e, he⟩ := List.exists_mem_of_ne_nil _ hne
      rw [hX.icons, List.mem_filter, List.mem_range, decide_eq_true_eq] at he
      obtain ⟨he, -, hstem⟩ := he
      apply plain_of_suffix (hplain e he) (.inr _)
      rw [hstem, ← lowered_take]
      unfold stemText slice
      rw [← List.drop_take]
      exact List.drop_suffix _ _
  · cases h

/-! ## The archive after the edits -/

/-- A place of a text that was edited lies in a token between quotes. -/
theorem Scanned.enclosed (hs : Scanned (buffer f.index.names contents) f.index contents f.groups l)
    (hplain : ∀ i < f.index.names.length, Plain (f.index.name i)) (hc : contents[c]? = some content)
    (hlsf : content.lsf = false) (hout : (f.edits contents).contents[c]? = some out)
    (hk : content.text[k]? ≠ out.bytes[k]?) :
    ∃ start n, Enclosed content.text start n ∧ start ≤ k ∧ k < start + n := by
  have htext : content.bytes = content.text := by
    unfold Content.bytes
    rw [if_neg (by simp [hlsf])]
  -- a byte that changed belongs to an occurrence
  have hcovered : ∃ o id, Mentions f.index contents id o ∧ o.slot.Covers (.inr c) k := by
    by_contra hnone
    have hrest := (Edited.all hs).rest (x := .inr c) (k := k) fun o ⟨id, hm⟩ hcovers =>
      hnone ⟨o, id, hm, hcovers⟩
    rw [buffer_content hout] at hrest
    have hbuffer : buffer f.index.names contents (.inr c) = content.bytes := by
      show ((contents[c]?).map Content.bytes).getD [] = content.bytes
      rw [hc]
      rfl
    rw [hbuffer, htext] at hrest
    exact hk hrest.symm
  obtain ⟨o, id, hm, hfile, hpos, hlt⟩ := hcovered
  have hcontent : o.content = some c := by
    cases hm with
    | name => cases hfile
    | entry => exact congrArg some (Sum.inr.inj hfile)
    | icon => exact congrArg some (Sum.inr.inj hfile)
  -- and an occurrence lies in a token, which stands between quotes
  obtain ⟨t, ht, target, htarget, hstart, hstop, -, -⟩ := hm.in_token hs.ready.indexed hc hcontent
  have hpos : o.pos ≤ k := hpos
  have hlt : k < o.pos + o.len := hlt
  have hlength := content.token_le ht
  have hslice : (slice content.bytes t.offset t.length).length = t.length := length_slice hlength
  have htokens : t ∈ textTokens 0 [] 0 content.text := by
    unfold Content.tokens at ht
    rwa [if_neg (by simp [hlsf])] at ht
  obtain ⟨hfirst, q, hq, hbefore, hafter⟩ := textTokens_quotes [] rfl htokens
  have hresolve : f.index.resolve (f.index.name content.file) (slice content.bytes t.offset t.length)
      (slice content.bytes t.offset t.length).length t.attributeName = some target := by
    rw [hslice]
    exact htarget
  obtain ⟨hquotes, hleads⟩ := plain_of_resolve hs.ready.indexed hplain hresolve
  rw [htext] at hquotes hleads
  refine ⟨t.offset, t.length, ⟨hfirst, ⟨q, hq, hbefore⟩, ⟨q, hq, hafter⟩, ?_, ?_⟩, by omega, by omega⟩
  · intro k q hq hk hk' hget
    apply hquotes q hq
    apply List.mem_of_getElem? (i := k - t.offset)
    rw [getElem?_slice, if_pos (by omega), Nat.add_sub_cancel' hk]
    exact hget
  · exact fun hword => hleads _ hword

/-- The archive is alike after the edits. -/
theorem Scanned.alike_edits (hs : Scanned (buffer f.index.names contents) f.index contents f.groups l)
    (hplain : ∀ i < f.index.names.length, Plain (f.index.name i))
    (hX : X.names = (f.edits contents).names) :
    Alike (Equiv.refl ℕ) (Equiv.refl ℕ) f.index X contents (f.edits contents).contents where
  index := by
    refine ⟨fun i => ?_, fun i => ?_⟩
    · rw [hX, (Edited.all hs).names_length]
      rfl
    · unfold Index.name
      rw [hX]
      exact ((Edited.all hs).sameText (.inl i)).symm
  contents c := by
    have hedited := (Edited.all hs).contents_edited
    have hlength := hedited.length_eq
    rw [Equiv.refl_apply]
    cases hc : contents[c]? with
    | none =>
      rw [List.getElem?_eq_none_iff] at hc
      rw [List.getElem?_eq_none (by omega)]
      exact .none
    | some content =>
      obtain ⟨hlt, hget⟩ := List.getElem?_eq_some_iff.mp hc
      have hlt' : c < (f.edits contents).contents.length := by omega
      rw [List.getElem?_eq_getElem hlt']
      have hrel := (List.forall₂_iff_get.mp hedited).2 c hlt' hlt
      rw [List.get_eq_getElem, List.get_eq_getElem, hget] at hrel
      have hout : (f.edits contents).contents[c]? = some (f.edits contents).contents[c] :=
        List.getElem?_eq_getElem hlt'
      have hbytes : CaseEq content.bytes (f.edits contents).contents[c].bytes := by
        have hsame := (Edited.all hs).sameText (.inr c)
        rw [buffer_content hout] at hsame
        have hbuffer : buffer f.index.names contents (.inr c) = content.bytes := by
          show ((contents[c]?).map Content.bytes).getD [] = content.bytes
          rw [hc]
          rfl
        rw [hbuffer] at hsame
        exact hsame.symm
      refine .some ⟨hrel.file, hbytes, ?_⟩
      unfold Content.tokens
      rw [hrel.lsf]
      by_cases hlsf : content.lsf = true
      · rw [if_pos hlsf, if_pos hlsf, hrel.doc.stringValues]
        exact List.forall₂_same.mpr fun t _ => .refl t
      · rw [if_neg hlsf, if_neg hlsf]
        have hplainText : content.lsf = false := by simpa using hlsf
        -- in a text the tokens are found by its quotes and lines, and the edits touch neither
        have hdiff := fun k => hs.enclosed hplain hc hplainText hout (k := k)
        have htext : content.bytes = content.text := by
          unfold Content.bytes
          rw [if_neg hlsf]
        have htext' : (f.edits contents).contents[c].bytes = (f.edits contents).contents[c].text := by
          unfold Content.bytes
          rw [hrel.lsf, if_neg hlsf]
        rw [htext, htext'] at hbytes
        rw [htext'] at hdiff
        exact textTokens_alike [] [] 0 hbytes rfl (sameLeads hbytes hdiff) le_rfl

/-! ## What spellings become once more -/

section Settled

variable {ι : Type} {pins spellings archive K : Set Bytes} {directory : Prop} {M A F : Set ι}
  {r r₁ : ι → Bytes} {u : Bytes}

theorem Becomes.stays (h : Becomes pins spellings archive directory s t)
    (halone : LeftAlone pins archive directory) : t = s := by
  rcases halone with ⟨p, hp, p', hp', hne⟩ | ⟨hpins, hdir, a, ha, a', ha', hne⟩
  · exact h.unique (.conflict hp hp' hne)
  · exact h.unique (.several hpins hdir ha ha' hne)

theorem common_self (h : ∀ s ∈ spellings, s = u) : common spellings u = u := by
  apply List.ext_getElem?
  intro k
  unfold common
  rw [List.getElem?_mapIdx]
  cases hk : u[k]? with
  | none => rfl
  | some c =>
    rw [Option.map_some, if_neg]
    rintro ⟨s, hs, hne⟩
    exact hne (by rw [h s hs, hk])

/-- Spellings that have become what their group calls for stay so. `M` are the members of the group,
`A` those in names, and `F` those in names that the engine looks for. -/
theorem Becomes.settled (hA : A ⊆ M) (hF : F ⊆ M)
    (h : ∀ o ∈ M, Becomes (K ∪ r '' F) (r '' M) (r '' A) directory (r o) (r₁ o))
    (hagree : ¬ LeftAlone (K ∪ r '' F) (r '' A) directory → ∀ o ∈ M, ∀ o' ∈ M, r₁ o = r₁ o')
    {o : ι} (ho : o ∈ M) :
    Becomes (K ∪ r₁ '' F) (r₁ '' M) (r₁ '' A) directory (r₁ o) (r₁ o) := by
  -- left alone, nothing changed; else all have become one spelling, which is kept
  by_cases halone : LeftAlone (K ∪ r '' F) (r '' A) directory
  · have hsame (N : Set ι) (hN : N ⊆ M) : r₁ '' N = r '' N :=
      Set.image_congr fun x hx => (h x (hN hx)).stays halone
    have hbecomes := h o ho
    rw [hsame F hF, hsame M le_rfl, hsame A hA]
    rwa [(h o ho).stays halone] at hbecomes ⊢
  · have hall := fun x hx => hagree halone x hx o ho
    have hempty (hpins : K ∪ r '' F = ∅) : K ∪ r₁ '' F = ∅ := by
      rw [Set.union_empty_iff, Set.image_eq_empty] at hpins ⊢
      exact hpins
    have hcommon (u : Bytes) (hu : ∀ x ∈ M, r₁ x = u) (hpins : K ∪ r₁ '' F = ∅) (hdir : ¬ directory) :
        Becomes (K ∪ r₁ '' F) (r₁ '' M) (r₁ '' A) directory u u := by
      have hbecomes : Becomes (K ∪ r₁ '' F) (r₁ '' M) (r₁ '' A) directory u
          (Pak.common (r₁ '' M) u) :=
        .common hpins hdir
      rwa [common_self] at hbecomes
      rintro _ ⟨x, hx, rfl⟩
      exact hu x hx
    have hbecomes := h o ho
    generalize r₁ o = u at hall hbecomes ⊢
    cases hbecomes with
    | conflict hp hp' hne => exact absurd (.inl ⟨_, hp, _, hp', hne⟩) halone
    | several hpins hdir ha ha' hne => exact absurd (.inr ⟨hpins, hdir, _, ha, _, ha', hne⟩) halone
    | pin hp hpall =>
      apply Becomes.pin
      · rcases hp with hp | ⟨x, hx, -⟩
        · exact .inl hp
        · exact .inr ⟨x, hx, hall x (hF hx)⟩
      · rintro p' (hp' | ⟨x, hx, rfl⟩)
        · exact hpall p' (.inl hp')
        · exact hall x (hF hx)
    | archive hpins hdir ha _ =>
      obtain ⟨x, hx, -⟩ := ha
      refine Becomes.archive (hempty hpins) hdir ⟨x, hx, hall x (hA hx)⟩ ?_
      rintro a' ⟨y, hy, rfl⟩
      exact hall y (hA hy)
    | common hpins hdir => exact hcommon _ hall (hempty hpins) hdir

end Settled

/-! ## Groups by their members -/

/-- The occurrences of a group. -/
def members (X : Index) (contents : List Content) (id : Bytes) : Set Occurrence :=
  {o | ∃ id', SameGroup X contents id' id ∧ Mentions X contents id' o}

/-- The pins of a name that are the same in every case. -/
def SteadyPin (name id p : Bytes) : Prop :=
  (isTexture name = true ∧ id = bytes "x:" ++ lowered name ∧ p = bytes "DDS") ∨
    (isIcon name = true ∧ (id, p) ∈ iconPins name)

/-- A component of a name that the engine looks for, which is pinned as it is. -/
def FixedComponent (name id : Bytes) (r : ℕ × ℕ) : Prop :=
  fixedName (lastComponent name) = true ∧ (id, r) ∈ components name ∧ isDirectory id = false

def steadyPins (X : Index) (contents : List Content) (id : Bytes) : Set Bytes :=
  {p | ∃ id', SameGroup X contents id' id ∧ ∃ i < X.names.length, SteadyPin (X.name i) id' p}

def fixedOccurrences (X : Index) (contents : List Content) (id : Bytes) : Set Occurrence :=
  {o | ∃ id', SameGroup X contents id' id ∧ ∃ i < X.names.length, ∃ r,
    FixedComponent (X.name i) id' r ∧ o = ⟨none, i, r.1, r.2 - r.1⟩}

theorem mem_namePins {p : Bytes} : (id, p) ∈ namePins name ↔
    SteadyPin name id p ∨ ∃ r, FixedComponent name id r ∧ p = slice name r.1 (r.2 - r.1) := by
  have hfixed : (id, p) ∈ fixedPins name ↔
      ∃ r, ((id, r) ∈ components name ∧ isDirectory id = false) ∧ p = slice name r.1 (r.2 - r.1) := by
    unfold fixedPins
    simp only [List.mem_map, List.mem_filter, Prod.exists, Prod.mk.injEq, decide_eq_true_eq,
      Bool.not_eq_true]
    constructor
    · rintro ⟨_, begin, stop, hc, rfl, rfl⟩
      exact ⟨begin, stop, hc, rfl⟩
    · rintro ⟨begin, stop, hc, rfl⟩
      exact ⟨id, begin, stop, hc, rfl, rfl⟩
  unfold namePins SteadyPin FixedComponent
  rw [List.mem_append, List.mem_append, List.mem_ite_nil_right, List.mem_ite_nil_right,
    List.mem_ite_nil_right, hfixed, List.mem_singleton, Prod.mk.injEq]
  constructor
  · rintro ((⟨hname, r, hr, hp⟩ | htexture) | hicon)
    · exact .inr ⟨r, ⟨hname, hr⟩, hp⟩
    · exact .inl (.inl htexture)
    · exact .inl (.inr hicon)
  · rintro ((htexture | hicon) | ⟨r, ⟨hname, hr⟩, hp⟩)
    · exact .inl (.inr htexture)
    · exact .inr hicon
    · exact .inl (.inl ⟨hname, r, hr, hp⟩)

theorem pinsOf_union (X : Index) (contents : List Content) (id : Bytes) :
    pinsOf X contents id = steadyPins X contents id ∪
      (fun o => Slots.read (buffer X.names contents) (Occurrence.slot o)) ''
        fixedOccurrences X contents id := by
  ext p
  constructor
  · rintro ⟨id', hgroup, i, hi, hpin⟩
    rcases mem_namePins.mp hpin with hsteady | ⟨r, hr, rfl⟩
    · exact .inl ⟨id', hgroup, i, hi, hsteady⟩
    · exact .inr ⟨_, ⟨id', hgroup, i, hi, r, hr, rfl⟩, rfl⟩
  · rintro (⟨id', hgroup, i, hi, hsteady⟩ | ⟨_, ⟨id', hgroup, i, hi, r, hr, rfl⟩, rfl⟩)
    · exact ⟨id', hgroup, i, hi, mem_namePins.mpr (.inl hsteady)⟩
    · exact ⟨id', hgroup, i, hi, mem_namePins.mpr (.inr ⟨r, hr, rfl⟩)⟩

theorem spellingsOf_eq (X : Index) (contents : List Content) (B : ℕ ⊕ ℕ → Bytes) (id : Bytes) :
    spellingsOf X contents B id =
      (fun o => Slots.read B (Occurrence.slot o)) '' members X contents id := by
  ext s
  constructor
  · rintro ⟨id', o, hgroup, hm, rfl⟩
    exact ⟨o, ⟨id', hgroup, hm⟩, rfl⟩
  · rintro ⟨o, ⟨id', hgroup, hm⟩, rfl⟩
    exact ⟨id', o, hgroup, hm, rfl⟩

theorem archiveOf_eq (X : Index) (contents : List Content) (B : ℕ ⊕ ℕ → Bytes) (id : Bytes) :
    archiveOf X contents B id = (fun o => Slots.read B (Occurrence.slot o)) ''
      {o | o ∈ members X contents id ∧ o.content = none} := by
  ext s
  constructor
  · rintro ⟨id', o, hgroup, hm, hnone, rfl⟩
    exact ⟨o, ⟨⟨id', hgroup, hm⟩, hnone⟩, rfl⟩
  · rintro ⟨o, ⟨⟨id', hgroup, hm⟩, hnone⟩, rfl⟩
    exact ⟨id', o, hgroup, hm, hnone, rfl⟩

theorem fixedOccurrences_subset (X : Index) (contents : List Content) (id : Bytes) :
    fixedOccurrences X contents id ⊆ members X contents id := by
  rintro _ ⟨id', hgroup, i, hi, r, ⟨-, hr, -⟩, rfl⟩
  exact ⟨id', hgroup, .name hi hr⟩

section Same

variable {contents' : List Content} (h : Alike (Equiv.refl ℕ) (Equiv.refl ℕ) f.index X contents contents')
  (hX : Indexed f.index) (hX' : Indexed X)

theorem Occurrence.moved_refl (o : Occurrence) : o.moved (Equiv.refl ℕ) (Equiv.refl ℕ) = o := by
  obtain ⟨content, index, pos, len⟩ := o
  cases content <;> rfl

include h hX hX'

theorem Alike.members_eq (id : Bytes) : members X contents' id = members f.index contents id := by
  have hsub {X X' : Index} {contents contents' : List Content}
      (h : Alike (Equiv.refl ℕ) (Equiv.refl ℕ) X X' contents contents') (hX : Indexed X)
      (hX' : Indexed X') : members X contents id ⊆ members X' contents' id := by
    rintro o ⟨id', hgroup, hm⟩
    have hmoved := h.mentions hX hX' hm
    rw [Occurrence.moved_refl] at hmoved
    exact ⟨id', (h.sameGroup hX hX').mp hgroup, hmoved⟩
  exact (hsub h.symm hX' hX).antisymm (hsub h hX hX')

theorem Alike.steadyPins_eq (id : Bytes) :
    steadyPins X contents' id = steadyPins f.index contents id := by
  have hsteady (i : ℕ) (id' p : Bytes) : SteadyPin (X.name i) id' p ↔ SteadyPin (f.index.name i) id' p := by
    have hname : CaseEq (f.index.name i) (X.name i) := h.index.name i
    unfold SteadyPin
    rw [hname.isTexture, hname.lowered, hname.isIcon, hname.iconPins]
  have hlt (i : ℕ) : i < X.names.length ↔ i < f.index.names.length := h.index.lt_iff i
  unfold steadyPins
  simp only [h.sameGroup hX hX', hsteady, hlt]

theorem Alike.fixedOccurrences_eq (id : Bytes) :
    fixedOccurrences X contents' id = fixedOccurrences f.index contents id := by
  have hfixed (i : ℕ) (id' : Bytes) (r : ℕ × ℕ) :
      FixedComponent (X.name i) id' r ↔ FixedComponent (f.index.name i) id' r := by
    have hname : CaseEq (f.index.name i) (X.name i) := h.index.name i
    unfold FixedComponent
    rw [hname.lastComponent.fixedName, hname.components]
  have hlt (i : ℕ) : i < X.names.length ↔ i < f.index.names.length := h.index.lt_iff i
  unfold fixedOccurrences
  simp only [h.sameGroup hX hX', hfixed, hlt]

theorem Alike.directory_eq (id : Bytes) :
    DirectoryGroup X contents' id ↔ DirectoryGroup f.index contents id :=
  (h.directoryGroup hX hX').symm

end Same

/-- Every spelling after the edits is what its group calls for in the archive that they make. -/
theorem Scanned.settled (hs : Scanned (buffer f.index.names contents) f.index contents f.groups l)
    (hcontents : SeparatedTokens contents)
    (h : Alike (Equiv.refl ℕ) (Equiv.refl ℕ) f.index X contents (f.edits contents).contents)
    (hX : X.names = (f.edits contents).names) (hX' : Indexed X) (hm : Mentions f.index contents id o) :
    Outcome X (f.edits contents).contents (f.edits contents).buffer id
      (Slots.read (f.edits contents).buffer o.slot) (Slots.read (f.edits contents).buffer o.slot) := by
  have hindexed := hs.ready.indexed
  have hB : buffer X.names (f.edits contents).contents = (f.edits contents).buffer := by
    rw [hX]
    rfl
  unfold Outcome
  rw [pinsOf_union, spellingsOf_eq, archiveOf_eq, hB, h.members_eq hindexed hX',
    h.steadyPins_eq hindexed hX', h.fixedOccurrences_eq hindexed hX',
    propext (h.directory_eq hindexed hX' id)]
  -- what the first run made of each member, told by the group and not by the member
  have houtcome (x : Occurrence) (hx : x ∈ members f.index contents id) :
      Becomes (pinsOf f.index contents id)
        (spellingsOf f.index contents (buffer f.index.names contents) id)
        (archiveOf f.index contents (buffer f.index.names contents) id)
        (DirectoryGroup f.index contents id)
        (Slots.read (buffer f.index.names contents) x.slot)
        (Slots.read (f.edits contents).buffer x.slot) := by
    obtain ⟨id', hgroup, hm⟩ := hx
    exact (Outcome.congr hgroup).mp (hs.outcome hcontents hm)
  -- the members spell one name, so a group not left alone agrees on what it writes
  have hagree (halone : ¬ LeftAlone (pinsOf f.index contents id)
      (archiveOf f.index contents (buffer f.index.names contents) id)
      (DirectoryGroup f.index contents id)) (x : Occurrence) (hx : x ∈ members f.index contents id)
      (y : Occurrence) (hy : y ∈ members f.index contents id) :
      Slots.read (f.edits contents).buffer x.slot = Slots.read (f.edits contents).buffer y.slot := by
    obtain ⟨g, hg, -, hlabel, -⟩ := hs.exists_root hm
    have hspells (x : Occurrence) (hx : x ∈ members f.index contents id) :
        Spells (buffer f.index.names contents) x (l.text g) := by
      obtain ⟨id', hgroup, hm⟩ := hx
      exact hs.spells hg ((hs.mem_occurrences hg).mpr ⟨id', hgroup.trans hlabel, hm⟩)
    have hmember (x : Occurrence) (hx : x ∈ members f.index contents id) :
        Slots.read (buffer f.index.names contents) x.slot ∈
          spellingsOf f.index contents (buffer f.index.names contents) id := by
      rw [spellingsOf_eq]
      exact ⟨x, hx, rfl⟩
    exact Becomes.agree (houtcome x hx) (houtcome y hy) (hmember x hx) (hmember y hy)
      ((hspells x hx).lowered_eq.trans (hspells y hy).lowered_eq.symm) (hspells x hx).noBackslash
      (hspells y hy).noBackslash halone
  rw [pinsOf_union, archiveOf_eq] at hagree
  rw [pinsOf_union, spellingsOf_eq, archiveOf_eq] at houtcome
  exact Becomes.settled (fun x hx => hx.1) (fixedOccurrences_subset _ _ _) houtcome hagree
    ⟨id, .refl _, hm⟩

/-! ## A second run -/

/-- A new fixer over an archive: `scan`, then `unify`. -/
def runFixer (names : List Bytes) (contents : List Content) : Unified :=
  ((Fixer.new names).scan contents).unify contents

/-- Spellings that have settled are not edited. -/
theorem Scanned.edits_settled
    (hs : Scanned (buffer f.index.names contents) f.index contents f.groups l)
    (hcontents : SeparatedTokens contents)
    (hsettled : ∀ id o, Mentions f.index contents id o →
      Outcome f.index contents (buffer f.index.names contents) id
        (Slots.read (buffer f.index.names contents) o.slot)
        (Slots.read (buffer f.index.names contents) o.slot)) (x : ℕ ⊕ ℕ) :
    (f.edits contents).buffer x = buffer f.index.names contents x := by
  apply List.ext_getElem?
  intro k
  by_cases hcovered : ∃ o id, Mentions f.index contents id o ∧ o.slot.Covers x k
  · obtain ⟨o, id, hm, hcovers⟩ := hcovered
    have hread := (hs.outcome hcontents hm).unique (hsettled id o hm)
    exact Slots.getElem?_of_read hread hcovers
  · exact (Edited.all hs).rest fun o ⟨id, hm⟩ hcovers => hcovered ⟨o, id, hm, hcovers⟩

/-- A second run over what the first one made changes nothing. -/
theorem unify_again (hplain : ∀ name ∈ names, Plain name) (hcontents : SeparatedTokens contents)
    (hunify : (runFixer names contents).names = some newNames) :
    (runFixer newNames (runFixer names contents).contents).names = some newNames ∧
      (runFixer newNames (runFixer names contents).contents).contents.map Content.bytes =
        (runFixer names contents).contents.map Content.bytes := by
  unfold runFixer at hunify ⊢
  obtain ⟨l, hs, heq⟩ := scanned_scan contents fun name hname => (hplain name hname).noBackslash
  obtain ⟨rfl, hout, hrepeat⟩ := Fixer.unify_some hunify
  rw [hout]
  generalize (Fixer.new names).scan contents = f at *
  have hedited := Edited.all hs
  have hplain' : ∀ i < f.index.names.length, Plain (f.index.name i) := by
    intro i hi
    apply hplain
    unfold Index.name
    rw [heq] at hi ⊢
    rw [List.getD_eq_getElem?_getD, List.getElem?_eq_getElem hi]
    exact List.getElem_mem hi
  -- the new names and contents meet what the first run asked of the old ones
  have hbackslash : ∀ name ∈ (f.edits contents).names, 92 ∉ name := by
    intro name hname
    obtain ⟨i, hi⟩ := List.mem_iff_getElem?.mp hname
    have hsame := hedited.sameText (.inl i)
    have hnew : (f.edits contents).buffer (.inl i) = name := by
      show (f.edits contents).names.getD i [] = name
      rw [List.getD_eq_getElem?_getD, hi]
      rfl
    rw [hnew] at hsame
    exact not_mem_of_map_lower hsame (hs.ready.noBackslash i)
  have hcontents' : SeparatedTokens (f.edits contents).contents := by
    intro content hcontent hlsf
    obtain ⟨c, hc, hget⟩ := List.getElem_of_mem hcontent
    have hc' : c < contents.length := hedited.contents_edited.length_eq ▸ hc
    have hrel := (List.forall₂_iff_get.mp hedited.contents_edited).2 c hc hc'
    rw [List.get_eq_getElem, List.get_eq_getElem, hget] at hrel
    have hold := hcontents _ (List.getElem_mem hc') (hrel.lsf ▸ hlsf)
    unfold LsfDocument.Separated at hold ⊢
    rwa [hrel.doc.stringValues]
  obtain ⟨l', hs', heq'⟩ := scanned_scan (f.edits contents).contents hbackslash
  have halike := hs.alike_edits hplain' heq'
  have hbuffer := hs'.edits_settled hcontents' fun id o hm => by
    have hmoved := halike.symm.mentions hs'.ready.indexed hs.ready.indexed hm
    rw [show o.moved (Equiv.refl ℕ).symm (Equiv.refl ℕ).symm = o from o.moved_refl] at hmoved
    have hsettled := hs.settled hcontents halike heq' hs'.ready.indexed hmoved
    rw [heq']
    exact hsettled
  have hedited' := Edited.all hs'
  have hlength := hedited'.names_length
  have hcount := hedited'.contents_edited.length_eq
  rw [heq'] at hlength hbuffer
  generalize (Fixer.new (f.edits contents).names).scan (f.edits contents).contents = f' at *
  -- no buffer changes, so neither the names nor the contents do
  have hnames : (f'.edits (f.edits contents).contents).names = (f.edits contents).names := by
    apply List.ext_getElem hlength
    intro i hi hi'
    have hget : (f'.edits (f.edits contents).contents).names.getD i [] =
        (f.edits contents).names.getD i [] := hbuffer (.inl i)
    rw [List.getD_eq_getElem?_getD, List.getD_eq_getElem?_getD, List.getElem?_eq_getElem hi,
      List.getElem?_eq_getElem hi'] at hget
    exact hget
  have hbytes : (f'.edits (f.edits contents).contents).contents.map Content.bytes =
      (f.edits contents).contents.map Content.bytes := by
    apply List.ext_getElem (by simpa using hcount)
    intro c hc hc'
    rw [List.length_map] at hc hc'
    have hget : (((f'.edits (f.edits contents).contents).contents[c]?).map Content.bytes).getD [] =
        (((f.edits contents).contents[c]?).map Content.bytes).getD [] := hbuffer (.inr c)
    rw [List.getElem?_eq_getElem hc, List.getElem?_eq_getElem hc'] at hget
    simpa using hget
  obtain ⟨hsome, hfinal⟩ := (f'.unify_eq (f.edits contents).contents).1
    (hnames ▸ (nodup_of_firstRepeat hrepeat).1)
  rw [hsome, hfinal, hnames]
  exact ⟨rfl, hbytes⟩

theorem plain_listNames : ∀ name ∈ listNames, Plain name := by
  have hall : ∀ name ∈ listNames, 92 ∉ name ∧ (34 ∉ name ∧ 39 ∉ name) ∧
      ∀ word ∈ leadWords, iendsWith name word = false ∧
        iendsWith (name.take (stemRange name).2) word = false := by decide +kernel
  intro name hname
  obtain ⟨hbackslash, hquote, hlead⟩ := hall name hname
  exact ⟨hbackslash, hquote, hlead⟩

/-- The list and its use once more. -/
theorem unify_again_list : (runFixer [bytes "M/list.txt", bytes "M/Use.txt"]
    (runFixer listNames listContents).contents).names = some [bytes "M/list.txt", bytes "M/Use.txt"] :=
  (unify_again plain_listNames (by simp [SeparatedTokens, listContents, Content.ofText])
    (by decide +kernel)).1

/-- An entry that is named as what stands before a context, and an icon. -/
def iconNames : List Bytes :=
  [bytes "data ", bytes "M/GUI/Assets/Tooltips/Icons/Foo.DDS", bytes "use.txt"]

def iconContents : List Content := [Content.ofText 2 (bytes "\"DATA \"Icon\" 'foo'")]

/-- The first run makes `"data "` of the entry's reference, and what follows it is a context for the
second run, which then finds the icon. -/
theorem icon_again : ¬ ∀ (names newNames : List Bytes) (contents : List Content),
    (∀ name ∈ names, 92 ∉ name ∧ 34 ∉ name ∧ 39 ∉ name) → SeparatedTokens contents →
    (runFixer names contents).names = some newNames →
    (runFixer newNames (runFixer names contents).contents).names = some newNames ∧
      (runFixer newNames (runFixer names contents).contents).contents.map Content.bytes =
        (runFixer names contents).contents.map Content.bytes := by
  intro hall
  have hagain := (hall iconNames iconNames iconContents (by decide +kernel)
    (by simp [SeparatedTokens, iconContents, Content.ofText]) (by decide +kernel)).1
  revert hagain
  decide +kernel

end Pak
end Bg3le
