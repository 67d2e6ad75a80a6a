import Bg3le.Pak.OutcomeTheorems

/-!
# References agree with the entries that they name

After `unify`, a reference and the entry that it was linked to spell every component alike, unless
the component's group was left alone.
-/

namespace Bg3le
namespace Pak

variable {names newNames : List Bytes} {f : Fixer} {contents : List Content} {l : Ledger}
  {content out : Content} {t : LsfString} {c i : ℕ} {id id' : Bytes} {o o' : Occurrence}

/-- A group that `unify` leaves alone: its pins conflict, or it is a directory that the archive
spells in more than one way. -/
def Group.LeftAlone (names : List Bytes) (group : Group) : Prop :=
  group.pinConflict = true ∨ (group.directory = true ∧
    ∃ o ∈ group.occurrences, ∃ o' ∈ group.occurrences, o.content = none ∧ o'.content = none ∧
      slice (names.getD o.index []) o.pos o.len ≠ slice (names.getD o'.index []) o'.pos o'.len)

instance (names : List Bytes) (group : Group) : Decidable (group.LeftAlone names) :=
  inferInstanceAs (Decidable (_ ∨ _))

/-- What a token's bytes in the output have to do with the new names of what it was linked to: its
components are those of the entry, or the stems of the icons. -/
structure Agrees (f : Fixer) (newNames : List Bytes) (content out : Content) (t : LsfString) : Prop where
  entry {i begin stop : ℕ} (htarget : f.index.targetOf content t = some (.entry i begin stop))
    {p : Part} (hp : p ∈ f.index.parts i) (hbegin : begin ≤ p.begin) (hstop : p.stop ≤ stop)
    (halone : ¬ (f.groups.groupOf p.group).LeftAlone f.index.names) :
    slice out.bytes (t.offset + (p.begin - begin)) (p.stop - p.begin) =
      slice (newNames.getD i []) p.begin (p.stop - p.begin)
  icons {entries : List ℕ} (htarget : f.index.targetOf content t = some (.icons entries)) {e : ℕ}
    (he : e ∈ entries) (halone : ¬ (f.groups.groupOf (f.index.stems e)).LeftAlone f.index.names) :
    ∃ p ∈ f.index.parts e, p.group = f.index.stems e ∧
      slice out.bytes t.offset t.length = slice (newNames.getD e []) p.begin (p.stop - p.begin)

/-- A token that names one entry is that entry's new name in the output. -/
def NamesEntry (f : Fixer) (newNames : List Bytes) (content out : Content) (t : LsfString) : Prop :=
  ∀ i, unique (f.index.full (lowered (slice content.bytes t.offset t.length))) = some i →
    (∀ p ∈ f.index.parts i, ¬ (f.groups.groupOf p.group).LeftAlone f.index.names) →
    (slice out.bytes t.offset t.length).map slashed = newNames.getD i []

/-! ## Occurrences of one group -/

/-- A group that is left alone for its ids is one for its own state. -/
theorem Scanned.leftAlone
    (hs : Scanned (buffer f.index.names contents) f.index contents f.groups l) {g : ℕ}
    (hg : g < f.groups.groups.length)
    (h : LeftAlone (pinsOf f.index contents (l.label g))
      (archiveOf f.index contents (buffer f.index.names contents) (l.label g))
      (DirectoryGroup f.index contents (l.label g))) :
    (f.groups.groupOf g).LeftAlone f.index.names := by
  rcases h with ⟨p, hp, p', hp', hne⟩ | ⟨-, hdir, a, ha, a', ha', hne⟩
  · left
    rw [← hs.pinsOf_eq hg] at hp hp'
    apply (hs.holds.pin hg).conflict.mpr
    by_cases heq : p = (f.groups.groupOf g).pin
    · exact ⟨p', hp', fun heq' => hne (heq.trans heq'.symm)⟩
    · exact ⟨p, hp, heq⟩
  · right
    obtain ⟨id, o, hgroup, hm, hnone, rfl⟩ := ha
    obtain ⟨id', o', hgroup', hm', hnone', rfl⟩ := ha'
    have hspelling (o : Occurrence) (hnone : o.content = none) :
        slice (f.index.names.getD o.index []) o.pos o.len =
          Slots.read (buffer f.index.names contents) o.slot := by
      rw [← spelling_eq]
      unfold spelling
      rw [hnone]
    refine ⟨(hs.directory_iff hg).mpr hdir, o, (hs.mem_occurrences hg).mpr ⟨id, hgroup, hm⟩,
      o', (hs.mem_occurrences hg).mpr ⟨id', hgroup', hm'⟩, hnone, hnone', ?_⟩
    rw [hspelling o hnone, hspelling o' hnone']
    exact hne

/-- Occurrences of one group agree in the end. -/
theorem Scanned.agree (hs : Scanned (buffer f.index.names contents) f.index contents f.groups l)
    (hcontents : SeparatedTokens contents) (hm : Mentions f.index contents id o)
    (hm' : Mentions f.index contents id' o') (hsame : SameGroup f.index contents id id') {g : ℕ}
    (hg : g < f.groups.groups.length) (hid : SameGroup f.index contents id (l.label g))
    (halone : ¬ (f.groups.groupOf g).LeftAlone f.index.names) :
    Slots.read (f.edits contents).buffer o.slot = Slots.read (f.edits contents).buffer o'.slot := by
  have hid' := hsame.symm.trans hid
  have houtcome := (Outcome.congr hid).mp (hs.outcome hcontents hm)
  have houtcome' := (Outcome.congr hid').mp (hs.outcome hcontents hm')
  have hspells := hs.spells hg ((hs.mem_occurrences hg).mpr ⟨id, hid, hm⟩)
  have hspells' := hs.spells hg ((hs.mem_occurrences hg).mpr ⟨id', hid', hm'⟩)
  exact Becomes.agree houtcome houtcome' ⟨id, o, hid, hm, rfl⟩ ⟨id', o', hid', hm', rfl⟩
    (hspells.lowered_eq.trans hspells'.lowered_eq.symm) hspells.noBackslash hspells'.noBackslash
    fun h => halone (hs.leftAlone hg h)

theorem buffer_content {E : Edits} (hout : E.contents[c]? = some out) :
    E.buffer (.inr c) = out.bytes := by
  show ((E.contents[c]?).map Content.bytes).getD [] = out.bytes
  rw [hout]
  rfl

/-- The components of linked tokens. -/
theorem Scanned.agrees (hs : Scanned (buffer f.index.names contents) f.index contents f.groups l)
    (hcontents : SeparatedTokens contents) (hc : contents[c]? = some content)
    (ht : t ∈ content.tokens) (hout : (f.edits contents).contents[c]? = some out) :
    Agrees f (f.edits contents).names content out t where
  entry {i begin stop} htarget {p} hp hbegin hstop halone := by
    have hspelled := hs.spelled ht htarget
    have hmem := hs.ready.part_mem hspelled.1 hp
    have hagree := hs.agree hcontents
      (.entry hc ht htarget (r := (p.begin, p.stop)) hmem hbegin hstop)
      (.name hspelled.1 (r := (p.begin, p.stop)) hmem) (.refl _) (hs.ready.part_lt hp) (.refl _)
      halone
    rw [← buffer_content hout]
    exact hagree
  icons {entries} htarget {e} he halone := by
    have hspelled := hs.spelled ht htarget
    have hlt := (hspelled.2.2 e he).1
    have hstem := hs.ready.stem hlt
    obtain ⟨p, hp, hlabel, hrange⟩ := hs.exists_part hlt
      (List.mem_append_right _ List.mem_cons_self : (stemId _, stemRange _) ∈ components _)
    have hgroup : p.group = f.index.stems e :=
      hs.eq_of_label (hs.ready.part_lt hp) hstem.1 (hlabel.trans hstem.2.symm)
    have hmem := hs.ready.part_mem hlt hp
    rw [hlabel] at hmem
    have hsame : SameGroup f.index contents (stemId (f.index.name e)) (l.label (f.index.stems e)) := by
      rw [hstem.2]
      exact .refl _
    have hagree := hs.agree hcontents (.icon hc ht htarget he)
      (.name hlt (r := (p.begin, p.stop)) hmem) (.refl _) hstem.1 hsame halone
    refine ⟨p, hp, hgroup, ?_⟩
    rw [← buffer_content hout]
    exact hagree

/-! ## Whole names -/

theorem targetOf_full (hlength : 3 ≤ t.length ∧ t.length ≤ 255)
    (hplain : ∀ b ∈ slice content.bytes t.offset t.length, 32 ≤ b)
    (hfull : unique (f.index.full (lowered (slice content.bytes t.offset t.length))) = some i) :
    f.index.targetOf content t = some (.entry i 0 (f.index.name i).length) := by
  unfold Index.targetOf Index.resolve
  rw [if_neg (by omega), if_neg]
  · simp only [hfull]
  · rw [List.any_eq_true]
    rintro ⟨b, hb, hlt⟩
    have := hplain b hb
    rw [decide_eq_true_eq] at hlt
    exact UInt8.not_le.mpr hlt this

/-- A place of a name that is in no component does not change. -/
theorem Scanned.name_rest (hs : Scanned (buffer f.index.names contents) f.index contents f.groups l)
    {k : ℕ} (hk : ∀ r ∈ layout (f.index.name i), ¬ (r.1 ≤ k ∧ k < r.2)) :
    ((f.edits contents).names.getD i [])[k]? = (f.index.name i)[k]? := by
  apply (Edited.all hs).rest (x := .inl i)
  rintro o ⟨id, hm⟩ ⟨hfile, hpos, hlt⟩
  cases hm with
  | @name j id r hj hr =>
    obtain rfl := Sum.inl.inj hfile
    have hmem := mem_layout_of_mem hr
    have hle := layout_le hmem
    apply hk r hmem
    simp only [Occurrence.slot] at hpos hlt
    omega
  | entry => cases hfile
  | icon => cases hfile

/-- A place of a linked token that is in no component does not change. -/
theorem Scanned.token_rest (hs : Scanned (buffer f.index.names contents) f.index contents f.groups l)
    (hcontents : SeparatedTokens contents) (hc : contents[c]? = some content)
    (ht : t ∈ content.tokens) {begin stop : ℕ}
    (htarget : f.index.targetOf content t = some (.entry i begin stop)) {k : ℕ}
    (hk : ∀ r ∈ layout (f.index.name i), ¬ (r.1 ≤ begin + k ∧ begin + k < r.2)) (hlt : k < t.length)
    (hout : (f.edits contents).contents[c]? = some out) :
    out.bytes[t.offset + k]? = content.bytes[t.offset + k]? := by
  have hrest := (Edited.all hs).rest (x := .inr c) (k := t.offset + k) (by
    rintro o ⟨id, hm⟩ ⟨hfile, hpos, hstop⟩
    have hcontent : o.content = some c := by
      cases hm with
      | name => cases hfile
      | entry => exact congrArg some (Sum.inr.inj hfile)
      | icon => exact congrArg some (Sum.inr.inj hfile)
    obtain ⟨t', ht', target', htarget', hpos', hstop', -, hspec⟩ :=
      hm.in_token hs.ready.indexed hc hcontent
    simp only [Occurrence.slot] at hpos hstop
    rcases Content.tokens_separated (hcontents content (List.mem_of_getElem? hc)) ht ht' with
      ⟨hoffset, hlength⟩ | hle | hle
    · obtain rfl := Content.targetOf_eq ht hoffset hlength htarget htarget'
      obtain ⟨r, hr, hbegin, -, rfl⟩ := hspec
      have hmem := mem_layout_of_mem hr
      have hle := layout_le hmem
      apply hk r hmem
      simp only at hpos hstop
      omega
    · omega
    · omega)
  rw [buffer_content hout] at hrest
  rw [hrest]
  show (((contents[c]?).map Content.bytes).getD [])[t.offset + k]? = _
  rw [hc]
  rfl

/-- A place between components is the separator of the name. -/
theorem slashed_eq_of_separator {a b : UInt8} (hb : b = 47 ∨ b = 46)
    (h : lower (slashed a) = lower (slashed b)) : slashed a = b := by
  rcases hb with rfl | rfl
  · rcases (lower_slashed_eq_slash a).mp h with rfl | rfl
    · rfl
    · rfl
  · rw [(lower_slashed_eq_dot a).mp h]
    rfl

/-- A token that names an entry is its new name. -/
theorem Scanned.namesEntry (hs : Scanned (buffer f.index.names contents) f.index contents f.groups l)
    (hcontents : SeparatedTokens contents) (hc : contents[c]? = some content)
    (ht : t ∈ content.tokens) (hlength : 3 ≤ t.length ∧ t.length ≤ 255)
    (hplain : ∀ b ∈ slice content.bytes t.offset t.length, 32 ≤ b)
    (hout : (f.edits contents).contents[c]? = some out) :
    NamesEntry f (f.edits contents).names content out t := by
  intro i hfull halone
  have htarget := targetOf_full hlength hplain hfull
  have hspelled := hs.spelled ht htarget
  have htoken := content.token_le ht
  have hsame := (Edited.all hs).sameText (.inl i)
  have hnew : ((f.edits contents).names.getD i []).map lower = (f.index.name i).map lower := hsame
  have hslash := not_mem_of_map_lower hnew (hs.ready.noBackslash i)
  have hnameLength : (f.index.name i).length = t.length := by
    have := (hs.ready.indexed.length_of_full hfull).2.1
    rwa [length_lowered, length_slice htoken] at this
  have hnewLength : ((f.edits contents).names.getD i []).length = t.length := by
    have := congrArg List.length hnew
    rwa [List.length_map, List.length_map, hnameLength] at this
  have hagrees := hs.agrees hcontents hc ht hout
  -- byte by byte: inside a component, and on the separators between them
  apply List.ext_getElem?
  intro k
  rw [List.getElem?_map, getElem?_slice]
  by_cases hk : k < t.length
  · rw [if_pos hk]
    by_cases hin : ∃ r ∈ layout (f.index.name i), r.1 ≤ k ∧ k < r.2
    · obtain ⟨r, hr, hle, hlt⟩ := hin
      rw [layout_eq] at hr
      obtain ⟨e, he, rfl⟩ := List.mem_map.mp hr
      obtain ⟨p, hp, -, heq⟩ := hs.exists_part hspelled.1 he
      have hentry := hagrees.entry htarget hp (Nat.zero_le _)
        (by
          have := (layout_le (mem_layout_of_mem he)).2
          rw [← heq] at this
          exact this) (halone p hp)
      rw [← heq] at hle hlt
      simp only at hle hlt
      have hget := congrArg (·[k - p.begin]?) hentry
      simp only [getElem?_slice] at hget
      rw [if_pos (by omega), if_pos (by omega)] at hget
      rw [show t.offset + (p.begin - 0) + (k - p.begin) = t.offset + k by omega,
        show p.begin + (k - p.begin) = k by omega] at hget
      rw [hget]
      cases hnewk : ((f.edits contents).names.getD i [])[k]? with
      | none => rfl
      | some b =>
        rw [Option.map_some, slashed_of_ne]
        rintro rfl
        exact hslash (List.mem_of_getElem? hnewk)
    -- outside the components nothing is written, and the token may have a backslash there
    · have hnone (r : ℕ × ℕ) (hr : r ∈ layout (f.index.name i)) : ¬ (r.1 ≤ k ∧ k < r.2) :=
        fun h => hin ⟨r, hr, h⟩
      rw [hs.name_rest hnone, hs.token_rest hcontents hc ht htarget
        (by simpa using hnone) hk hout]
      have hlowered := hspelled.2.2.2.2 k (by omega)
      rw [lowered_slice, getElem?_slice, if_pos hk, Nat.zero_add, getElem?_lowered,
        getElem?_lowered] at hlowered
      have hkn : k < (f.index.name i).length := by omega
      have hsep : (f.index.name i)[k] = 47 ∨ (f.index.name i)[k] = 46 := by
        rcases cover_layout hkn with h | h | h
        · left
          rwa [List.getElem?_eq_getElem hkn, Option.some.injEq] at h
        · right
          rwa [List.getElem?_eq_getElem hkn, Option.some.injEq] at h
        · exact absurd h hin
      rw [List.getElem?_eq_getElem hkn] at hlowered ⊢
      obtain ⟨a, ha, hlower⟩ := Option.map_eq_some_iff.mp hlowered
      rw [ha, Option.map_some, slashed_eq_of_separator hsep hlower]
  · rw [if_neg hk, List.getElem?_eq_none (by omega)]
    rfl

/-! ## The whole fixer -/

/-- What `unify` returns where no two names became one. -/
theorem Fixer.unify_some (h : (f.unify contents).names = some newNames) :
    newNames = (f.edits contents).names ∧ (f.unify contents).contents = (f.edits contents).contents ∧
      firstRepeat [] (f.edits contents).names = none := by
  unfold Fixer.unify at h ⊢
  have hedits : (List.range f.groups.groups.length).foldl f.unifyGroup ⟨f.index.names, contents, []⟩ =
    f.edits contents := rfl
  simp only [hedits] at h ⊢
  cases hrepeat : firstRepeat [] (f.edits contents).names with
  | none =>
    rw [hrepeat] at h
    exact ⟨(Option.some.inj h).symm, rfl, rfl⟩
  | some n =>
    rw [hrepeat] at h
    cases h

/-- Tokens and the entries that they were linked to agree in the output of the fixer. -/
theorem unify_agrees (hnames : ∀ name ∈ names, 92 ∉ name) (hcontents : SeparatedTokens contents)
    (hunify : (((Fixer.new names).scan contents).unify contents).names = some newNames)
    (hc : contents[c]? = some content)
    (hout : (((Fixer.new names).scan contents).unify contents).contents[c]? = some out)
    (ht : t ∈ content.tokens) :
    Agrees ((Fixer.new names).scan contents) newNames content out t ∧
      (3 ≤ t.length ∧ t.length ≤ 255 → (∀ b ∈ slice content.bytes t.offset t.length, 32 ≤ b) →
        NamesEntry ((Fixer.new names).scan contents) newNames content out t) := by
  obtain ⟨l, hs, heq⟩ := scanned_scan contents hnames
  obtain ⟨rfl, hcontentsEq, -⟩ := Fixer.unify_some hunify
  rw [hcontentsEq] at hout
  exact ⟨hs.agrees hcontents hc ht hout, fun hlength hplain =>
    hs.namesEntry hcontents hc ht hlength hplain hout⟩

/-- A file and one that names it in another case. -/
def listNames : List Bytes := [bytes "M/List.txt", bytes "M/Use.txt"]

def listContents : List Content := [Content.ofText 1 (bytes "\"M/liST.txt\"")]

/-- The reference is the list's new name afterwards. -/
theorem unify_agrees_list :
    (((Fixer.new listNames).scan listContents).unify listContents).names =
        some [bytes "M/list.txt", bytes "M/Use.txt"] ∧ ∀ out,
      (((Fixer.new listNames).scan listContents).unify listContents).contents[0]? = some out →
      Agrees ((Fixer.new listNames).scan listContents) [bytes "M/list.txt", bytes "M/Use.txt"]
          (Content.ofText 1 (bytes "\"M/liST.txt\"")) out ⟨1, 10, []⟩ ∧
        (3 ≤ 10 ∧ 10 ≤ 255 → (∀ b ∈ slice (bytes "\"M/liST.txt\"") 1 10, 32 ≤ b) →
          NamesEntry ((Fixer.new listNames).scan listContents) [bytes "M/list.txt", bytes "M/Use.txt"]
            (Content.ofText 1 (bytes "\"M/liST.txt\"")) out ⟨1, 10, []⟩) := by
  have hunify : (((Fixer.new listNames).scan listContents).unify listContents).names =
      some [bytes "M/list.txt", bytes "M/Use.txt"] := by decide +kernel
  exact ⟨hunify, fun _ hout => unify_agrees (c := 0) (by decide)
    (by simp [SeparatedTokens, listContents, Content.ofText]) hunify rfl hout (by decide +kernel)⟩

/-- Names of two bytes. -/
def shortNames : List Bytes := [bytes "AB", bytes "ab.txt"]

def shortContents : List Content := [Content.ofText 1 (bytes "\"AB\"")]

/-- A token of two bytes is linked to nothing: the entry that it names alone gets another name. -/
theorem unify_shortToken :
    (((Fixer.new shortNames).scan shortContents).unify shortContents).names =
        some [bytes "ab", bytes "ab.txt"] ∧
      (Content.ofText 1 (bytes "\"AB\"")).tokens = [⟨1, 2, []⟩] ∧
      (((Fixer.new shortNames).scan shortContents).unify shortContents).contents.map Content.bytes =
        [bytes "\"AB\""] ∧
      unique (((Fixer.new shortNames).scan shortContents).index.full
        (lowered (slice (bytes "\"AB\"") 1 2))) = some 0 ∧
      (∀ p ∈ ((Fixer.new shortNames).scan shortContents).index.parts 0,
        ¬ (((Fixer.new shortNames).scan shortContents).groups.groupOf p.group).LeftAlone shortNames) ∧
      ¬ NamesEntry ((Fixer.new shortNames).scan shortContents) [bytes "ab", bytes "ab.txt"]
        (Content.ofText 1 (bytes "\"AB\"")) (Content.ofText 1 (bytes "\"AB\"")) ⟨1, 2, []⟩ := by
  refine ⟨by decide +kernel, by decide +kernel, by decide +kernel, by decide +kernel,
    by decide +kernel, fun hnames => ?_⟩
  have heq := hnames 0 (by decide +kernel) (by decide +kernel)
  revert heq
  decide +kernel

end Pak
end Bg3le
