import Bg3le.Pak.LayoutTheorems
import Bg3le.Pak.Redirect
import Mathlib.Data.List.Forall2

/-!
# Archives are answered with their own copies

Over any run of requests an archive on disk is answered with nothing or with the copy that was
built from it, and with the same each time, as long as no table names it as the part of another
archive; what is not on disk is answered with nothing or with the archive it is part 1 of.
-/

namespace Bg3le
namespace Pak

variable {disk : Disk} {enabled : Bool} {path q answer : Bytes} {archive other : Archive}
  {cache : Files} {s s' : Redirects} {a b a' b' : Bytes}

/-! ## Paths -/

theorem slash_not_mem_decimal (z : ℤ) : 47 ∉ decimal z := by
  have hdigit : ∀ d < 10, (48 : UInt8) + d.toUInt8 ≠ 47 := by decide
  unfold decimal
  rw [List.mem_append, List.mem_map]
  rintro (hsign | ⟨d, hd, heq⟩)
  · split at hsign
    · exact absurd hsign (by decide)
    · exact List.not_mem_nil hsign
  · refine hdigit d ?_ heq
    split at hd
    · rw [List.mem_singleton.mp hd]
      decide
    · exact Nat.digits_lt_base (by decide) (List.mem_reverse.mp hd)

theorem slash_not_mem_copyKey (archive : Archive) : 47 ∉ Disk.copyKey archive := by
  unfold Disk.copyKey
  simp only [List.mem_append, slash_not_mem_decimal, not_or]
  decide

/-- The name of a copy has no slash. -/
theorem slash_not_mem_name (archive : Archive) {ext : Bytes} (hext : 47 ∉ ext) :
    47 ∉ Disk.copyKey archive ++ ext := by
  rw [List.mem_append, not_or]
  exact ⟨slash_not_mem_copyKey archive, hext⟩

/-- The last slash is the one before the name. -/
theorem rfind_append_slash (hb : 47 ∉ b) : rfind 47 (a ++ 47 :: b) = some a.length := by
  apply rfind_eq
  · rw [List.getElem?_append_right le_rfl, Nat.sub_self, List.getElem?_cons_zero]
  · intro j hj hget
    rw [List.getElem?_append_right hj.le, List.getElem?_cons, if_neg (by omega)] at hget
    exact hb (List.mem_of_getElem? hget)

/-- Behind it is the last component. -/
theorem lastComponent_append_slash (hb : 47 ∉ b) : lastComponent (a ++ 47 :: b) = b := by
  rw [lastComponent, rfind_append_slash hb]
  simp

/-- A path has one last component. -/
theorem append_slash_inj (hb : 47 ∉ b) (hb' : 47 ∉ b') (h : a ++ 47 :: b = a' ++ 47 :: b') :
    a = a' ∧ b = b' := by
  have hlength : a.length = a'.length := by
    rw [← Option.some.injEq, ← rfind_append_slash (a := a) hb, h, rfind_append_slash hb']
  obtain ⟨ha, hcons⟩ := List.append_inj h hlength
  exact ⟨ha, (List.cons.inj hcons).2⟩

/-- An archive is in the folder of the mods. -/
theorem Disk.path_eq (h : disk.archives path = some archive) :
    path = disk.mods ++ 47 :: lastComponent path ∧ 47 ∉ lastComponent path := by
  obtain ⟨leaf, hleaf, rfl⟩ := disk.inMods path (by rw [h]; rfl)
  rw [lastComponent_append_slash hleaf]
  exact ⟨rfl, hleaf⟩

/-- The copies of different archives are in different directories. -/
theorem Disk.copyDirectory_inj (h : disk.archives path = some archive)
    (h' : disk.archives q = some other) (heq : disk.copyDirectory path = disk.copyDirectory q) :
    path = q := by
  obtain ⟨hpath, -⟩ := disk.path_eq h
  obtain ⟨hq, -⟩ := disk.path_eq h'
  rw [hpath, hq, (List.cons.inj (List.append_cancel_left heq)).2]

/-- Two archives have different copies. -/
theorem Disk.copyPath_ne (h : disk.archives path = some archive)
    (h' : disk.archives q = some other) (hne : path ≠ q) :
    disk.copyPath path archive ≠ disk.copyPath q other := by
  intro heq
  obtain ⟨hdir, -⟩ := append_slash_inj (slash_not_mem_name archive (by decide))
    (slash_not_mem_name other (by decide)) heq
  exact hne (disk.copyDirectory_inj h h' hdir)

/-- A clean copy is not another one's split copy. -/
theorem Disk.cleanPath_ne (disk : Disk) : disk.cleanPath path archive ≠ disk.copyPath q other := by
  intro heq
  obtain ⟨-, hname⟩ := append_slash_inj (slash_not_mem_name archive (by decide))
    (slash_not_mem_name other (by decide)) heq
  have hlast := congrArg List.getLast? hname
  rw [List.getLast?_append, List.getLast?_append] at hlast
  change some (110 : UInt8) = some 107 at hlast
  exact absurd hlast (by decide)

theorem getLast?_of_iendsWith {suffix : Bytes} (h : iendsWith a suffix = true) (hne : suffix ≠ []) :
    a.getLast?.map lower = suffix.getLast?.map lower := by
  unfold iendsWith iequals at h
  simp only [Bool.and_eq_true, decide_eq_true_eq] at h
  have hpos := List.length_pos_iff.mpr hne
  have hlast := congrArg List.getLast? h.2
  rwa [List.getLast?_map, List.getLast?_map, List.getLast?_drop, if_neg (by omega)] at hlast

/-- No archive is in a directory that is called like one. -/
theorem Disk.copyPath_not_archive (hmod : modArchive path = true)
    (h : disk.archives path = some archive) : disk.archives (disk.copyPath path archive) = none := by
  cases hcopy : disk.archives (disk.copyPath path archive) with
  | none => rfl
  | some other =>
    obtain ⟨leaf, hleaf, heq⟩ := disk.inMods _ (by rw [hcopy]; rfl)
    obtain ⟨hdir, -⟩ := append_slash_inj (slash_not_mem_name archive (by decide)) hleaf heq
    obtain ⟨hpath, hslash⟩ := disk.path_eq h
    have hrfind := rfind_append_slash (a := disk.mods) hslash
    rw [← hpath] at hrfind
    unfold modArchive at hmod
    simp only [hrfind, Bool.and_eq_true] at hmod
    have hpak := getLast?_of_iendsWith hmod.1 (by decide)
    have hmods := getLast?_of_iendsWith hmod.2.2 (by decide)
    -- the Mods directory and the path would end alike
    have hsame : disk.mods.getLast? = path.getLast? := by
      have hpathLast := congrArg List.getLast? hpath
      rw [List.getLast?_append] at hpathLast
      rw [← hdir, Disk.copyDirectory, List.getLast?_append, hpathLast, List.getLast?_cons]
      rfl
    have htake : path.take disk.mods.length = disk.mods := by
      rw [hpath, List.take_left]
    rw [htake, hsame, hpak] at hmods
    exact absurd hmods (by decide)

/-! ## The cache -/

/-- What is in the cache as an archive's copy is what was built from the archive. -/
def Disk.Honest (disk : Disk) (cache : Files) : Prop :=
  ∀ path archive content, disk.archives path = some archive →
    cache (disk.copyPath path archive) = some content →
      (disk.pakFixBuild archive.content).2 = some content

/-- Pruning for one archive leaves the copies of the others. -/
theorem prune_copyPath (cache : Files) (h : disk.archives path = some archive) (h' : disk.archives q = some other)
    (hne : path ≠ q) :
    prune (disk.copyDirectory path) (Disk.copyKey archive) cache (disk.copyPath q other) =
      cache (disk.copyPath q other) := by
  unfold prune Disk.copyPath
  rw [if_neg]
  rw [rfind_append_slash (slash_not_mem_name other (by decide)), Option.getD_some,
    List.take_left]
  rintro ⟨hdir, -⟩
  exact hne (disk.copyDirectory_inj h h' hdir.symm)

/-- It leaves the present copy too. -/
theorem prune_self : prune (disk.copyDirectory path) (Disk.copyKey archive) cache
    (disk.copyPath path archive) = cache (disk.copyPath path archive) := by
  unfold prune Disk.copyPath
  rw [if_neg]
  rw [lastComponent_append_slash (slash_not_mem_name archive (by decide))]
  rintro ⟨-, hkeep⟩
  exact hkeep (List.prefix_append _ _)

/-- Building puts the copy in its place. -/
theorem Disk.built_self (disk : Disk) (cache : Files) :
    disk.built path archive cache (disk.copyPath path archive) =
      (disk.pakFixBuild archive.content).2.or (cache (disk.copyPath path archive)) := by
  unfold Disk.built
  cases (disk.pakFixBuild archive.content).2 with
  | none => rfl
  | some content => exact Function.update_self ..

/-- It leaves the other files. -/
theorem Disk.built_of_ne (cache : Files) (h : q ≠ disk.copyPath path archive) :
    disk.built path archive cache q = cache q := by
  unfold Disk.built
  cases (disk.pakFixBuild archive.content).2 with
  | none => rfl
  | some content => exact Function.update_of_ne h _ _

/-- Preparing the copy of an archive answers with nothing or its copy, and leaves what the cache
has of the others. -/
structure Prepared (disk : Disk) (path : Bytes) (archive : Archive) (cache : Files) (copy : Bytes)
    (cache' : Files) : Prop where
  own : copy = [] ∨ copy = disk.copyPath path archive ∧ (cache' copy).isSome
  others {q : Bytes} {other : Archive} (h : disk.archives q = some other) (hne : path ≠ q) :
    cache' (disk.copyPath q other) = cache (disk.copyPath q other)
  honest : disk.Honest cache → disk.Honest cache'

/-- What preparing an archive leaves in the cache, and what it answers. -/
theorem Disk.prepare_spec (h : disk.archives path = some archive) (cache : Files) :
    Prepared disk path archive cache (disk.prepare path cache).1 (disk.prepare path cache).2 := by
  unfold Disk.prepare
  simp only [h]
  split
  · exact ⟨.inl rfl, fun _ _ => rfl, id⟩
  split
  · exact ⟨.inl rfl, fun _ _ => rfl, id⟩
  split
  · next hcopy => exact ⟨.inr ⟨rfl, hcopy⟩, fun _ _ => rfl, id⟩
  next hnone =>
  generalize hbuilt : disk.built path archive
    (prune (disk.copyDirectory path) (Disk.copyKey archive) cache) = built
  -- the copy has a name of its own, so the copies of other archives stay
  have hothers {q : Bytes} {other : Archive} (h' : disk.archives q = some other) (hne : path ≠ q) :
      built (disk.copyPath q other) = cache (disk.copyPath q other) := by
    rw [← hbuilt, disk.built_of_ne _ (disk.copyPath_ne h h' hne).symm, prune_copyPath cache h h' hne]
  have hself : built (disk.copyPath path archive) = (disk.pakFixBuild archive.content).2 := by
    rw [Option.not_isSome_iff_eq_none] at hnone
    rw [← hbuilt, disk.built_self, prune_self, hnone, Option.or_none]
  -- the copy built is the archive's, and the others were right
  have hhonest (hcache : disk.Honest cache) : disk.Honest built := by
    intro q other content h' hcontent
    by_cases hq : path = q
    · subst hq
      obtain rfl : archive = other := Option.some.inj (h.symm.trans h')
      rwa [← hself]
    · rw [hothers h' hq] at hcontent
      exact hcache q other content h' hcontent
  split
  · exact ⟨.inl rfl, hothers, hhonest⟩
  split
  · have hclean {q : Bytes} {other : Archive} : Function.update built (disk.cleanPath path archive)
        (some []) (disk.copyPath q other) = built (disk.copyPath q other) :=
      Function.update_of_ne disk.cleanPath_ne.symm _ _
    refine ⟨.inl rfl, fun h' hne => hclean.trans (hothers h' hne), ?_⟩
    intro hcache q other content h' hcontent
    exact hhonest hcache q other content h' (hclean.symm.trans hcontent)
  · next hsome =>
    refine ⟨.inr ⟨rfl, ?_⟩, hothers, hhonest⟩
    simpa [Option.isSome_iff_ne_none] using hsome

/-! ## The tables -/

/-- `emplace` leaves an entry that is there. -/
theorem emplace_of_some {table : Bytes → Option Bytes} {key value : Bytes}
    (h : table q = some answer) : emplace table key value q = some answer := by
  unfold emplace
  split
  · exact h
  · next hnone =>
    rw [Function.update_of_ne, h]
    rintro rfl
    rw [h] at hnone
    exact hnone rfl

theorem emplace_self {table : Bytes → Option Bytes} {key value : Bytes} (h : table key = none) :
    emplace table key value key = some value := by
  unfold emplace
  rw [h, if_neg (by decide), Function.update_self]

/-- An entry is the new one, or was there. -/
theorem of_emplace {table : Bytes → Option Bytes} {key value : Bytes}
    (h : emplace table key value q = some answer) :
    table q = some answer ∨ q = key ∧ answer = value := by
  unfold emplace at h
  split at h
  · exact .inl h
  · by_cases hq : q = key
    · subst hq
      rw [Function.update_self] at h
      exact .inr ⟨rfl, (Option.some.inj h).symm⟩
    · rw [Function.update_of_ne hq] at h
      exact .inl h

/-- The answer that is given for a path. -/
structure Answers (disk : Disk) (cache : Files) (path answer : Bytes) : Prop where
  own {archive : Archive} (h : disk.archives path = some archive) :
    answer = [] ∨ answer = disk.copyPath path archive ∧ (cache answer).isSome
  missing (h : disk.archives path = none) :
    answer = [] ∨ (disk.archives answer).isSome ∧ path = partPath answer 1

/-- What the tables hold: parts of archives on disk, and answers. -/
structure Redirects.Sound (disk : Disk) (s : Redirects) : Prop where
  part {path original : Bytes} (h : s.parts path = some original) :
    (disk.archives original).isSome ∧ path = partPath original 1
  answers {path answer : Bytes} (h : s.redirects path = some answer) :
    Answers disk s.cache path answer
  swept {path answer : Bytes} (h : s.redirects path = some answer) : s.swept = true

/-- A later state remembers the answers, and its cache is as honest. -/
structure Redirects.Later (disk : Disk) (s s' : Redirects) : Prop where
  remembers {path answer : Bytes} (h : s.redirects path = some answer) :
    s'.redirects path = some answer
  honest : disk.Honest s.cache → disk.Honest s'.cache
  swept : s.swept = true → s'.swept = true

theorem Redirects.Later.refl (s : Redirects) : s.Later disk s := ⟨id, id, id⟩

/-- What comes later still is later. -/
theorem Redirects.Later.trans {s₁ s₂ s₃ : Redirects} (h : s₁.Later disk s₂) (h' : s₂.Later disk s₃) :
    s₁.Later disk s₃ :=
  ⟨fun hp => h'.remembers (h.remembers hp), fun hcache => h'.honest (h.honest hcache),
    fun hswept => h'.swept (h.swept hswept)⟩

/-- The tables begin empty. -/
theorem Redirects.Sound.start (cache : Files) : (Redirects.start cache).Sound disk :=
  ⟨fun h => absurd h (by simp [Redirects.start]), fun h => absurd h (by simp [Redirects.start]),
    fun h => absurd h (by simp [Redirects.start])⟩

/-- The sweep only removes files, and only before the first answer. -/
theorem Redirects.Sound.sweepOnce (hs : s.Sound disk) (path : Bytes) :
    (s.sweepOnce disk path).Sound disk ∧ s.Later disk (s.sweepOnce disk path) ∧
      (s.sweepOnce disk path).swept = true ∧ (s.sweepOnce disk path).parts = s.parts ∧
      (s.sweepOnce disk path).redirects = s.redirects := by
  unfold Redirects.sweepOnce
  split
  · next hswept => exact ⟨hs, .refl s, hswept, rfl, rfl⟩
  · next hswept =>
    refine ⟨⟨hs.part, fun h => absurd (hs.swept h) hswept, fun _ => rfl⟩, ⟨id, ?_, fun _ => rfl⟩, rfl,
      rfl, rfl⟩
    intro hcache q other content h' hcontent
    apply hcache q other content h'
    change disk.sweep _ s.cache _ = _ at hcontent
    unfold Disk.sweep at hcontent
    split at hcontent
    · simp only at hcontent
      split at hcontent
      · exact absurd hcontent (by simp)
      · exact hcontent
    · exact hcontent

/-- What preparing does to the cache, whether or not the path is that of an archive. -/
theorem Disk.prepare_later (disk : Disk) (path : Bytes) (cache : Files) :
    Answers disk (disk.prepare path cache).2 path (disk.prepare path cache).1 ∧
      ((disk.prepare path cache).1 ≠ [] → (disk.archives path).isSome) ∧
      (∀ q other, disk.archives q = some other → path ≠ q →
        (disk.prepare path cache).2 (disk.copyPath q other) = cache (disk.copyPath q other)) ∧
      (disk.Honest cache → disk.Honest (disk.prepare path cache).2) := by
  cases h : disk.archives path with
  | none =>
    have hprepare : disk.prepare path cache = ([], cache) := by
      unfold Disk.prepare
      rw [h]
    rw [hprepare]
    exact ⟨⟨fun _ => .inl rfl, fun _ => .inl rfl⟩, fun hne => absurd rfl hne, fun _ _ _ _ => rfl, id⟩
  | some archive =>
    have hprepared := disk.prepare_spec h cache
    refine ⟨⟨fun h' => ?_, fun h' => ?_⟩, fun _ => rfl, fun _ _ => hprepared.others,
      hprepared.honest⟩
    · obtain rfl := Option.some.inj (h.symm.trans h')
      exact hprepared.own
    · rw [h] at h'
      cases h'

/-- Preparing a copy adds its answer to the tables. -/
theorem Redirects.Sound.copied (hs : s.Sound disk) (path : Bytes) (hswept : s.swept = true)
    (hnew : s.redirects path = none) :
    (s.copied disk path).2.Sound disk ∧ s.Later disk (s.copied disk path).2 ∧
      (s.copied disk path).2.redirects path = some (s.copied disk path).1 := by
  obtain ⟨hanswer, harchive, hothers, hhonest⟩ := disk.prepare_later path s.cache
  have hremembers {q answer : Bytes} (h : s.redirects q = some answer) :
      (s.copied disk path).2.redirects q = some answer := emplace_of_some h
  refine ⟨⟨fun {q original} h => ?_, fun {q answer} h => ?_, fun _ => hswept⟩,
    ⟨hremembers, hhonest, id⟩, emplace_self hnew⟩
  · have hparts : (s.copied disk path).2.parts = if (disk.prepare path s.cache).1 ≠ [] ∧
        isSplit (disk.prepare path s.cache).2 (disk.prepare path s.cache).1 = true then
      emplace s.parts (partPath path 1) path else s.parts := rfl
    rw [hparts] at h
    split_ifs at h with hsplit
    · rcases of_emplace h with h | ⟨rfl, rfl⟩
      · exact hs.part h
      · exact ⟨harchive hsplit.1, rfl⟩
    · exact hs.part h
  · rcases of_emplace h with h | ⟨rfl, rfl⟩
    · have hne : path ≠ q := by
        rintro rfl
        rw [hnew] at h
        cases h
      have hold := hs.answers h
      refine ⟨fun h' => ?_, hold.missing⟩
      rcases hold.own h' with hnil | ⟨rfl, hcache⟩
      · exact .inl hnil
      · refine .inr ⟨rfl, ?_⟩
        rw [← hothers q _ h' hne] at hcache
        exact hcache
    · exact hanswer

/-! ## One request -/

/-- What is known, before or after, of an answer that no part is given for. -/
structure Answered (disk : Disk) (path : Bytes) (s s' : Redirects) (answer : Bytes) : Prop where
  sound : s'.Sound disk
  later : s.Later disk s'
  remembered : s.parts path = none → s'.redirects path = some answer
  part {original : Bytes} (h : s.parts path = some original) : answer = original

/-- An archive on disk is answered from the tables, or from its copy. -/
theorem Redirects.Sound.redirectLocked_archive (hs : s.Sound disk)
    (h : (disk.archives path).isSome = true) :
    Answered disk path s (redirectLocked disk path s).2 (redirectLocked disk path s).1 ∧
      ∀ q ≠ path, s.redirects q = none → (redirectLocked disk path s).2.redirects q = none := by
  rw [redirectLocked]
  split
  · next original hpart =>
    exact ⟨⟨hs, .refl s, fun hnone => absurd (hpart.symm.trans hnone) (by simp),
      fun h' => Option.some.inj (hpart.symm.trans h')⟩, fun _ _ => id⟩
  next hnone =>
  have hpart {original : Bytes} (h' : s.parts path = some original) {answer : Bytes} :
      answer = original := absurd (h'.symm.trans hnone) (by simp)
  split
  · next copy hcopy => exact ⟨⟨hs, .refl s, fun _ => hcopy, fun h' => hpart h'⟩, fun _ _ => id⟩
  next hnew =>
  obtain ⟨hs₁, hlater, hswept, hparts, hredirects⟩ := hs.sweepOnce path
  have hmissing : ¬ (archiveOfPart path ≠ [] ∧ (disk.archives path).isNone = true ∧
      (disk.archives (archiveOfPart path)).isSome = true) := by
    rintro ⟨-, hgone, -⟩
    rw [Option.isNone_iff_eq_none.mp hgone] at h
    cases h
  rw [dif_neg hmissing]
  obtain ⟨hs₂, hlater', hself⟩ := hs₁.copied path hswept (by rw [hredirects, hnew])
  refine ⟨⟨hs₂, hlater.trans hlater', fun _ => hself, fun h' => hpart h'⟩, fun q hq hnone => ?_⟩
  change emplace (s.sweepOnce disk path).redirects path _ q = none
  rw [hredirects, emplace, hnew, if_neg (by decide), Function.update_of_ne hq, hnone]

/-- A call answers from its tables or by preparing. -/
theorem Redirects.Sound.redirectLocked (hs : s.Sound disk) (path : Bytes) :
    Answered disk path s (redirectLocked disk path s).2 (redirectLocked disk path s).1 := by
  by_cases harchive : (disk.archives path).isSome = true
  · exact (hs.redirectLocked_archive harchive).1
  rw [Option.not_isSome_iff_eq_none] at harchive
  rw [Pak.redirectLocked]
  split
  · next original hpart =>
    exact ⟨hs, .refl s, fun hnone => absurd (hpart.symm.trans hnone) (by simp),
      fun h' => Option.some.inj (hpart.symm.trans h')⟩
  next hnone =>
  have hpart {original : Bytes} (h' : s.parts path = some original) {answer : Bytes} :
      answer = original := absurd (h'.symm.trans hnone) (by simp)
  split
  · next copy hcopy => exact ⟨hs, .refl s, fun _ => hcopy, fun h' => hpart h'⟩
  next hnew =>
  obtain ⟨hs₁, hlater, hswept, -, hredirects⟩ := hs.sweepOnce path
  have hnew₁ : (s.sweepOnce disk path).redirects path = none := by rw [hredirects, hnew]
  by_cases hmissing : archiveOfPart path ≠ [] ∧ (disk.archives path).isNone = true ∧
      (disk.archives (archiveOfPart path)).isSome = true
  · -- the archive is asked for, and then what it is part 1 of
    rw [dif_pos hmissing]
    obtain ⟨⟨hs₂, hlater', -, -⟩, helsewhere⟩ := hs₁.redirectLocked_archive hmissing.2.2
    have hne : path ≠ archiveOfPart path := fun heq =>
      (length_archiveOfPart_lt hmissing.1).ne (congrArg List.length heq).symm
    have hnew₂ := helsewhere path hne hnew₁
    refine ⟨⟨hs₂.part, fun {q answer} h => ?_, fun {q answer} h => ?_⟩,
      hlater.trans (hlater'.trans ⟨fun h => emplace_of_some h, id, id⟩), fun _ => emplace_self hnew₂,
      fun h' => hpart h'⟩
    · rcases of_emplace h with h | ⟨rfl, rfl⟩
      · exact hs₂.answers h
      · refine ⟨fun h' => absurd (h'.symm.trans harchive) (by simp), fun _ => ?_⟩
        cases hlookup : (Pak.redirectLocked disk (archiveOfPart q)
            (s.sweepOnce disk q)).2.parts q with
        | none => exact .inl rfl
        | some original => exact .inr (hs₂.part hlookup)
    · exact hlater'.swept hswept
  · rw [dif_neg hmissing]
    obtain ⟨hs₂, hlater', hself⟩ := hs₁.copied path hswept hnew₁
    exact ⟨hs₂, hlater.trans hlater', fun _ => hself, fun h' => hpart h'⟩

/-! ## Runs -/

/-- No request for an archive on disk comes when a table has the archive for a part of another. -/
def Unshadowed (disk : Disk) (enabled : Bool) : Redirects → List Bytes → Prop
  | _, [] => True
  | s, path :: paths => ((disk.archives path).isSome = true → s.parts path = none) ∧
      Unshadowed disk enabled (pakFixRedirect disk enabled path s).2 paths

/-- The answer is right for its path: an archive on disk is answered with nothing or the copy
built from it, and only what is not on disk is answered with an archive, whose part 1 it is. -/
structure Rightly (disk : Disk) (cache₀ : Files) (path : Bytes) (answer : Bytes × Files) : Prop where
  own {archive : Archive} (h : disk.archives path = some archive) : answer.1 = [] ∨
    answer.1 = disk.copyPath path archive ∧ (disk.Honest cache₀ →
      (answer.2 answer.1).isSome ∧ answer.2 answer.1 = (disk.pakFixBuild archive.content).2)
  part (h : (disk.archives answer.1).isSome = true) :
    disk.archives path = none ∧ path = partPath answer.1 1

theorem Disk.archives_nil (disk : Disk) : disk.archives [] = none := by
  cases h : disk.archives [] with
  | none => rfl
  | some archive =>
    obtain ⟨leaf, -, heq⟩ := disk.inMods [] (by rw [h]; rfl)
    exact absurd heq (by simp)

theorem rightly_nil {cache₀ : Files} : Rightly disk cache₀ path ([], cache) :=
  ⟨fun _ => .inl rfl, fun h => absurd h (by rw [disk.archives_nil]; decide)⟩

/-- The answer is right where no part shadows the path. -/
theorem Answered.rightly {cache₀ : Files} (h : Answered disk path s s' answer)
    (hmod : modArchive path = true) (hs : s.Sound disk)
    (hcache : disk.Honest cache₀ → disk.Honest s.cache)
    (hunshadowed : (disk.archives path).isSome = true → s.parts path = none) :
    Rightly disk cache₀ path (answer, s'.cache) := by
  cases hpath : disk.archives path with
  | some archive =>
    have hremembered := h.remembered (hunshadowed (by rw [hpath]; rfl))
    have hown := (h.sound.answers hremembered).own hpath
    constructor
    · intro archive' h'
      obtain rfl := Option.some.inj (hpath.symm.trans h')
      rcases hown with hnil | ⟨hcopy, hsome⟩
      · exact .inl hnil
      · refine .inr ⟨hcopy, fun hhonest => ⟨hsome, ?_⟩⟩
        obtain ⟨content, hcontent⟩ := Option.isSome_iff_exists.mp hsome
        have hmade := h.later.honest (hcache hhonest) path archive content hpath (hcopy ▸ hcontent)
        exact hcontent.trans hmade.symm
    · intro hanswer
      rcases hown with hnil | ⟨hcopy, -⟩
      · rw [hnil, disk.archives_nil] at hanswer
        cases hanswer
      · rw [hcopy, disk.copyPath_not_archive hmod hpath] at hanswer
        cases hanswer
  | none =>
    refine ⟨fun h' => absurd (h'.symm.trans hpath) (by simp), fun hanswer => ⟨hpath, ?_⟩⟩
    cases hparts : s.parts path with
    | some original =>
      rw [h.part hparts]
      exact (hs.part hparts).2
    | none =>
      rcases (h.sound.answers (h.remembered hparts)).missing hpath with hnil | ⟨-, hpart⟩
      · rw [hnil, disk.archives_nil] at hanswer
        cases hanswer
      · exact hpart

/-- What one request leaves. -/
theorem Redirects.Sound.pakFixRedirect (hs : s.Sound disk) (enabled : Bool) (path : Bytes) :
    (pakFixRedirect disk enabled path s).2.Sound disk ∧
      s.Later disk (pakFixRedirect disk enabled path s).2 := by
  unfold Pak.pakFixRedirect
  split
  · exact ⟨hs, .refl s⟩
  · have hanswered := hs.redirectLocked path
    exact ⟨hanswered.sound, hanswered.later⟩

/-- A request that was answered is answered the same for the rest of the run. -/
theorem redirectAll_remembered (hs : s.Sound disk) {paths : List Bytes}
    (hunshadowed : Unshadowed disk enabled s paths) (hpath : (disk.archives path).isSome = true)
    (hactive : (!modArchive path || !enabled) = false) (hanswer : s.redirects path = some answer)
    {j : ℕ} (hj : paths[j]? = some path) :
    ((redirectAll disk enabled s paths)[j]?).map Prod.fst = some answer := by
  induction paths generalizing s j with
  | nil => simp at hj
  | cons first paths ih =>
    obtain ⟨hfirst, hrest⟩ := hunshadowed
    cases j with
    | zero =>
      obtain rfl : first = path := by simpa using hj
      have hrequest : pakFixRedirect disk enabled first s = redirectLocked disk first s := by
        rw [Pak.pakFixRedirect, hactive, if_neg (by decide)]
      have hanswered := hs.redirectLocked first
      have hsame := hanswered.remembered (hfirst hpath)
      rw [hanswered.later.remembers hanswer, Option.some.injEq] at hsame
      rw [redirectAll, hrequest, hsame]
      rfl
    | succ j =>
      obtain ⟨hs', hlater⟩ := hs.pakFixRedirect enabled first
      exact ih hs' hrest (hlater.remembers hanswer) hj

/-- What is no mod archive is not answered. -/
theorem redirectAll_inactive {paths : List Bytes}
    (hinactive : (!modArchive path || !enabled) = true) {j : ℕ} (hj : paths[j]? = some path) :
    ((redirectAll disk enabled s paths)[j]?).map Prod.fst = some [] := by
  induction paths generalizing s j with
  | nil => simp at hj
  | cons first paths ih =>
    cases j with
    | zero =>
      obtain rfl : first = path := by simpa using hj
      rw [redirectAll, Pak.pakFixRedirect, hinactive, if_pos rfl]
      rfl
    | succ j => exact ih hj

/-- Requests for one archive get one answer. -/
theorem redirectAll_same (hs : s.Sound disk) {paths : List Bytes}
    (hunshadowed : Unshadowed disk enabled s paths) (hpath : (disk.archives path).isSome = true)
    {i j : ℕ} (hi : paths[i]? = some path) (hj : paths[j]? = some path) (hle : i ≤ j) :
    ((redirectAll disk enabled s paths)[i]?).map Prod.fst =
      ((redirectAll disk enabled s paths)[j]?).map Prod.fst := by
  cases hactive : (!modArchive path || !enabled) with
  | true => rw [redirectAll_inactive hactive hi, redirectAll_inactive hactive hj]
  | false =>
    induction paths generalizing s i j with
    | nil => simp at hj
    | cons first paths ih =>
      obtain ⟨hfirst, hrest⟩ := hunshadowed
      obtain ⟨hs', hlater⟩ := hs.pakFixRedirect enabled first
      cases i with
      | succ i =>
        cases j with
        | zero => exact absurd hle (Nat.not_succ_le_zero i)
        | succ j => exact ih hs' hrest hi hj (Nat.le_of_succ_le_succ hle)
      | zero =>
        obtain rfl : first = path := by simpa using hi
        cases j with
        | zero => rfl
        | succ j =>
          have hrequest : pakFixRedirect disk enabled first s = redirectLocked disk first s := by
            rw [Pak.pakFixRedirect, hactive, if_neg (by decide)]
          have hremembered := (hs.redirectLocked first).remembered (hfirst hpath)
          rw [← hrequest] at hremembered
          have hlast := redirectAll_remembered hs' hrest hpath hactive hremembered hj
          rw [redirectAll]
          exact hlast.symm

/-- So are the answers of any calls. -/
theorem redirectAll_rightly {cache₀ : Files} (hs : s.Sound disk) {paths : List Bytes}
    (hcache : disk.Honest cache₀ → disk.Honest s.cache)
    (hunshadowed : Unshadowed disk enabled s paths) :
    List.Forall₂ (Rightly disk cache₀) paths (redirectAll disk enabled s paths) := by
  induction paths generalizing s with
  | nil => exact .nil
  | cons first paths ih =>
    obtain ⟨hfirst, hrest⟩ := hunshadowed
    obtain ⟨hs', hlater⟩ := hs.pakFixRedirect enabled first
    have hright : Rightly disk cache₀ first ((pakFixRedirect disk enabled first s).1,
        (pakFixRedirect disk enabled first s).2.cache) := by
      unfold Pak.pakFixRedirect
      split
      · exact rightly_nil
      · next hactive =>
        simp only [Bool.or_eq_true, Bool.not_eq_true', not_or, Bool.not_eq_false] at hactive
        exact (hs.redirectLocked first).rightly hactive.1 hs hcache hfirst
    exact .cons hright (ih hs' (fun hhonest => hlater.honest (hcache hhonest)) hrest)

/-- In a run in which no archive on disk is asked for once it is taken for a part, every answer is
right, and requests for one archive get one answer. -/
theorem redirectAll_unshadowed (disk : Disk) (enabled : Bool) (cache : Files) (paths : List Bytes)
    (hunshadowed : Unshadowed disk enabled (.start cache) paths) :
    List.Forall₂ (Rightly disk cache) paths (redirectAll disk enabled (.start cache) paths) ∧
      ∀ (i j : ℕ) (path : Bytes), (disk.archives path).isSome = true → paths[i]? = some path →
        paths[j]? = some path →
        ((redirectAll disk enabled (.start cache) paths)[i]?).map Prod.fst =
          ((redirectAll disk enabled (.start cache) paths)[j]?).map Prod.fst := by
  refine ⟨redirectAll_rightly (.start cache) id hunshadowed, fun i j path hpath hi hj => ?_⟩
  rcases Nat.le_total i j with hle | hle
  · exact redirectAll_same (.start cache) hunshadowed hpath hi hj hle
  · exact (redirectAll_same (.start cache) hunshadowed hpath hj hi hle).symm

/-! ## An archive that is called like a part of another -/

/-- `X.pak` and `X_1.pak` are both on disk, and the copy of the first is split. -/
def twoArchives : Disk where
  mods := bytes "/Baldur's Gate 3/Mods"
  archives path :=
    if path = bytes "/Baldur's Gate 3/Mods/X.pak" then some ⟨[1], ⟨1, 0, 0⟩⟩
    else if path = bytes "/Baldur's Gate 3/Mods/X_1.pak" then some ⟨[2], ⟨1, 0, 0⟩⟩
    else none
  inMods path h := by
    split_ifs at h with hx hpart
    · exact ⟨bytes "X.pak", by decide, hx⟩
    · exact ⟨bytes "X_1.pak", by decide, hpart⟩
    · cases h
  dataHome := some (bytes "/data")
  home := none
  pakFixBuild content := (1, some (List.replicate 38 0 ++ (if content = [1] then [2, 0] else [1, 0])))

/-- The part's name first, then the archive it could be a part of. -/
def partFirst : List Bytes :=
  [bytes "/Baldur's Gate 3/Mods/X_1.pak", bytes "/Baldur's Gate 3/Mods/X.pak"]

/-- A part that is asked for before its archive. -/
theorem redirectAll_partFirst :
    List.Forall₂ (Rightly twoArchives fun _ => none) partFirst
        (redirectAll twoArchives true (.start fun _ => none) partFirst) ∧
      ∀ (i j : ℕ) (path : Bytes), (twoArchives.archives path).isSome = true →
        partFirst[i]? = some path → partFirst[j]? = some path →
        ((redirectAll twoArchives true (.start fun _ => none) partFirst)[i]?).map Prod.fst =
          ((redirectAll twoArchives true (.start fun _ => none) partFirst)[j]?).map Prod.fst :=
  redirectAll_unshadowed twoArchives true (fun _ => none) partFirst
    ⟨fun _ => rfl, fun _ => by decide +kernel, trivial⟩

/-- Asked for after `X.pak`, the archive `X_1.pak` is answered with `X.pak`. -/
theorem twoArchives_not_rightly : ¬ ∀ (disk : Disk) (enabled : Bool) (cache : Files)
    (paths : List Bytes),
    List.Forall₂ (Rightly disk cache) paths (redirectAll disk enabled (.start cache) paths) := by
  intro hall
  have hrightly := hall twoArchives true (fun _ => none) partFirst.reverse
  have hsecond := (List.forall₂_iff_get.mp hrightly).2 1 (by decide) (by decide +kernel)
  have hmissing := (hsecond.part (by decide +kernel)).1
  have hnone := congrArg Option.isSome hmissing
  revert hnone
  decide +kernel

end Pak
end Bg3le
