import Bg3le.Pak.ScanTheorems

/-!
# What the case fixer is for

Components with the same path up to case are one group, and so are the stems of one icon. All
spellings of a group are to become one: its pin, the only spelling of a directory in the archive, or
what the spellings have in common. A group with two pins is left alone, and so is a directory that
the archive itself spells in two ways.
-/

namespace Bg3le
namespace Pak

section Outcome

open Classical in
/-- A spelling in lower case where another one of its group differs. -/
noncomputable def common (spellings : Set Bytes) (s : Bytes) : Bytes :=
  s.mapIdx fun k c => if ∃ s' ∈ spellings, s'[k]? ≠ some c then lower c else c

/-- What a spelling of a group becomes. -/
inductive Becomes (pins spellings archive : Set Bytes) (directory : Prop) (s : Bytes) : Bytes → Prop
  | conflict {p p' : Bytes} (hp : p ∈ pins) (hp' : p' ∈ pins) (hne : p ≠ p') :
    Becomes pins spellings archive directory s s
  | pin {p : Bytes} (hp : p ∈ pins) (hall : ∀ p' ∈ pins, p' = p) :
    Becomes pins spellings archive directory s p
  | several {a a' : Bytes} (hpins : pins = ∅) (hdir : directory) (ha : a ∈ archive)
    (ha' : a' ∈ archive) (hne : a ≠ a') : Becomes pins spellings archive directory s s
  | archive {a : Bytes} (hpins : pins = ∅) (hdir : directory) (ha : a ∈ archive)
    (hall : ∀ a' ∈ archive, a' = a) : Becomes pins spellings archive directory s a
  | common (hpins : pins = ∅) (hdir : ¬ directory) :
    Becomes pins spellings archive directory s (common spellings s)

variable {pins spellings archive : Set Bytes} {directory : Prop} {s s' t t' : Bytes}

/-- A spelling becomes one thing. -/
theorem Becomes.unique (h : Becomes pins spellings archive directory s t)
    (h' : Becomes pins spellings archive directory s t') : t = t' := by
  cases h with
  | conflict hp hp' hne =>
    cases h' with
    | conflict => rfl
    | pin _ hall => exact absurd ((hall _ hp).trans (hall _ hp').symm) hne
    | several hpins => exact absurd (hpins ▸ hp) (Set.notMem_empty _)
    | archive hpins => exact absurd (hpins ▸ hp) (Set.notMem_empty _)
    | common hpins => exact absurd (hpins ▸ hp) (Set.notMem_empty _)
  | pin hp hall =>
    cases h' with
    | conflict hq hq' hne => exact absurd ((hall _ hq).trans (hall _ hq').symm) hne
    | pin hq _ => exact (hall _ hq).symm
    | several hpins => exact absurd (hpins ▸ hp) (Set.notMem_empty _)
    | archive hpins => exact absurd (hpins ▸ hp) (Set.notMem_empty _)
    | common hpins => exact absurd (hpins ▸ hp) (Set.notMem_empty _)
  | several hpins hdir ha ha' hne =>
    cases h' with
    | conflict hp => exact absurd (hpins ▸ hp) (Set.notMem_empty _)
    | pin hp => exact absurd (hpins ▸ hp) (Set.notMem_empty _)
    | several => rfl
    | archive _ _ _ hall => exact absurd ((hall _ ha).trans (hall _ ha').symm) hne
    | common _ hdir' => exact absurd hdir hdir'
  | archive hpins hdir ha hall =>
    cases h' with
    | conflict hp => exact absurd (hpins ▸ hp) (Set.notMem_empty _)
    | pin hp => exact absurd (hpins ▸ hp) (Set.notMem_empty _)
    | several _ _ hb hb' hne => exact absurd ((hall _ hb).trans (hall _ hb').symm) hne
    | archive _ _ hb _ => exact (hall _ hb).symm
    | common _ hdir' => exact absurd hdir hdir'
  | common hpins hdir =>
    cases h' with
    | conflict hp => exact absurd (hpins ▸ hp) (Set.notMem_empty _)
    | pin hp => exact absurd (hpins ▸ hp) (Set.notMem_empty _)
    | several _ hdir' => exact absurd hdir' hdir
    | archive _ hdir' => exact absurd hdir' hdir
    | common => rfl

/-- A group that is left alone. -/
def LeftAlone (pins archive : Set Bytes) (directory : Prop) : Prop :=
  (∃ p ∈ pins, ∃ p' ∈ pins, p ≠ p') ∨
    (pins = ∅ ∧ directory ∧ ∃ a ∈ archive, ∃ a' ∈ archive, a ≠ a')

/-- Spellings of one text have the same in common. -/
theorem common_eq (spellings : Set Bytes) (hlowered : lowered s = lowered s') (hs : s ∈ spellings)
    (hs' : s' ∈ spellings) (hslash : 92 ∉ s) (hslash' : 92 ∉ s') : common spellings s = common spellings s' := by
  apply List.ext_getElem?
  intro k
  unfold common
  rw [List.getElem?_mapIdx, List.getElem?_mapIdx]
  have hk := congrArg (·[k]?) hlowered
  simp only [getElem?_lowered] at hk
  cases hc : s[k]? with
  | none =>
    rw [hc, Option.map_none, eq_comm, Option.map_eq_none_iff] at hk
    rw [hk]
  | some c =>
    rw [hc, Option.map_some, eq_comm, Option.map_eq_some_iff] at hk
    obtain ⟨c', hc', hlower⟩ := hk
    have hne : c ≠ 92 := fun heq => hslash (heq ▸ List.mem_of_getElem? hc)
    have hne' : c' ≠ 92 := fun heq => hslash' (heq ▸ List.mem_of_getElem? hc')
    rw [slashed_of_ne hne, slashed_of_ne hne'] at hlower
    rw [hc', Option.map_some, Option.map_some]
    by_cases heq : c = c'
    · rw [heq]
    · have hother : ∃ u ∈ spellings, u[k]? ≠ some c := ⟨s', hs', by rw [hc']; simpa using Ne.symm heq⟩
      have hother' : ∃ u ∈ spellings, u[k]? ≠ some c' := ⟨s, hs, by rw [hc]; simpa using heq⟩
      rw [if_pos hother, if_pos hother', hlower]

/-- The spellings of a group that is not left alone agree afterwards. -/
theorem Becomes.agree (h : Becomes pins spellings archive directory s t)
    (h' : Becomes pins spellings archive directory s' t') (hs : s ∈ spellings) (hs' : s' ∈ spellings)
    (hlowered : lowered s = lowered s') (hslash : 92 ∉ s) (hslash' : 92 ∉ s')
    (halone : ¬ LeftAlone pins archive directory) : t = t' := by
  cases h with
  | conflict hp hp' hne => exact absurd (.inl ⟨_, hp, _, hp', hne⟩) halone
  | several hpins hdir ha ha' hne => exact absurd (.inr ⟨hpins, hdir, _, ha, _, ha', hne⟩) halone
  | pin hp hall => exact (Becomes.pin hp hall).unique h'
  | archive hpins hdir ha hall => exact (Becomes.archive hpins hdir ha hall).unique h'
  | common hpins hdir =>
    rw [common_eq _ hlowered hs hs' hslash hslash']
    exact (Becomes.common hpins hdir).unique h'

end Outcome

/-! ## What belongs to a group -/

/-- Occurrences of the component that an id stands for: in a name, in a reference to it, or in a
reference to an icon. -/
inductive Mentions (X : Index) (contents : List Content) : Bytes → Occurrence → Prop
  | name {i : ℕ} {id : Bytes} {r : ℕ × ℕ} (hi : i < X.names.length)
    (hr : (id, r) ∈ components (X.name i)) : Mentions X contents id ⟨none, i, r.1, r.2 - r.1⟩
  | entry {c i begin stop : ℕ} {content : Content} {t : LsfString} {id : Bytes} {r : ℕ × ℕ}
    (hc : contents[c]? = some content) (ht : t ∈ content.tokens)
    (htarget : X.targetOf content t = some (.entry i begin stop))
    (hr : (id, r) ∈ components (X.name i)) (hbegin : begin ≤ r.1) (hstop : r.2 ≤ stop) :
    Mentions X contents id ⟨some c, 0, t.offset + (r.1 - begin), r.2 - r.1⟩
  | icon {c e : ℕ} {content : Content} {t : LsfString} {entries : List ℕ}
    (hc : contents[c]? = some content) (ht : t ∈ content.tokens)
    (htarget : X.targetOf content t = some (.icons entries)) (he : e ∈ entries) :
    Mentions X contents (stemId (X.name e)) ⟨some c, 0, t.offset, t.length⟩

/-- The stems of two icons that one reference names. -/
def Joins (X : Index) (contents : List Content) (a b : Bytes) : Prop :=
  ∃ content ∈ contents, ∃ t ∈ content.tokens, ∃ entries,
    X.targetOf content t = some (.icons entries) ∧ ∃ e ∈ entries, ∃ e' ∈ entries,
      a = stemId (X.name e) ∧ b = stemId (X.name e')

/-- The ids of one group. -/
def SameGroup (X : Index) (contents : List Content) : Bytes → Bytes → Prop :=
  Relation.EqvGen (Joins X contents)

/-- The pins of a group. -/
def pinsOf (X : Index) (contents : List Content) (id : Bytes) : Set Bytes :=
  {p | ∃ id', SameGroup X contents id' id ∧ ∃ i < X.names.length, (id', p) ∈ namePins (X.name i)}

/-- The spellings of a group. -/
def spellingsOf (X : Index) (contents : List Content) (B : ℕ ⊕ ℕ → Bytes) (id : Bytes) : Set Bytes :=
  {s | ∃ id' o, SameGroup X contents id' id ∧ Mentions X contents id' o ∧ s = Slots.read B o.slot}

/-- The spellings of a group in the archive. -/
def archiveOf (X : Index) (contents : List Content) (B : ℕ ⊕ ℕ → Bytes) (id : Bytes) : Set Bytes :=
  {s | ∃ id' o, SameGroup X contents id' id ∧ Mentions X contents id' o ∧ o.content = none ∧
    s = Slots.read B o.slot}

/-- A group of directories. -/
def DirectoryGroup (X : Index) (contents : List Content) (id : Bytes) : Prop :=
  ∃ id', SameGroup X contents id' id ∧ isDirectory id' = true

/-- What the spelling `s` of a group becomes. -/
def Outcome (X : Index) (contents : List Content) (B : ℕ ⊕ ℕ → Bytes) (id s : Bytes) : Bytes → Prop :=
  Becomes (pinsOf X contents id) (spellingsOf X contents B id) (archiveOf X contents B id)
    (DirectoryGroup X contents id) s

end Pak
end Bg3le
