import Bg3le.Pak.CaseTheorems
import Bg3le.Pak.ScannedTheorems
import Mathlib.Data.List.Nodup
import Mathlib.Logic.Equiv.Defs

/-!
# Archives that are alike

Two archives are alike if their entries and contents are the same up to order and case. References
lead to the same entries in both, and their groups have the same ids.
-/

namespace Bg3le
namespace Pak

variable {ρ γ : Equiv.Perm ℕ} {X X' : Index} {contents contents' : List Content} {c : ℕ}
  {content content' : Content} {source source' raw raw' field field' id id' : Bytes}
  {l l' : List ℕ} {t t' : LsfString}

/-! ## Indexes -/

/-- Entry `i` of the one index is entry `ρ i` of the other, up to case. -/
structure Index.Alike (ρ : Equiv.Perm ℕ) (X X' : Index) : Prop where
  lt_iff (i : ℕ) : ρ i < X'.names.length ↔ i < X.names.length
  name (i : ℕ) : CaseEq (X.name i) (X'.name (ρ i))

theorem Index.Alike.symm (h : Index.Alike ρ X X') : Index.Alike ρ.symm X' X where
  lt_iff i := by
    have := h.lt_iff (ρ.symm i)
    rw [Equiv.apply_symm_apply] at this
    exact this.symm
  name i := by
    have := h.name (ρ.symm i)
    rw [Equiv.apply_symm_apply] at this
    exact this.symm

theorem unique_map (ρ : Equiv.Perm ℕ) (hl : l.Nodup) (hl' : l'.Nodup)
    (hmem : ∀ i, ρ i ∈ l' ↔ i ∈ l) : unique l' = (unique l).map ρ := by
  have hperm : l'.Perm (l.map ρ) := by
    rw [List.perm_ext_iff_of_nodup hl' (hl.map ρ.injective)]
    intro j
    rw [List.mem_map]
    constructor
    · intro hj
      exact ⟨ρ.symm j, (hmem _).mp (by rwa [Equiv.apply_symm_apply]), Equiv.apply_symm_apply ρ j⟩
    · rintro ⟨i, hi, rfl⟩
      exact (hmem i).mpr hi
  cases l with
  | nil => rw [hperm.eq_nil]; rfl
  | cons i l =>
    cases l with
    | nil => rw [List.perm_singleton.mp hperm]; rfl
    | cons j l =>
      have hlength := hperm.length_eq
      match l' with
      | [] => cases hlength
      | [_] => cases hlength
      | _ :: _ :: _ => rfl

theorem nodup_filter_range (n : ℕ) (p : ℕ → Bool) : ((List.range n).filter p).Nodup :=
  List.nodup_range.filter p

section Indexed

variable (hX : Indexed X) (hX' : Indexed X') (h : Index.Alike ρ X X')

include hX hX' h

theorem Index.Alike.unique_full (key : Bytes) :
    unique (X'.full key) = (unique (X.full key)).map ρ := by
  rw [hX.full, hX'.full]
  apply unique_map ρ (nodup_filter_range _ _) (nodup_filter_range _ _)
  intro i
  simp only [List.mem_filter, List.mem_range, h.lt_iff, (h.name i).lowered]

theorem Index.Alike.unique_suffixes (key : Bytes) :
    unique (X'.suffixes key) = (unique (X.suffixes key)).map ρ := by
  rw [hX.suffixes, hX'.suffixes]
  apply unique_map ρ (nodup_filter_range _ _) (nodup_filter_range _ _)
  intro i
  simp only [List.mem_filter, List.mem_range, h.lt_iff, (h.name i).lowered, (h.name i).slashes]

theorem Index.Alike.mem_icons (key : Bytes) (i : ℕ) : ρ i ∈ X'.icons key ↔ i ∈ X.icons key := by
  rw [hX.icons, hX'.icons]
  simp only [List.mem_filter, List.mem_range, h.lt_iff, (h.name i).isIcon, (h.name i).stemText]

theorem Index.Alike.icons_nil (key : Bytes) : X'.icons key = [] ↔ X.icons key = [] := by
  simp only [List.eq_nil_iff_forall_not_mem]
  constructor
  · intro hnone i hi
    exact hnone (ρ i) ((h.mem_icons hX hX' key i).mpr hi)
  · intro hnone j hj
    apply hnone (ρ.symm j)
    rwa [← h.mem_icons hX hX', Equiv.apply_symm_apply]

theorem Index.Alike.tail (hsource : CaseEq source source') (key : Bytes) (len : ℕ) :
    X'.tail source' key len = (X.tail source key len).map ρ := by
  unfold Index.tail
  split
  · rw [h.unique_suffixes hX hX']
    cases unique (X.suffixes key) with
    | none => rfl
    | some i =>
      simp only [Option.map_some, Option.filter_some, ((h.name i).requiredFrom hsource len).symm]
      split <;> rfl
  · rfl

/-! ## References -/

end Indexed

/-- The same entry, or the same icons. -/
inductive Target.Alike (ρ : Equiv.Perm ℕ) : Target → Target → Prop
  | entry (i begin stop : ℕ) : Target.Alike ρ (.entry i begin stop) (.entry (ρ i) begin stop)
  | icons {entries entries' : List ℕ} (h : ∀ e, ρ e ∈ entries' ↔ e ∈ entries) :
    Target.Alike ρ (.icons entries) (.icons entries')

theorem CaseEq.any_lt (h : CaseEq raw raw') : raw.any (· < 32) = raw'.any (· < 32) := by
  have hlower (c : UInt8) : decide (lower c < 32) = decide (c < 32) := by
    have hall : ∀ n < 256, decide (lower (UInt8.ofNat n) < 32) = decide (UInt8.ofNat n < 32) := by
      decide +kernel
    have := hall c.toNat c.toNat_lt
    rwa [UInt8.ofNat_toNat] at this
  have hmap (s : Bytes) : s.any (· < 32) = (s.map lower).any (· < 32) := by
    rw [List.any_map]
    congr 1
    funext c
    exact (hlower c).symm
  rw [hmap raw, hmap raw', h]

/-- What a reference leads to, in archives that are alike. -/
theorem Index.Alike.resolve (h : Index.Alike ρ X X') (hX : Indexed X) (hX' : Indexed X')
    (hsource : CaseEq source source') (hraw : CaseEq raw raw')
    (hfield : CaseEq field field') (len : ℕ) :
    Option.Rel (Target.Alike ρ) (X.resolve source raw len field)
      (X'.resolve source' raw' len field') := by
  unfold Index.resolve
  rw [← hraw.any_lt, ← hraw.lowered, ← hsource.guiMetadata, ← hsource.directoryOf,
    ← hfield.iequals, ← hfield.iequals]
  split
  · exact .none
  split
  · exact .none
  simp only [h.unique_full hX hX', h.tail hX hX' hsource]
  cases unique (X.full (Pak.lowered raw)) with
  | some i =>
    simp only [Option.map_some, (h.name i).length_eq]
    exact .some (.entry ..)
  | none =>
    cases X.tail source (Pak.lowered raw) len with
    | some i =>
      simp only [Option.map_none, Option.map_some, (h.name i).length_eq]
      exact .some (.entry ..)
    | none =>
      simp only [Option.map_none]
      split
      · rw [Option.map_map]
        cases unique (X.full _) with
        | none => exact .none
        | some i =>
          simp only [Option.map_some, Function.comp_apply, (h.name i).length_eq]
          exact .some (.entry ..)
      · split
        · simp only [h.icons_nil hX hX']
          split
          · exact .none
          · exact .some (.icons (h.mem_icons hX hX' _))
        · exact .none

/-! ## Contents -/

/-- A token at the same place, in a context that is the same up to case. -/
structure LsfString.Alike (t t' : LsfString) : Prop where
  offset : t'.offset = t.offset
  length : t'.length = t.length
  attributeName : CaseEq t.attributeName t'.attributeName

/-- The content of the same entry, with the same text up to case. -/
structure Content.Alike (ρ : Equiv.Perm ℕ) (content content' : Content) : Prop where
  file : content'.file = ρ content.file
  bytes : CaseEq content.bytes content'.bytes
  tokens : List.Forall₂ LsfString.Alike content.tokens content'.tokens

/-- Entry `i` is entry `ρ i` of the other archive, and content `c` is content `γ c`. -/
structure Alike (ρ γ : Equiv.Perm ℕ) (X X' : Index) (contents contents' : List Content) : Prop where
  index : Index.Alike ρ X X'
  contents (c : ℕ) : Option.Rel (Content.Alike ρ) contents[c]? contents'[γ c]?

theorem LsfString.Alike.symm (h : LsfString.Alike t t') : LsfString.Alike t' t :=
  ⟨h.offset.symm, h.length.symm, h.attributeName.symm⟩

theorem Content.Alike.symm (h : Content.Alike ρ content content') :
    Content.Alike ρ.symm content' content where
  file := by rw [h.file, Equiv.symm_apply_apply]
  bytes := h.bytes.symm
  tokens := h.tokens.flip.imp fun _ _ ht => ht.symm

theorem Alike.symm (h : Alike ρ γ X X' contents contents') :
    Alike ρ.symm γ.symm X' X contents' contents where
  index := h.index.symm
  contents c := by
    have hrel := h.contents (γ.symm c)
    rw [Equiv.apply_symm_apply] at hrel
    generalize contents[γ.symm c]? = content at hrel ⊢
    generalize contents'[c]? = content' at hrel ⊢
    cases hrel with
    | none => exact .none
    | some halike => exact .some halike.symm

theorem Alike.get (h : Alike ρ γ X X' contents contents') (hc : contents[c]? = some content) :
    ∃ content', contents'[γ c]? = some content' ∧ Content.Alike ρ content content' := by
  have hrel := h.contents c
  rw [hc] at hrel
  cases hrel' : contents'[γ c]? with
  | none =>
    rw [hrel'] at hrel
    cases hrel
  | some content' =>
    rw [hrel'] at hrel
    cases hrel with
    | some halike => exact ⟨content', rfl, halike⟩

/-- A token leads to the same in both. -/
theorem Index.Alike.targetOf (h : Index.Alike ρ X X') (hX : Indexed X) (hX' : Indexed X')
    (hcontent : Content.Alike ρ content content') (ht : t.Alike t') {target : Target}
    (htarget : X.targetOf content t = some target) :
    ∃ target', X'.targetOf content' t' = some target' ∧ Target.Alike ρ target target' := by
  unfold Index.targetOf at htarget ⊢
  rw [hcontent.file, ht.offset, ht.length]
  have hrel := h.resolve hX hX' (h.name content.file) (hcontent.bytes.slice t.offset t.length)
    ht.attributeName t.length
  rw [htarget] at hrel
  generalize X'.resolve _ _ _ _ = target' at hrel ⊢
  cases hrel with
  | some halike => exact ⟨_, rfl, halike⟩

theorem Content.Alike.exists_token (h : Content.Alike ρ content content') (ht : t ∈ content.tokens) :
    ∃ t' ∈ content'.tokens, t.Alike t' := by
  obtain ⟨n, hn⟩ := List.mem_iff_getElem?.mp ht
  obtain ⟨hlt, hget⟩ := List.getElem?_eq_some_iff.mp hn
  have hlt' : n < content'.tokens.length := h.tokens.length_eq ▸ hlt
  refine ⟨content'.tokens[n], List.getElem_mem hlt', ?_⟩
  rw [← hget]
  exact (List.forall₂_iff_get.mp h.tokens).2 n hlt hlt'

/-! ## Groups -/

/-- An occurrence in the other archive. -/
def Occurrence.moved (ρ γ : Equiv.Perm ℕ) (o : Occurrence) : Occurrence where
  content := o.content.map γ
  index := if o.content = none then ρ o.index else o.index
  pos := o.pos
  len := o.len

theorem Occurrence.slot_moved (o : Occurrence) :
    (o.moved ρ γ).slot = ⟨Sum.map ρ γ o.file, o.pos, o.len⟩ := by
  obtain ⟨content, index, pos, len⟩ := o
  cases content with
  | none => rfl
  | some c => rfl

theorem Occurrence.content_moved (o : Occurrence) :
    (o.moved ρ γ).content = none ↔ o.content = none := Option.map_eq_none_iff

section Indexed

variable (h : Alike ρ γ X X' contents contents') (hX : Indexed X) (hX' : Indexed X')

include h hX hX'

/-- The groups have the same occurrences. -/
theorem Alike.mentions {o : Occurrence} (hm : Mentions X contents id o) :
    Mentions X' contents' id (o.moved ρ γ) := by
  cases hm with
  | @name i id r hi hr =>
    rw [(h.index.name i).components] at hr
    exact .name ((h.index.lt_iff i).mpr hi) hr
  | @entry c i begin stop content t id r hc ht htarget hr hbegin hstop =>
    obtain ⟨content', hc', hcontent⟩ := h.get hc
    obtain ⟨t', ht', halike⟩ := hcontent.exists_token ht
    obtain ⟨target', htarget', hrel⟩ := h.index.targetOf hX hX' hcontent halike htarget
    rw [(h.index.name i).components] at hr
    cases hrel with
    | entry =>
      have hentry := Mentions.entry hc' ht' htarget' hr hbegin hstop
      rw [halike.offset] at hentry
      exact hentry
  | @icon c e content t entries hc ht htarget he =>
    obtain ⟨content', hc', hcontent⟩ := h.get hc
    obtain ⟨t', ht', halike⟩ := hcontent.exists_token ht
    obtain ⟨target', htarget', hrel⟩ := h.index.targetOf hX hX' hcontent halike htarget
    rw [(h.index.name e).stemId]
    cases hrel with
    | icons hmem =>
      have hicon := Mentions.icon hc' ht' htarget' ((hmem e).mpr he)
      rw [halike.offset, halike.length] at hicon
      exact hicon

theorem Alike.joins {a b : Bytes} (hj : Joins X contents a b) : Joins X' contents' a b := by
  obtain ⟨content, hcontent, t, ht, entries, htarget, e, he, e', he', rfl, rfl⟩ := hj
  obtain ⟨c, hc⟩ := List.getElem?_of_mem hcontent
  obtain ⟨content', hc', halike⟩ := h.get hc
  obtain ⟨t', ht', htoken⟩ := halike.exists_token ht
  obtain ⟨target', htarget', hrel⟩ := h.index.targetOf hX hX' halike htoken htarget
  cases hrel with
  | icons hmem =>
    exact ⟨content', List.mem_of_getElem? hc', t', ht', _, htarget', ρ e, (hmem e).mpr he, ρ e',
      (hmem e').mpr he', (h.index.name e).stemId, (h.index.name e').stemId⟩

/-- The groups have the same ids. -/
theorem Alike.sameGroup : SameGroup X contents id id' ↔ SameGroup X' contents' id id' := by
  constructor
  · exact Relation.EqvGen.mono (fun _ _ hj => h.joins hX hX' hj) id id'
  · exact Relation.EqvGen.mono (fun _ _ hj => h.symm.joins hX' hX hj) id id'

theorem Alike.directoryGroup : DirectoryGroup X contents id ↔ DirectoryGroup X' contents' id := by
  unfold DirectoryGroup
  simp only [h.sameGroup hX hX']

end Indexed

end Pak
end Bg3le
