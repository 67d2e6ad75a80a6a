import Bg3le.Pak.NamesTheorems

/-!
# The components of a name

A name is cut at its slashes, and its last component at its last dot.
-/

namespace Bg3le
namespace Pak

variable {name s : Bytes} {c : UInt8} {begin k n : ℕ} {r : ℕ × ℕ}

/-! ## Offsets of characters -/

/-- The slashes are where the name has them. -/
theorem mem_slashes : k ∈ slashes s ↔ s[k]? = some 47 := by
  simp only [slashes, List.mem_filter, List.mem_range, decide_eq_true_eq, and_iff_right_iff_imp]
  intro h
  exact (List.getElem?_eq_some_iff.mp h).1

/-- They come in order. -/
theorem pairwise_slashes (s : Bytes) : (slashes s).Pairwise (· < ·) :=
  List.pairwise_lt_range.filter _

/-- The last place of a character. -/
theorem rfind_eq_some (h : rfind c s = some k) : s[k]? = some c ∧ ∀ j > k, s[j]? ≠ some c := by
  obtain ⟨l, hl, rfl⟩ := Option.map_eq_some_iff.mp h
  obtain ⟨hlt, hget, hbefore⟩ := List.idxOf?_eq_some_iff.mp hl
  rw [List.length_reverse] at hlt
  have hreverse {j : ℕ} (hj : j < s.length) : s[j]? = s.reverse[s.length - 1 - j]? := by
    rw [List.getElem?_reverse (by omega)]
    congr 1
    omega
  constructor
  · rw [hreverse (by omega), show s.length - 1 - (s.length - 1 - l) = l by omega,
      List.getElem?_eq_getElem (by simpa using hlt), hget]
  · intro j hj hc
    have hjlt := (List.getElem?_eq_some_iff.mp hc).1
    rw [hreverse hjlt] at hc
    obtain ⟨hjlt', hc⟩ := List.getElem?_eq_some_iff.mp hc
    have hne := hbefore (s.length - 1 - j) (by omega)
    simp [hc] at hne

/-- What is not found is not there. -/
theorem rfind_eq_none (h : rfind c s = none) (j : ℕ) : s[j]? ≠ some c := by
  rw [rfind, Option.map_eq_none_iff, List.idxOf?_eq_none_iff] at h
  intro hj
  exact h (List.mem_reverse.mpr (List.mem_of_getElem? hj))

/-! ## Directories -/

/-- The directories of a name from `begin` on, at its remaining slashes. -/
def directoryRanges : ℕ → List ℕ → List (ℕ × ℕ)
  | _, [] => []
  | begin, slash :: rest => (begin, slash) :: directoryRanges (slash + 1) rest

/-- Where the last component begins. -/
def lastBegin : ℕ → List ℕ → ℕ
  | begin, [] => begin
  | _, slash :: rest => lastBegin (slash + 1) rest

/-- The slashes that remain from `begin` on. -/
structure Remaining (name : Bytes) (begin : ℕ) (rest : List ℕ) : Prop where
  pairwise : rest.Pairwise (· < ·)
  mem_iff {j : ℕ} (hj : begin ≤ j) : j ∈ rest ↔ name[j]? = some 47
  le {j : ℕ} (hj : j ∈ rest) : begin ≤ j
  begin_le : begin ≤ name.length
  before : begin = 0 ∨ name[begin - 1]? = some 47

/-- A component between two slashes, or before the first one. -/
structure Component (name : Bytes) (r : ℕ × ℕ) : Prop where
  le : r.1 ≤ r.2
  stop_le : r.2 ≤ name.length
  before : r.1 = 0 ∨ name[r.1 - 1]? = some 47
  noSlash {j : ℕ} (hj : r.1 ≤ j) (hj' : j < r.2) : name[j]? ≠ some 47

/-- At the start all slashes remain. -/
theorem remaining_slashes (name : Bytes) : Remaining name 0 (slashes name) :=
  ⟨pairwise_slashes name, fun _ => mem_slashes, fun _ => Nat.zero_le _, Nat.zero_le _, .inl rfl⟩

section Remaining

variable {slash : ℕ} {rest : List ℕ}

/-- The first slash that remains is not before the component's begin. -/
theorem Remaining.first (h : Remaining name begin (slash :: rest)) :
    begin ≤ slash ∧ name[slash]? = some 47 ∧ slash < name.length := by
  have hle := h.le List.mem_cons_self
  have hslash := (h.mem_iff hle).mp List.mem_cons_self
  exact ⟨hle, hslash, (List.getElem?_eq_some_iff.mp hslash).1⟩

/-- Behind it the others remain. -/
theorem Remaining.tail (h : Remaining name begin (slash :: rest)) :
    Remaining name (slash + 1) rest where
  pairwise := h.pairwise.of_cons
  mem_iff {k} hk := by
    rw [← h.mem_iff (by have := h.first.1; omega), List.mem_cons]
    simp only [iff_or_self]
    omega
  le {k} hk := List.rel_of_pairwise_cons h.pairwise hk
  begin_le := h.first.2.2
  before := .inr h.first.2.1

/-- Up to it is a component. -/
theorem Remaining.component (h : Remaining name begin (slash :: rest)) :
    Component name (begin, slash) where
  le := h.first.1
  stop_le := h.first.2.2.le
  before := h.before
  noSlash {j} hj hj' hslash := by
    rcases List.mem_cons.mp ((h.mem_iff hj).mpr hslash) with rfl | hmem
    · exact hj'.ne rfl
    · have := List.rel_of_pairwise_cons h.pairwise hmem
      omega

/-- So all ranges of directories are components. -/
theorem Remaining.components (h : Remaining name begin rest) :
    ∀ r ∈ directoryRanges begin rest, Component name r ∧ begin ≤ r.1 := by
  induction rest generalizing begin with
  | nil => simp [directoryRanges]
  | cons slash rest ih =>
    rw [directoryRanges]
    intro r hr
    rcases List.mem_cons.mp hr with rfl | hr
    · exact ⟨h.component, le_rfl⟩
    · have := h.first.1
      exact ⟨(ih h.tail r hr).1, by have := (ih h.tail r hr).2; omega⟩

/-- The last component begins after all directories. -/
theorem Remaining.last (h : Remaining name begin rest) :
    Remaining name (lastBegin begin rest) [] ∧ begin ≤ lastBegin begin rest ∧
      ∀ r ∈ directoryRanges begin rest, r.2 < lastBegin begin rest := by
  induction rest generalizing begin with
  | nil => exact ⟨h, le_rfl, by simp [directoryRanges]⟩
  | cons slash rest ih =>
    obtain ⟨hlast, hle, hlt⟩ := ih h.tail
    have := h.first.1
    refine ⟨hlast, ?_, ?_⟩
    · rw [lastBegin]
      omega
    · rw [lastBegin, directoryRanges]
      intro r hr
      rcases List.mem_cons.mp hr with rfl | hr
      · simp only
        omega
      · exact hlt r hr

/-- They come in order. -/
theorem Remaining.pairwise_ranges (h : Remaining name begin rest) :
    (directoryRanges begin rest).Pairwise fun r r' => r.2 < r'.1 := by
  induction rest generalizing begin with
  | nil => exact .nil
  | cons slash rest ih =>
    rw [directoryRanges, List.pairwise_cons]
    refine ⟨fun r hr => ?_, ih h.tail⟩
    have := (h.tail.components r hr).2
    simp only
    omega

/-- What is not in a directory is a slash. -/
theorem Remaining.cover (h : Remaining name begin rest) (hk : begin ≤ k)
    (hk' : k < lastBegin begin rest) :
    name[k]? = some 47 ∨ ∃ r ∈ directoryRanges begin rest, r.1 ≤ k ∧ k < r.2 := by
  induction rest generalizing begin with
  | nil =>
    rw [lastBegin] at hk'
    omega
  | cons slash rest ih =>
    rw [directoryRanges]
    rcases Nat.lt_trichotomy k slash with hlt | rfl | hlt
    · exact .inr ⟨(begin, slash), List.mem_cons_self, hk, hlt⟩
    · exact .inl h.first.2.1
    · rcases ih h.tail hlt hk' with hslash | ⟨r, hr, hrange⟩
      · exact .inl hslash
      · exact .inr ⟨r, List.mem_cons_of_mem _ hr, hrange⟩

end Remaining

/-! ## The whole name -/

/-- Where the last component of a name begins. -/
def leafBegin (name : Bytes) : ℕ := lastBegin 0 (slashes name)

/-- The dot of the last component's extension. -/
def leafDot (name : Bytes) : Option ℕ := (rfind 46 name).filter (leafBegin name < ·)

/-- The stem of a name. -/
def stemRange (name : Bytes) : ℕ × ℕ := (leafBegin name, (leafDot name).getD name.length)

/-- The components of a name: its directories, its stem and its extension. -/
def layout (name : Bytes) : List (ℕ × ℕ) :=
  directoryRanges 0 (slashes name) ++
    stemRange name :: (leafDot name).toList.map fun dot => (dot + 1, name.length)

/-- Behind the last slash none remains. -/
theorem remaining_leaf (name : Bytes) : Remaining name (leafBegin name) [] :=
  (remaining_slashes name).last.1

theorem noSlash_leaf (h : leafBegin name ≤ k) : name[k]? ≠ some 47 := fun hk =>
  absurd (((remaining_leaf name).mem_iff h).mpr hk) (by simp)

/-- The dot is the last one of the leaf. -/
theorem leafDot_eq_some {dot : ℕ} (h : leafDot name = some dot) :
    leafBegin name < dot ∧ name[dot]? = some 46 ∧ dot < name.length ∧
      ∀ j > dot, name[j]? ≠ some 46 := by
  obtain ⟨hdot, hlt⟩ := Option.filter_eq_some_iff.mp h
  obtain ⟨hget, hlast⟩ := rfind_eq_some hdot
  exact ⟨by simpa using hlt, hget, (List.getElem?_eq_some_iff.mp hget).1, hlast⟩

/-- The stem is a component. -/
theorem component_stem (name : Bytes) : Component name (stemRange name) where
  le := by
    unfold stemRange
    cases hdot : leafDot name with
    | none => exact (remaining_leaf name).begin_le
    | some dot => exact (leafDot_eq_some hdot).1.le
  stop_le := by
    unfold stemRange
    cases hdot : leafDot name with
    | none => exact le_rfl
    | some dot => exact (leafDot_eq_some hdot).2.2.1.le
  before := (remaining_leaf name).before
  noSlash hj _ := noSlash_leaf hj

/-- There is no slash in the extension. -/
theorem component_extension {dot : ℕ} (h : leafDot name = some dot) :
    dot + 1 ≤ name.length ∧ ∀ k, dot + 1 ≤ k → name[k]? ≠ some 47 := by
  obtain ⟨hbegin, -, hlt, -⟩ := leafDot_eq_some h
  exact ⟨hlt, fun k hk => noSlash_leaf (by omega)⟩

/-- A range of the layout is a component, or the extension. -/
theorem mem_layout (h : r ∈ layout name) :
    Component name r ∨ ∃ dot, leafDot name = some dot ∧ r = (dot + 1, name.length) := by
  rcases List.mem_append.mp h with h | h
  · exact .inl ((remaining_slashes name).components r h).1
  rcases List.mem_cons.mp h with rfl | h
  · exact .inl (component_stem name)
  · obtain ⟨dot, hdot, rfl⟩ := List.mem_map.mp h
    exact .inr ⟨dot, Option.mem_toList.mp hdot, rfl⟩

/-- It lies within the name. -/
theorem layout_le (h : r ∈ layout name) : r.1 ≤ r.2 ∧ r.2 ≤ name.length := by
  rcases mem_layout h with h | ⟨dot, hdot, rfl⟩
  · exact ⟨h.le, h.stop_le⟩
  · exact ⟨(component_extension hdot).1, le_rfl⟩

/-- There is no slash in it. -/
theorem layout_noSlash (h : r ∈ layout name) (hk : r.1 ≤ k) (hk' : k < r.2) :
    name[k]? ≠ some 47 := by
  rcases mem_layout h with h | ⟨dot, hdot, rfl⟩
  · exact h.noSlash hk hk'
  · exact (component_extension hdot).2 k hk

/-- The ranges come in order and apart. -/
theorem pairwise_layout (name : Bytes) : (layout name).Pairwise fun r r' => r.2 < r'.1 := by
  rw [layout, List.pairwise_append]
  refine ⟨(remaining_slashes name).pairwise_ranges, ?_, ?_⟩
  · rw [List.pairwise_cons]
    refine ⟨fun r hr => ?_, ?_⟩
    · obtain ⟨dot, hdot, rfl⟩ := List.mem_map.mp hr
      rw [stemRange, Option.mem_toList.mp hdot]
      exact Nat.lt_succ_self dot
    · cases leafDot name with
      | none => exact .nil
      | some dot => exact List.pairwise_singleton ..
  · intro r hr r' hr'
    have hlt := (remaining_slashes name).last.2.2 r hr
    have hle : leafBegin name ≤ r'.1 := by
      rcases List.mem_cons.mp hr' with rfl | hr'
      · exact le_rfl
      · obtain ⟨dot, hdot, rfl⟩ := List.mem_map.mp hr'
        have := (leafDot_eq_some (Option.mem_toList.mp hdot)).1
        simp only
        omega
    exact hlt.trans_le hle

/-- Between the components of a name there are slashes and its last dot. -/
theorem cover_layout (hk : k < name.length) :
    name[k]? = some 47 ∨ name[k]? = some 46 ∨ ∃ r ∈ layout name, r.1 ≤ k ∧ k < r.2 := by
  by_cases hleaf : k < leafBegin name
  · rcases (remaining_slashes name).cover (Nat.zero_le k) hleaf with h | ⟨r, hr, hrange⟩
    · exact .inl h
    · exact .inr (.inr ⟨r, List.mem_append_left _ hr, hrange⟩)
  · have hstem : stemRange name ∈ layout name :=
      List.mem_append_right _ List.mem_cons_self
    cases hdot : leafDot name with
    | none =>
      have hrange : stemRange name = (leafBegin name, name.length) := by
        rw [stemRange, hdot]
        rfl
      exact .inr (.inr ⟨_, hstem, by rw [hrange]; simp only; omega⟩)
    | some dot =>
      have hrange : stemRange name = (leafBegin name, dot) := by
        rw [stemRange, hdot]
        rfl
      have hext : (dot + 1, name.length) ∈ layout name := by
        apply List.mem_append_right
        rw [hdot]
        simp
      rcases Nat.lt_trichotomy k dot with hlt | rfl | hlt
      · exact .inr (.inr ⟨_, hstem, by rw [hrange]; simp only; omega⟩)
      · exact .inr (.inl (leafDot_eq_some hdot).2.1)
      · exact .inr (.inr ⟨_, hext, hlt, hk⟩)

/-! ## The text that an id stands for -/

theorem rtakeWhile_append (a : Bytes) {b : Bytes} {p : UInt8 → Bool} (hb : ∀ d ∈ b, p d = true) :
    (a ++ b).rtakeWhile p = a.rtakeWhile p ++ b := by
  induction b using List.reverseRecOn with
  | nil => simp
  | append_singleton b d ih =>
    rw [← List.append_assoc, List.rtakeWhile_concat_pos _ _ _ (hb d (by simp)),
      ih fun e he => hb e (by simp [he]), List.append_assoc]

/-- What follows the last `c` of a text. -/
theorem rtakeWhile_eq_drop (hk : k ≤ s.length) (hbefore : k = 0 ∨ s[k - 1]? = some c)
    (hafter : ∀ j, k ≤ j → s[j]? ≠ some c) : s.rtakeWhile (· ≠ c) = s.drop k := by
  have hdrop : ∀ d ∈ s.drop k, (decide (d ≠ c)) = true := by
    intro d hd
    obtain ⟨j, hj⟩ := List.mem_iff_getElem?.mp hd
    rw [List.getElem?_drop] at hj
    simp only [decide_eq_true_eq]
    rintro rfl
    exact hafter (k + j) (by omega) hj
  have hfront : (s.take k).rtakeWhile (· ≠ c) = [] := by
    rcases hbefore with rfl | hc
    · simp
    · have hpos : k ≠ 0 := by
        rintro rfl
        exact hafter 0 le_rfl hc
      obtain ⟨k, rfl⟩ := Nat.exists_eq_succ_of_ne_zero hpos
      rw [Nat.succ_eq_add_one, List.take_add_one, show s[k]? = some c from hc]
      simp
  have htail := rtakeWhile_append (s.take k) hdrop
  rwa [List.take_append_drop, hfront, List.nil_append] at htail

/-- The text of the component that an id names the path of, in lower case. -/
def textOf : Bytes → Bytes
  | 120 :: _ :: path => path.rtakeWhile (· ≠ 46)
  | _ :: _ :: path => path.rtakeWhile (· ≠ 47)
  | _ => []

/-- The ids of directories. -/
def isDirectory (id : Bytes) : Bool := id.head? = some 100

/-- The id of a name's stem. -/
def stemId (name : Bytes) : Bytes := bytes "s:" ++ (lowered name).take (stemRange name).2

/-- The components of a name, each with the id of its group. -/
def components (name : Bytes) : List (Bytes × ℕ × ℕ) :=
  (directoryRanges 0 (slashes name)).map (fun r => (bytes "d:" ++ (lowered name).take r.2, r)) ++
    (stemId name, stemRange name) ::
      (leafDot name).toList.map fun dot => (bytes "x:" ++ lowered name, dot + 1, name.length)

/-- The layout has the ranges of the components. -/
theorem layout_eq (name : Bytes) : layout name = (components name).map Prod.snd := by
  simp [layout, components, Function.comp_def]

/-- The range of a component is in the layout. -/
theorem mem_layout_of_mem {id : Bytes} (h : (id, r) ∈ components name) : r ∈ layout name := by
  rw [layout_eq]
  exact List.mem_map_of_mem h

/-- Lower case has the slashes of a name without backslashes. -/
theorem lowered_slash_iff (hname : 92 ∉ name) (k : ℕ) :
    (lowered name)[k]? = some 47 ↔ name[k]? = some 47 := by
  rw [getElem?_lowered, Option.map_eq_some_iff]
  constructor
  · rintro ⟨c, hc, hslash⟩
    rcases (lower_slashed_eq_slash c).mp hslash with rfl | rfl
    · exact hc
    · exact absurd (List.mem_of_getElem? hc) hname
  · intro h
    exact ⟨47, h, rfl⟩

theorem lowered_dot_iff (k : ℕ) : (lowered name)[k]? = some 46 ↔ name[k]? = some 46 := by
  rw [getElem?_lowered, Option.map_eq_some_iff]
  constructor
  · rintro ⟨c, hc, hdot⟩
    rwa [← (lower_slashed_eq_dot c).mp hdot]
  · intro h
    exact ⟨46, h, rfl⟩

/-- A part in lower case is the part of the name in lower case. -/
theorem lowered_slice (s : Bytes) (pos len : ℕ) : lowered (slice s pos len) = slice (lowered s) pos len := by
  rw [slice, slice, lowered_drop, lowered_take]

/-- The path up to the end of a component. -/
theorem rtakeWhile_component (hname : 92 ∉ name) (h : Component name r) :
    ((lowered name).take r.2).rtakeWhile (· ≠ 47) = slice (lowered name) r.1 (r.2 - r.1) := by
  have hlength : ((lowered name).take r.2).length = r.2 := by
    rw [List.length_take, length_lowered, Nat.min_eq_left h.stop_le]
  rw [rtakeWhile_eq_drop (k := r.1) (by rw [hlength]; exact h.le) ?_ ?_, List.drop_take]
  · rfl
  · rcases h.before with h0 | hslash
    · exact .inl h0
    · by_cases h0 : r.1 = 0
      · exact .inl h0
      · right
        rw [List.getElem?_take_of_lt (by have := h.le; omega), lowered_slash_iff hname]
        exact hslash
  · intro j hj
    by_cases hlt : j < r.2
    · rw [List.getElem?_take_of_lt hlt, Ne, lowered_slash_iff hname]
      exact h.noSlash hj hlt
    · rw [List.getElem?_eq_none (by omega)]
      simp

/-- The id of a directory ends in its own text. -/
theorem textOf_directory (hname : 92 ∉ name) (h : Component name r) :
    textOf (bytes "d:" ++ (lowered name).take r.2) = slice (lowered name) r.1 (r.2 - r.1) :=
  rtakeWhile_component hname h

/-- So does that of a stem. -/
theorem textOf_stem (hname : 92 ∉ name) :
    textOf (stemId name) =
      slice (lowered name) (stemRange name).1 ((stemRange name).2 - (stemRange name).1) :=
  rtakeWhile_component hname (component_stem name)

/-- So does that of an extension. -/
theorem textOf_extension {dot : ℕ} (h : leafDot name = some dot) :
    textOf (bytes "x:" ++ lowered name) =
      slice (lowered name) (dot + 1) (name.length - (dot + 1)) := by
  obtain ⟨-, hdot, hlt, hlast⟩ := leafDot_eq_some h
  have htail := rtakeWhile_eq_drop (k := dot + 1) (s := lowered name) (c := 46)
    (by rw [length_lowered]; omega) (.inr (lowered_dot_iff dot |>.mpr hdot)) fun j hj => by
      rw [Ne, lowered_dot_iff]
      exact hlast j hj
  have hslice : slice (lowered name) (dot + 1) (name.length - (dot + 1)) =
      (lowered name).drop (dot + 1) := by
    rw [slice, List.take_of_length_le]
    rw [List.length_drop, length_lowered]
  rw [hslice]
  exact htail

/-- So does that of every component. -/
theorem textOf_component {id : Bytes} (hname : 92 ∉ name) (h : (id, r) ∈ components name) :
    textOf id = slice (lowered name) r.1 (r.2 - r.1) := by
  rcases List.mem_append.mp h with h | h
  · obtain ⟨r, hr, heq⟩ := List.mem_map.mp h
    obtain ⟨rfl, rfl⟩ := Prod.mk.inj heq
    exact textOf_directory hname ((remaining_slashes name).components r hr).1
  rcases List.mem_cons.mp h with heq | h
  · obtain ⟨rfl, rfl⟩ := Prod.mk.inj heq
    exact textOf_stem hname
  · obtain ⟨dot, hdot, heq⟩ := List.mem_map.mp h
    obtain ⟨rfl, rfl⟩ := Prod.mk.inj heq
    exact textOf_extension (Option.mem_toList.mp hdot)

/-! ## Extensions -/

/-- The last place of a character is the only one without another one after it. -/
theorem rfind_eq (hget : s[k]? = some c) (hlast : ∀ j > k, s[j]? ≠ some c) : rfind c s = some k := by
  cases h : rfind c s with
  | none => exact absurd hget (rfind_eq_none h k)
  | some l =>
    obtain ⟨hget', hlast'⟩ := rfind_eq_some h
    rcases Nat.lt_trichotomy k l with hlt | rfl | hlt
    · exact absurd hget' (hlast l hlt)
    · rfl
    · exact absurd hget (hlast' k hlt)

/-- The last component is the leaf. -/
theorem lastComponent_eq (name : Bytes) : lastComponent name = name.drop (leafBegin name) := by
  have hbefore := (remaining_leaf name).before
  unfold lastComponent
  split
  · next h =>
    rcases hbefore with h0 | hslash
    · rw [h0, List.drop_zero]
    · exact absurd hslash (rfind_eq_none h _)
  · next slash h =>
    obtain ⟨hget, hlast⟩ := rfind_eq_some h
    have hlt : slash < leafBegin name := by
      by_contra hle
      exact noSlash_leaf (Nat.le_of_not_lt hle) hget
    rcases hbefore with h0 | hslash
    · omega
    · have hge : leafBegin name - 1 ≤ slash := by
        by_contra hgt
        exact hlast _ (by omega) hslash
      congr 1
      omega

/-- The extension is the text after the dot of the last component. -/
theorem extension_eq {dot : ℕ} (h : leafDot name = some dot) :
    extension name = slice (lowered name) (dot + 1) (name.length - (dot + 1)) := by
  obtain ⟨hbegin, hdot, hlt, hlast⟩ := leafDot_eq_some h
  have hfind : rfind 46 (lastComponent name) = some (dot - leafBegin name) := by
    rw [lastComponent_eq]
    apply rfind_eq
    · rw [List.getElem?_drop]
      rw [show leafBegin name + (dot - leafBegin name) = dot by omega]
      exact hdot
    · intro j hj
      rw [List.getElem?_drop]
      exact hlast _ (by omega)
  unfold extension
  rw [hfind]
  obtain ⟨k, hk⟩ := Nat.exists_eq_succ_of_ne_zero (show dot - leafBegin name ≠ 0 by omega)
  rw [hk]
  simp only
  rw [lastComponent_eq, List.drop_drop, ← lowered_drop, slice, List.take_of_length_le]
  · congr 1
    omega
  · rw [List.length_drop, length_lowered]

end Pak
end Bg3le
