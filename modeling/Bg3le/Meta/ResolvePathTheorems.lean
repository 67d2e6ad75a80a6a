import Bg3le.Library.Separator
import Bg3le.Meta.Path

/-!
# What `resolve_path` accepts and where it leads
-/

namespace Bg3le
namespace ComponentMeta

open Engine

variable {tables : Tables} {mapping : Mapping}

/-! ## Fields -/

/-- What is found is a field that the class has, of the name. -/
theorem hasField_of_findFieldFrom {name : Bytes} {f : FieldDesc} (levels : ℕ) :
    ∀ {cls : ClassFields}, findFieldFrom tables name levels cls = some f →
      f.name = name ∧ ∃ depth < levels, HasField tables depth cls f := by
  induction levels with
  | zero =>
    intro cls h
    simp [findFieldFrom] at h
  | succ levels ih =>
    intro cls h
    rw [findFieldFrom] at h
    split at h
    · rename_i own hown
      obtain rfl := Option.some.inj h
      have hmem := List.mem_of_find?_eq_some hown
      have hprop := List.find?_some hown
      simp only [decide_not, Bool.and_eq_true, Bool.not_eq_eq_eq_not, Bool.not_true,
        decide_eq_false_iff_not, decide_eq_true_eq] at hprop
      exact ⟨hprop.2, 0, by omega, .own hmem hprop.1⟩
    · obtain ⟨b, hb, hfound⟩ := List.exists_of_findSome?_eq_some h
      split at hfound
      · simp at hfound
      · rename_i hinherit
        obtain ⟨base, hbase, hfound⟩ := Option.bind_eq_some_iff.mp hfound
        obtain ⟨hname, depth, hdepth, hfield⟩ := ih hfound
        exact ⟨hname, depth + 1, by omega, .base hb (by simpa using hinherit) hbase hfield⟩

/-- And one is found where the class has one through few enough bases. -/
theorem findFieldFrom_ne_none {f : FieldDesc} {depth : ℕ} {cls : ClassFields}
    (h : HasField tables depth cls f) :
    ∀ {levels : ℕ}, depth < levels → findFieldFrom tables f.name levels cls ≠ none := by
  induction h with
  | @own cls f hmem hkind =>
    intro levels hlevels
    obtain ⟨levels, rfl⟩ : ∃ n, levels = n + 1 := ⟨levels - 1, by omega⟩
    rw [findFieldFrom]
    split
    · exact Option.some_ne_none _
    · rename_i hnone
      have hno := List.find?_eq_none.mp hnone f hmem
      simp [hkind] at hno
  | @base depth cls base f b hb hinherit hbase _ ih =>
    intro levels hlevels
    obtain ⟨levels, rfl⟩ : ∃ n, levels = n + 1 := ⟨levels - 1, by omega⟩
    rw [findFieldFrom]
    split
    · exact Option.some_ne_none _
    · intro hnone
      have hno := List.findSome?_eq_none_iff.mp hnone b hb
      rw [if_neg (by simpa using hinherit), hbase] at hno
      exact ih (by omega) hno

/-! ## Elements -/

/-- What `pointee` gives is what the memory holds there. -/
theorem pointee_eq_some_iff {addr target : ℕ} :
    pointee mapping addr = some target ↔ PointsTo mapping addr target := by
  constructor
  · intro h
    simp only [pointee, Option.bind_eq_bind, Option.bind_eq_some_iff] at h
    obtain ⟨value, hvalue, h⟩ := h
    split at h
    · simp at h
    · split at h
      · simp at h
      · split at h
        · simp at h
        · rename_i hobject hread
          obtain rfl := Option.some.inj h
          have hsome : (peek mapping value).isSome := by
            simpa [Option.isSome_iff_ne_none] using hread
          exact ⟨hvalue, by omega, hsome⟩
  · intro h
    have hobject := h.object
    have hread : (peek mapping target).isNone = false := by
      simpa using h.readable
    rw [pointee, h.value, Option.bind_eq_bind, Option.bind_some, if_neg (by omega),
      if_neg (by omega), hread]
    rfl

theorem nonNull_eq_some_iff {addr a : ℕ} : nonNull addr = some a ↔ addr ≠ 0 ∧ addr = a := by
  unfold nonNull
  split <;> simp_all

/-- What a counted container's element is located by. -/
theorem located_of_container {current : FieldDesc} {addr index a : ℕ}
    (hkind : current.kind = .dynArray ∨ current.kind = .map ∨ current.kind = .optional) :
    Located mapping current addr index a ↔ Counts mapping current addr index ∧
      ((∃ elemAt, current.elemAt = some elemAt ∧ elemAt mapping addr index ≠ 0 ∧
          elemAt mapping addr index = a) ∨
        (current.elemAt = none ∧ ∃ data, current.data = some data ∧ data mapping addr ≠ 0 ∧
          data mapping addr + index * current.elemSize = a)) := by
  constructor
  · intro h
    cases h with
    | variant h => simp [h] at hkind
    | pointer h => simp [h] at hkind
    | scalarArray h => simp [h] at hkind
    | run hcounts hnode hdata hnonnull =>
      exact ⟨hcounts, .inr ⟨hnode, _, hdata, hnonnull, rfl⟩⟩
    | node hcounts hnode hnonnull => exact ⟨hcounts, .inl ⟨_, hnode, hnonnull, rfl⟩⟩
  · intro h
    rcases h with ⟨hcounts, ⟨elemAt, hnode, hnonnull, rfl⟩ | ⟨hnode, data, hdata, hnonnull, rfl⟩⟩
    · exact .node hcounts hnode hnonnull
    · exact .run hcounts hnode hdata hnonnull

/-- Where a counted container's element is. -/
theorem containerAddress_eq_some_iff {current : FieldDesc} {addr index a : ℕ}
    (hkind : current.kind = .dynArray ∨ current.kind = .map ∨ current.kind = .optional) :
    elementAddress mapping current addr index = some a ↔ fits current index = true ∧
      if addr = 0 then a = 0 else Located mapping current addr index a := by
  have haddr : elementAddress mapping current addr index =
      containerAddress mapping current addr index := by
    rcases hkind with hkind | hkind | hkind <;> simp only [elementAddress, hkind]
  have hfits : fits current index =
      (current.count.isSome && (current.data.isSome || current.elemAt.isSome)) := by
    rcases hkind with hkind | hkind | hkind <;> simp only [fits, hkind]
  rw [haddr, hfits, located_of_container hkind, containerAddress]
  cases hcount : current.count with
  | none => simp
  | some count =>
    have hcounts : Counts mapping current addr index ↔
        ¬ (count mapping addr ≤ index ∨ kMaxContainerCount < count mapping addr) := by
      constructor
      · intro h
        obtain ⟨count', hcount', hindex, hreal⟩ := h.live
        obtain rfl := Option.some.inj (hcount'.symm.trans hcount)
        omega
      · intro h
        exact ⟨hkind, count, hcount, by omega, by omega⟩
    rw [hcounts]
    by_cases hnull : addr = 0
    · cases current.elemAt <;> cases current.data <;> simp [hnull, eq_comm]
    by_cases hlive : count mapping addr ≤ index ∨ kMaxContainerCount < count mapping addr
    · cases current.elemAt <;> cases current.data <;> simp [hnull, hlive]
    cases current.elemAt with
    | some elemAt => simp [hnull, hlive, nonNull_eq_some_iff]
    | none =>
      cases current.data with
      | none => simp
      | some data =>
        simp [hnull, hlive, nonNull_eq_some_iff, Option.bind_eq_some_iff, and_assoc]

/-- Where the switch leads is where the element is. -/
theorem elementAddress_eq_some_iff {current : FieldDesc} {addr index a : ℕ}
    (hkind : current.kind ≠ .variant) :
    elementAddress mapping current addr index = some a ↔ fits current index = true ∧
      if addr = 0 then a = 0 else Located mapping current addr index a := by
  by_cases hcontainer : current.kind = .dynArray ∨ current.kind = .map ∨ current.kind = .optional
  · exact containerAddress_eq_some_iff hcontainer
  by_cases hpointer : current.kind = .pointer
  · have hlocated : Located mapping current addr index a ↔ PointsTo mapping addr a := by
      constructor
      · intro h
        cases h with
        | pointer _ hpoints => exact hpoints
        | variant h => simp [hpointer] at h
        | scalarArray h => simp [hpointer] at h
        | run h => exact absurd h.kind hcontainer
        | node h => exact absurd h.kind hcontainer
      · exact fun h => .pointer hpointer h
    rw [hlocated, ← pointee_eq_some_iff]
    simp only [elementAddress, fits, hpointer, decide_eq_true_eq]
    split <;> split <;> simp_all [eq_comm]
  by_cases harray : current.kind = .scalarArray
  · have hlocated : Located mapping current addr index a ↔
        index < current.elemCount ∧ a = addr + index * current.elemSize := by
      constructor
      · intro h
        cases h with
        | scalarArray _ hindex => exact ⟨hindex, rfl⟩
        | pointer h => exact absurd h hpointer
        | variant h => exact absurd h hkind
        | run h => exact absurd h.kind hcontainer
        | node h => exact absurd h.kind hcontainer
      · intro h
        exact h.2 ▸ .scalarArray harray h.1
    rw [hlocated]
    simp only [elementAddress, fits, harray, decide_eq_true_eq]
    split <;> split <;> simp_all [eq_comm]
  · -- nothing else has elements
    have haddr : elementAddress mapping current addr index = none := by
      unfold elementAddress
      split <;> simp_all
    have hfits : fits current index = false := by
      unfold fits
      split <;> simp_all
    simp [haddr, hfits]

/-- A variant's place is its data, and only for the alternative it holds. -/
theorem located_of_variant {current : FieldDesc} {addr index a : ℕ}
    (hkind : current.kind = .variant) :
    Located mapping current addr index a ↔ ∃ activeIndex data,
      current.activeIndex = some activeIndex ∧ current.data = some data ∧
      activeIndex mapping addr = index ∧ data mapping addr ≠ 0 ∧ data mapping addr = a := by
  constructor
  · intro h
    cases h with
    | variant _ hactive hdata hindex hheld => exact ⟨_, _, hactive, hdata, hindex, hheld, rfl⟩
    | pointer h => simp [hkind] at h
    | scalarArray h => simp [hkind] at h
    | run h => simpa [hkind] using h.kind
    | node h => simpa [hkind] using h.kind
  · intro h
    obtain ⟨activeIndex, data, hactive, hdata, hindex, hheld, rfl⟩ := h
    exact .variant hkind hactive hdata hindex hheld

/-- An index gives the descriptor that the types say, at the address of the element. -/
theorem element_eq_some_iff {current d : FieldDesc} {addr index a : ℕ} :
    element tables mapping current addr index = some (d, a) ↔
      elementDesc tables current index = some d ∧
        if addr = 0 then a = 0 else Located mapping current addr index a := by
  by_cases hkind : current.kind = .variant
  · rw [located_of_variant hkind]
    simp only [element, elementDesc, elementNumber, if_pos hkind]
    cases current.alternatives with
    | none => simp
    | some alternatives =>
      cases current.activeIndex with
      | none => simp
      | some activeIndex =>
        cases current.data with
        | none => simp
        | some data =>
          cases halternative : alternatives[index]? with
          | none => simp [halternative]
          | some alternative =>
            by_cases hnull : addr = 0
            · simp [halternative, hnull, eq_comm]
            by_cases hindex : activeIndex mapping addr = index
            · simp [halternative, hnull, hindex, Option.bind_eq_some_iff, nonNull_eq_some_iff]
              tauto
            · simp [halternative, hnull, hindex]
  · simp only [element, elementDesc, elementNumber, if_neg hkind]
    by_cases hsize : current.elemSize = 0
    · simp [hsize]
    cases current.elemDesc with
    | none => simp [hsize]
    | some number =>
      simp only [hsize, if_false, false_or, Option.bind_eq_bind, Option.bind_some,
        Option.bind_eq_some_iff, Option.some.injEq, Prod.mk.injEq,
        elementAddress_eq_some_iff hkind]
      cases fits current index <;> simp
      tauto

/-! ## Text -/

/-- Digits never lower the number read so far. -/
theorem le_foldl_digits (digits : Bytes) (n : ℕ) :
    n ≤ digits.foldl (fun n c => n * 10 + (c.toNat - 0x30)) n := by
  induction digits generalizing n with
  | nil => exact le_rfl
  | cons c digits ih =>
    calc n ≤ n * 10 + (c.toNat - 0x30) := by omega
      _ ≤ _ := ih _

/-- An index is read exactly from digits whose number is within the bound. -/
theorem readIndex_eq_some_iff {digits : Bytes} {n v : ℕ} (hn : n ≤ 0xffffff) :
    readIndex n digits = some v ↔ (∀ c ∈ digits, 0x30 ≤ c ∧ c ≤ 0x39) ∧
      digits.foldl (fun n c => n * 10 + (c.toNat - 0x30)) n = v ∧ v ≤ 0xffffff := by
  induction digits generalizing n with
  | nil =>
    simp only [readIndex, Option.some.injEq, List.not_mem_nil, false_implies, implies_true,
      List.foldl_nil, true_and]
    omega
  | cons c digits ih =>
    have hdigit : ¬ (c < 0x30 ∨ 0x39 < c) ↔ 0x30 ≤ c ∧ c ≤ 0x39 := by
      simp [UInt8.not_lt]
    rw [readIndex, List.forall_mem_cons, List.foldl_cons]
    by_cases hc : c < 0x30 ∨ 0x39 < c
    · have hno : ¬ (0x30 ≤ c ∧ c ≤ 0x39) := fun h => hdigit.mpr h hc
      simp [hc, hno]
    · rw [if_neg hc]
      by_cases hsmall : 0xffffff < n * 10 + (c.toNat - 0x30)
      · have hle := le_foldl_digits digits (n * 10 + (c.toNat - 0x30))
        rw [if_pos hsmall]
        simp only [reduceCtorEq, false_iff, not_and]
        omega
      · rw [if_neg hsmall, ih (by omega)]
        simp [hdigit.mp hc]

/-- A bracket is read up to the first closing one. -/
theorem bracketed_eq_some_iff {text digits rest : Bytes} :
    bracketed text = some (digits, rest) ↔
      text = 0x5b :: (digits ++ 0x5d :: rest) ∧ 0x5d ∉ digits := by
  cases text with
  | nil => simp [bracketed]
  | cons c text =>
    rw [bracketed]
    constructor
    · intro h
      split at h
      · simp at h
      · rename_i hopen
        simp only [not_or, not_not, Bool.not_eq_true', Bool.not_eq_false,
          List.contains_iff_mem] at hopen
        obtain ⟨rfl, hclose⟩ := hopen
        simp only [Option.some.injEq, Prod.mk.injEq] at h
        obtain ⟨rfl, rfl⟩ := h
        exact ⟨congrArg _ (Separator.split hclose).symm, Separator.notMem_before _ _⟩
    · intro h
      obtain ⟨htext, hdigits⟩ := h
      obtain ⟨rfl, rfl⟩ : c = 0x5b ∧ text = digits ++ 0x5d :: rest := by simpa using htext
      rw [Separator.before_of_split hdigits, Separator.after_of_split hdigits]
      simp

theorem Index.close_notMem (index : Index) : (0x5d : UInt8) ∉ index.digits := by
  intro hmem
  have hle := (index.digit _ hmem).2
  exact absurd hle (by decide)

/-- A subscript is an index in brackets. -/
theorem bracketed_index {text digits rest : Bytes} {v : ℕ} :
    bracketed text = some (digits, rest) ∧ digits ≠ [] ∧ readIndex 0 digits = some v ↔
      ∃ index : Index, index.digits = digits ∧ index.value = v ∧ text = index.text ++ rest := by
  rw [bracketed_eq_some_iff, readIndex_eq_some_iff (by norm_num)]
  constructor
  · intro h
    obtain ⟨⟨rfl, -⟩, hempty, hdigits, rfl, hsmall⟩ := h
    exact ⟨⟨digits, hempty, hdigits, hsmall⟩, rfl, rfl, by simp [Index.text]⟩
  · intro h
    obtain ⟨index, rfl, rfl, rfl⟩ := h
    have htext : index.text ++ rest = 0x5b :: (index.digits ++ 0x5d :: rest) := by
      simp [Index.text]
    exact ⟨⟨htext, index.close_notMem⟩, index.nonempty, index.digit, rfl, index.small⟩

/-! ## Subscripts -/

/-- One index moves as the source's steps do. -/
theorem moves_iff {current : FieldDesc} {index addr a : ℕ} :
    Moves mapping current index addr a ↔
      ¬ (addr ≠ 0 ∧ isContainerKind current.kind = true ∧
        (!headerReadable mapping addr current.size) = true) ∧
      if addr = 0 then a = 0 else Located mapping current addr index a := by
  unfold Moves
  by_cases hnull : addr = 0
  · simp [hnull]
  · simp [hnull]

/-- One turn of the loop. -/
theorem subscripts_succ {turns : ℕ} {text : Bytes} {current d : FieldDesc} {addr a : ℕ}
    (htext : text ≠ []) :
    subscripts tables mapping (turns + 1) text current addr = some (d, a) ↔
      ∃ (index : Index) (rest : Bytes) (next : FieldDesc) (addr' : ℕ),
        text = index.text ++ rest ∧ elementDesc tables current index.value = some next ∧
        Moves mapping current index.value addr addr' ∧
        subscripts tables mapping turns rest next addr' = some (d, a) := by
  obtain ⟨c, text, rfl⟩ := List.exists_cons_of_ne_nil htext
  rw [subscripts]
  constructor
  · intro h
    simp only [Option.bind_eq_bind, Option.bind_eq_some_iff] at h
    obtain ⟨⟨digits, rest⟩, hbracketed, h⟩ := h
    split at h
    · simp at h
    · rename_i hheader
      split at h
      · simp at h
      · rename_i hempty
        obtain ⟨v, hv, h⟩ := Option.bind_eq_some_iff.mp h
        obtain ⟨⟨next, addr'⟩, helement, hrest⟩ := Option.bind_eq_some_iff.mp h
        obtain ⟨index, -, rfl, htext⟩ :=
          bracketed_index.mp ⟨hbracketed, by simpa using hempty, hv⟩
        obtain ⟨hdesc, haddr⟩ := element_eq_some_iff.mp helement
        exact ⟨index, rest, next, addr', htext, hdesc, moves_iff.mpr ⟨hheader, haddr⟩, hrest⟩
  · intro h
    obtain ⟨index, rest, next, addr', htext, hdesc, hmoves, hrest⟩ := h
    obtain ⟨hbracketed, hempty, hindex⟩ := bracketed_index.mpr ⟨index, rfl, rfl, htext⟩
    obtain ⟨hheader, haddr⟩ := moves_iff.mp hmoves
    have helement := element_eq_some_iff.mpr ⟨hdesc, haddr⟩
    have hfilled : ¬ index.digits.isEmpty = true := by simpa using hempty
    simp only [hbracketed, Option.bind_eq_bind, Option.bind_some, if_neg hheader, if_neg hfilled,
      hindex, helement]
    exact hrest

/-- The subscripts of a segment are indices, and lead where these do. -/
theorem subscripts_eq_some_iff {d : FieldDesc} {a : ℕ} (turns : ℕ) :
    ∀ {text : Bytes} {current : FieldDesc} {addr : ℕ}, text.length ≤ turns →
      (subscripts tables mapping turns text current addr = some (d, a) ↔
        ∃ indices through, text = List.flatMap Index.text indices ∧
          Indexed tables mapping current addr indices d a through) := by
  -- at the end of the text no index is left
  have hnil : ∀ {current : FieldDesc} {addr : ℕ},
      (current = d ∧ addr = a) ↔ ∃ indices through, [] = List.flatMap Index.text indices ∧
        Indexed tables mapping current addr indices d a through := by
    intro current addr
    constructor
    · intro h
      obtain ⟨rfl, rfl⟩ := h
      exact ⟨[], _, rfl, .nil current addr⟩
    · intro h
      obtain ⟨indices, through, hempty, hindexed⟩ := h
      cases hindexed with
      | nil => exact ⟨rfl, rfl⟩
      | cons => simp [Index.text] at hempty
  induction turns with
  | zero =>
    intro text current addr hlength
    obtain rfl : text = [] := List.length_eq_zero_iff.mp (by omega)
    rw [subscripts, ← hnil]
    simp
  | succ turns ih =>
    intro text current addr hlength
    by_cases htext : text = []
    · subst htext
      rw [subscripts, ← hnil]
      simp
    rw [subscripts_succ htext]
    constructor
    · intro h
      obtain ⟨index, rest, next, addr', rfl, hdesc, hmoves, hrest⟩ := h
      have hshorter : rest.length ≤ turns := by
        simp only [Index.text, List.length_append, List.length_cons] at hlength
        omega
      obtain ⟨indices, through, rfl, hindexed⟩ := (ih hshorter).mp hrest
      exact ⟨index :: indices, current :: through, rfl, .cons hdesc hmoves hindexed⟩
    · intro h
      obtain ⟨indices, through, rfl, hindexed⟩ := h
      cases hindexed with
      | nil => exact absurd rfl htext
      | @cons _ next _ _ addr' _ index indices through hdesc hmoves hindexed =>
        have hshorter : (indices.flatMap Index.text).length ≤ turns := by
          rw [List.flatMap_cons, List.length_append, Index.text, List.length_cons] at hlength
          omega
        exact ⟨index, _, next, addr', rfl, hdesc, hmoves,
          (ih hshorter).mpr ⟨indices, through, rfl, hindexed⟩⟩

/-! ## Segments -/

namespace Segment

variable (segment : Segment)

theorem text_ne_nil : segment.text ≠ [] := by
  intro h
  exact segment.named (List.append_eq_nil_iff.mp h).1

/-- A segment's text holds no dot. -/
theorem dot_notMem : (0x2e : UInt8) ∉ segment.text := by
  intro h
  rcases List.mem_append.mp h with h | h
  · exact (segment.plain _ h).1 rfl
  · obtain ⟨index, -, h⟩ := List.mem_flatMap.mp h
    simp only [Index.text, List.mem_cons, List.mem_append, List.not_mem_nil, or_false] at h
    rcases h with h | h | h
    · exact absurd h (by decide)
    · exact absurd (index.digit _ h).1 (by decide)
    · exact absurd h (by decide)

/-- The name is what stands before the first bracket. -/
theorem name_eq : segment.text.takeWhile (· ≠ 0x5b) = segment.name := by
  have hplain : (0x5b : UInt8) ∉ segment.name := fun h => (segment.plain _ h).2 rfl
  unfold text
  cases segment.indices with
  | nil => rw [List.flatMap_nil, List.append_nil, Separator.before_of_none hplain]
  | cons index indices =>
    rw [List.flatMap_cons, Index.text, List.cons_append, Separator.before_of_split hplain]

/-- From its first bracket on, a segment's text is its indices. -/
theorem indices_eq :
    segment.text.dropWhile (· ≠ 0x5b) = segment.indices.flatMap Index.text := by
  have hsplit := List.takeWhile_append_dropWhile (p := (· ≠ 0x5b)) (l := segment.text)
  rw [segment.name_eq] at hsplit
  exact List.append_cancel_left hsplit

theorem getLast?_eq (h : segment.indices.flatMap Index.text ≠ []) :
    segment.text.getLast? = some 0x5d := by
  have hindices : segment.indices ≠ [] := by
    intro hnil
    exact h (by rw [hnil, List.flatMap_nil])
  obtain ⟨before, index, hlast⟩ : ∃ before index, segment.indices = before ++ [index] :=
    ⟨_, _, (List.dropLast_append_getLast hindices).symm⟩
  rw [text, hlast, List.flatMap_append, List.flatMap_singleton, Index.text, ← List.cons_append,
    ← List.append_assoc, ← List.append_assoc, List.getLast?_concat]

end Segment

/-- The walk goes on past a container exactly when its header can be read and its count is sane.
-/
theorem not_ends_iff {current : FieldDesc} {addr : ℕ} :
    ¬ (addr ≠ 0 ∧ isContainerKind current.kind = true ∧
        ((!headerReadable mapping addr current.size) = true ∨
          (current.count.any fun count => kMaxContainerCount < count mapping addr) = true)) ↔
      Ends mapping current addr := by
  unfold Ends
  cases current.count with
  | none => simp
  | some count => simp

/-- Following the pointers of a field agrees with the source's loop. -/
theorem descends_iff {current : FieldDesc} {addr a : ℕ} :
    descend mapping current addr = some a ↔ Descends mapping current addr a := by
  unfold descend Descends
  split
  · exact pointee_eq_some_iff
  · rw [Option.some.injEq, eq_comm]

/-- One turn of the walk: a segment, and the rest after a dot. -/
theorem resolveFrom_succ {steps : ℕ} {rest : Bytes} {cls : ClassFields} {addr : ℕ} {d : FieldDesc}
    {a : ℕ} :
    resolveFrom tables mapping (steps + 1) rest cls addr = some (d, a) ↔
      ∃ (segment : Segment) (field current : FieldDesc) (addr' : ℕ) (through : List FieldDesc),
        findField tables cls segment.name = some field ∧
        Indexed tables mapping field (fieldAddress addr field) segment.indices current addr'
          through ∧
        ((rest = segment.text ∧ Ends mapping current addr' ∧ current = d ∧ addr' = a) ∨
          ∃ (more : Bytes) (cls' : ClassFields) (addr'' : ℕ), rest = segment.text ++ 0x2e :: more ∧
            structTypeOf tables current = some cls' ∧ Descends mapping current addr' addr'' ∧
            resolveFrom tables mapping steps more cls' addr'' = some (d, a)) := by
  rw [resolveFrom]
  constructor
  · intro h
    simp only [] at h
    split at h
    · simp at h
    rename_i hsegment
    split at h
    · simp at h
    split at h
    · simp at h
    rename_i hname
    obtain ⟨field, hfield, h⟩ := Option.bind_eq_some_iff.mp h
    obtain ⟨⟨current, addr'⟩, hsubscripts, h⟩ := Option.bind_eq_some_iff.mp h
    obtain ⟨indices, through, htext, hindexed⟩ :=
      (subscripts_eq_some_iff _ le_rfl).mp hsubscripts
    have hdot : (0x2e : UInt8) ∉ rest.takeWhile (· ≠ 0x2e) := Separator.notMem_before _ _
    have hplain : ∀ c ∈ (rest.takeWhile (· ≠ 0x2e)).takeWhile (· ≠ 0x5b),
        c ≠ 0x2e ∧ c ≠ 0x5b := by
      intro c hc
      constructor
      · intro heq
        have hmem := (List.takeWhile_sublist _).subset hc
        exact hdot (heq ▸ hmem)
      · intro heq
        exact Separator.notMem_before _ _ (heq ▸ hc)
    refine ⟨⟨_, indices, by simpa using hname, hplain⟩, field, current, addr', through, hfield,
      hindexed, ?_⟩
    have hsegtext : Segment.text ⟨_, indices, by simpa using hname, hplain⟩ =
        rest.takeWhile (· ≠ 0x2e) := by
      rw [Segment.text, ← htext, List.takeWhile_append_dropWhile]
    rw [hsegtext]
    split at h
    · rename_i hlast
      have hnodot : (0x2e : UInt8) ∉ rest := by simpa using hlast
      split at h
      · simp at h
      · rename_i hends
        obtain ⟨rfl, rfl⟩ : current = d ∧ addr' = a := by simpa using h
        exact .inl ⟨(Separator.before_of_none hnodot).symm, not_ends_iff.mp hends, rfl, rfl⟩
    · rename_i hlast
      have hdotted : (0x2e : UInt8) ∈ rest := by simpa using hlast
      obtain ⟨cls', hcls, h⟩ := Option.bind_eq_some_iff.mp h
      obtain ⟨addr'', hdescends, h⟩ := Option.bind_eq_some_iff.mp h
      exact .inr ⟨_, cls', addr'', (Separator.split hdotted).symm, hcls,
        descends_iff.mp hdescends, h⟩
  · intro h
    obtain ⟨segment, field, current, addr', through, hfield, hindexed, h⟩ := h
    -- a segment has no dot, so the text is cut where it ends
    have hbefore : rest.takeWhile (· ≠ 0x2e) = segment.text := by
      rcases h with ⟨rfl, -⟩ | ⟨more, _, _, rfl, -⟩
      · exact Separator.before_of_none segment.dot_notMem
      · exact Separator.before_of_split segment.dot_notMem
    have hsubscripts := (subscripts_eq_some_iff _ le_rfl).mpr ⟨segment.indices, through, rfl,
      hindexed⟩
    have hsegment : ¬ segment.text.isEmpty = true := by simpa using segment.text_ne_nil
    have hname : ¬ segment.name.isEmpty = true := by simpa using segment.named
    have hbrackets : ¬ ((!(segment.indices.flatMap Index.text).isEmpty) = true ∧
        segment.text.getLast? ≠ some 0x5d) := by
      intro hboth
      exact hboth.2 (segment.getLast?_eq (by simpa using hboth.1))
    simp only [hbefore, segment.name_eq, segment.indices_eq, if_neg hsegment, if_neg hbrackets,
      if_neg hname, hfield, Option.bind_eq_bind, Option.bind_some]
    rw [fieldAddress] at hsubscripts
    simp only [hsubscripts, Option.bind_some]
    rcases h with ⟨rfl, hends, rfl, rfl⟩ | ⟨more, cls', addr'', rfl, hcls, hdescends, hrest⟩
    · have hnodot : (!segment.text.contains 0x2e) = true := by simpa using segment.dot_notMem
      rw [if_pos hnodot, if_neg (not_ends_iff.mpr hends)]
    · have hdotted : ¬ (!(segment.text ++ 0x2e :: more).contains 0x2e) = true := by simp
      rw [if_neg hdotted, hcls, Option.bind_some, descends_iff.mpr hdescends, Option.bind_some,
        Separator.after_of_split segment.dot_notMem]
      exact hrest

/-! ## Paths -/

/-- A path's text is its first segment, a dot and the rest. -/
theorem pathText_cons {segment : Segment} {rest : List Segment} (h : rest ≠ []) :
    pathText (segment :: rest) = segment.text ++ 0x2e :: pathText rest := by
  obtain ⟨next, rest, rfl⟩ := List.exists_cons_of_ne_nil h
  rfl

section

variable {cls : ClassFields} {addr a : ℕ} {segments : List Segment} {d : FieldDesc}
  {trail : List (List FieldDesc)}

theorem Leads.ne_nil (h : Leads tables mapping cls addr segments d a trail) : segments ≠ [] := by
  cases h <;> exact List.cons_ne_nil _ _

/-- The walk resolves what leads somewhere, and that is where it goes. -/
theorem resolveFrom_eq_some_iff (steps : ℕ) :
    ∀ {rest : Bytes} {cls : ClassFields} {addr : ℕ},
      resolveFrom tables mapping steps rest cls addr = some (d, a) ↔
        ∃ segments trail, segments.length ≤ steps ∧ rest = pathText segments ∧
          Leads tables mapping cls addr segments d a trail := by
  induction steps with
  | zero =>
    intro rest cls addr
    rw [resolveFrom]
    simp only [reduceCtorEq, false_iff]
    intro h
    obtain ⟨segments, trail, hlength, -, hleads⟩ := h
    exact hleads.ne_nil (List.length_eq_zero_iff.mp (by omega))
  | succ steps ih =>
    intro rest cls addr
    rw [resolveFrom_succ]
    constructor
    · intro h
      obtain ⟨segment, field, current, addr', through, hfield, hindexed, h⟩ := h
      rcases h with ⟨rfl, hends, rfl, rfl⟩ | ⟨more, cls', addr'', rfl, hcls, hdescends, hrest⟩
      · exact ⟨[segment], [through], by simp, rfl, .last hfield hindexed hends⟩
      · obtain ⟨segments, trail, hlength, rfl, hleads⟩ := ih.mp hrest
        refine ⟨segment :: segments, through :: trail, ?_, (pathText_cons hleads.ne_nil).symm,
          .dot hfield hindexed hcls hdescends hleads⟩
        rw [List.length_cons]
        omega
    · intro h
      obtain ⟨segments, trail, hlength, rfl, hleads⟩ := h
      cases hleads with
      | last hfield hindexed hends =>
        exact ⟨_, _, _, _, _, hfield, hindexed, .inl ⟨rfl, hends, rfl, rfl⟩⟩
      | dot hfield hindexed hcls hdescends hleads =>
        rw [List.length_cons] at hlength
        refine ⟨_, _, _, _, _, hfield, hindexed, .inr ⟨_, _, _, pathText_cons hleads.ne_nil, hcls,
          hdescends, ih.mpr ⟨_, _, by omega, rfl, hleads⟩⟩⟩

/-- What leads from an address leads from null, through the same descriptors. -/
theorem Indexed.null {current : FieldDesc} {indices : List Index} {through : List FieldDesc}
    (h : Indexed tables mapping current addr indices d a through) :
    Indexed tables mapping current 0 indices d 0 through := by
  induction h with
  | nil current addr => exact .nil current 0
  | cons hdesc _ _ ih => exact .cons hdesc (by simp [Moves]) ih

/-- A walk from a null place goes through the same fields at null. -/
theorem Leads.null (h : Leads tables mapping cls addr segments d a trail) :
    Leads tables mapping cls 0 segments d 0 trail := by
  induction h with
  | last hfield hindexed _ => exact .last hfield hindexed.null (by simp [Ends])
  | dot hfield hindexed hcls _ _ ih => exact .dot hfield hindexed.null hcls (by simp [Descends]) ih

/-- The descriptors are the types' alone. -/
theorem Indexed.unique {current d' : FieldDesc} {addr' a' : ℕ} {indices : List Index}
    {through through' : List FieldDesc}
    (h : Indexed tables mapping current addr indices d a through)
    (h' : Indexed tables mapping current addr' indices d' a' through') :
    d = d' ∧ through = through' := by
  induction h generalizing addr' through' with
  | nil =>
    cases h'
    exact ⟨rfl, rfl⟩
  | cons hdesc _ _ ih =>
    cases h' with
    | cons hdesc' _ hrest' =>
      obtain rfl := Option.some.inj (hdesc.symm.trans hdesc')
      obtain ⟨rfl, rfl⟩ := ih hrest'
      exact ⟨rfl, rfl⟩

/-- The fields a path leads through do not depend on the place it starts at. -/
theorem Leads.unique {d' : FieldDesc} {addr' a' : ℕ} {trail' : List (List FieldDesc)}
    (h : Leads tables mapping cls addr segments d a trail)
    (h' : Leads tables mapping cls addr' segments d' a' trail') : d = d' ∧ trail = trail' := by
  induction h generalizing addr' trail' with
  | last hfield hindexed _ =>
    cases h' with
    | last hfield' hindexed' _ =>
      obtain rfl := Option.some.inj (hfield.symm.trans hfield')
      obtain ⟨rfl, rfl⟩ := hindexed.unique hindexed'
      exact ⟨rfl, rfl⟩
    | dot _ _ _ _ hrest => exact absurd rfl hrest.ne_nil
  | dot hfield hindexed hcls _ hrest ih =>
    cases h' with
    | last => exact absurd rfl hrest.ne_nil
    | dot hfield' hindexed' hcls' _ hrest' =>
      obtain rfl := Option.some.inj (hfield.symm.trans hfield')
      obtain ⟨rfl, rfl⟩ := hindexed.unique hindexed'
      obtain rfl := Option.some.inj (hcls.symm.trans hcls')
      obtain ⟨rfl, rfl⟩ := ih hrest'
      exact ⟨rfl, rfl⟩

end

/-! ## A text is one path at most -/

/-- Indices are told by their text. -/
theorem indices_of_text {indices indices' : List Index}
    (h : indices.flatMap Index.text = indices'.flatMap Index.text) : indices = indices' := by
  induction indices generalizing indices' with
  | nil =>
    cases indices' with
    | nil => rfl
    | cons => simp [Index.text] at h
  | cons index indices ih =>
    cases indices' with
    | nil => simp [Index.text] at h
    | cons index' indices' =>
      simp only [List.flatMap_cons, Index.text, List.cons_append, List.append_assoc,
        List.nil_append, List.cons.injEq, true_and] at h
      obtain ⟨hdigits, hrest⟩ := Separator.parts_eq index.close_notMem index'.close_notMem h
      rw [Index.ext hdigits, ih hrest]

/-- A segment is told by its text. -/
theorem segment_of_text {segment segment' : Segment} (h : segment.text = segment'.text) :
    segment = segment' := by
  have hname : segment.name = segment'.name := by
    rw [← segment.name_eq, ← segment'.name_eq, h]
  have hindices : segment.indices = segment'.indices := by
    apply indices_of_text
    rw [← segment.indices_eq, ← segment'.indices_eq, h]
  exact Segment.ext hname hindices

/-- The segments of a path are told by its text. -/
theorem segments_of_pathText {segments segments' : List Segment} (hne : segments ≠ [])
    (hne' : segments' ≠ []) (h : pathText segments = pathText segments') :
    segments = segments' := by
  induction segments generalizing segments' with
  | nil => exact absurd rfl hne
  | cons segment rest ih =>
    obtain ⟨segment', rest', rfl⟩ := List.exists_cons_of_ne_nil hne'
    by_cases hrest : rest = []
    · by_cases hrest' : rest' = []
      · subst hrest hrest'
        rw [segment_of_text h]
      · subst hrest
        rw [pathText_cons hrest'] at h
        have hdot : (0x2e : UInt8) ∈ segment.text := by
          rw [show segment.text = _ from h]
          simp
        exact absurd hdot segment.dot_notMem
    · by_cases hrest' : rest' = []
      · subst hrest'
        rw [pathText_cons hrest] at h
        have hdot : (0x2e : UInt8) ∈ segment'.text := by
          rw [show segment'.text = _ from h.symm]
          simp
        exact absurd hdot segment'.dot_notMem
      · rw [pathText_cons hrest, pathText_cons hrest'] at h
        obtain ⟨hsegment, htexts⟩ := Separator.parts_eq segment.dot_notMem segment'.dot_notMem h
        rw [segment_of_text hsegment, ih hrest hrest' htexts]

/-! ## Read-only marks -/

section

variable {current d : FieldDesc} {addr a : ℕ} {through : List FieldDesc}

/-- An element of a read-only container is read-only. -/
theorem readOnly_of_elementDesc {next : FieldDesc} {index : ℕ}
    (h : elementDesc tables current index = some next) (hmark : current.readOnly = true) :
    next.readOnly = true := by
  obtain ⟨number, -, rfl⟩ := Option.map_eq_some_iff.mp h
  simp [hmark]

/-- A mark stays through indices, so that what a segment names has it. -/
theorem Indexed.marked_iff {indices : List Index}
    (h : Indexed tables mapping current addr indices d a through) :
    Marked through ↔ d.readOnly = true := by
  have hkeep : ∀ {current d : FieldDesc} {addr a : ℕ} {indices : List Index}
      {through : List FieldDesc}, Indexed tables mapping current addr indices d a through →
      current.readOnly = true → d.readOnly = true := by
    intro current d addr a indices through h
    induction h with
    | nil => exact id
    | cons hdesc _ _ ih => exact fun hmark => ih (readOnly_of_elementDesc hdesc hmark)
  induction h with
  | nil => simp [Marked]
  | cons hdesc hmoves hrest ih =>
    constructor
    · intro hmarked
      obtain ⟨x, hx, hmark⟩ := hmarked
      rcases List.mem_cons.mp hx with rfl | hx
      · exact hkeep hrest (readOnly_of_elementDesc hdesc hmark)
      · exact ih.mp ⟨x, hx, hmark⟩
    · intro hmark
      obtain ⟨x, hx, hmark⟩ := ih.mpr hmark
      exact ⟨x, List.mem_cons_of_mem _ hx, hmark⟩

/-- The last segment decides whether a path resolves as read-only. -/
theorem Leads.marked_last {cls : ClassFields} {segments : List Segment}
    {trail : List (List FieldDesc)} (h : Leads tables mapping cls addr segments d a trail) :
    ∃ before last, trail = before ++ [last] ∧ (Marked last ↔ d.readOnly = true) := by
  induction h with
  | @last _ _ _ _ _ _ through _ hindexed _ => exact ⟨[], through, rfl, hindexed.marked_iff⟩
  | @dot _ _ _ _ _ _ _ _ _ _ _ through _ _ _ _ _ _ ih =>
    obtain ⟨before, last, rfl, hmarked⟩ := ih
    exact ⟨through :: before, last, rfl, hmarked⟩

end

/-! ## The whole of it -/

section

variable {cls : ClassFields} {path : Bytes} {base : ℕ}

/-- A path resolves exactly when it is the text of segments that lead there. -/
theorem resolvePath_eq_some_iff {d : FieldDesc} {a : ℕ} :
    resolvePath tables mapping cls path base = some (d, a) ↔
      ∃ segments trail, segments.length ≤ 16 ∧ path = pathText segments ∧
        Leads tables mapping cls base segments d a trail :=
  resolveFrom_eq_some_iff 16

/-- A path that loses its mark is resolved, as writable. -/
theorem not_resolvesRight (h : LosesMark tables mapping cls path base) :
    ¬ ResolvesRight tables mapping cls path base := by
  intro hright
  obtain ⟨segments, d, a, before, last, rfl, hlength, hleads, hbefore, hlast⟩ := h
  obtain ⟨segments', trail', hresolves⟩ :=
    hright d a (resolvePath_eq_some_iff.mpr ⟨segments, _, hlength, rfl, hleads⟩)
  obtain rfl := segments_of_pathText hleads.ne_nil hresolves.typed.ne_nil hresolves.accepted.1
  obtain ⟨-, rfl⟩ := hleads.unique hresolves.address
  obtain ⟨through, hin, hmarked⟩ := hbefore
  have hmark := hresolves.readOnly ⟨through, List.mem_append_left _ hin, hmarked⟩
  obtain ⟨before', last', htrail, hiff⟩ := hleads.marked_last
  have hlasts : last = last' := by
    simpa using congrArg List.getLast? htrail
  exact hlast (hlasts ▸ hiff.mpr hmark)

/-- Any other is resolved as it is to be. -/
theorem resolvesRight_of_not (h : ¬ LosesMark tables mapping cls path base) :
    ResolvesRight tables mapping cls path base := by
  intro d a hresolve
  obtain ⟨segments, trail, hlength, hpath, hleads⟩ := resolvePath_eq_some_iff.mp hresolve
  refine ⟨segments, trail, ⟨hpath, hlength⟩, hleads.null,
    resolvePath_eq_some_iff.mpr ⟨segments, trail, hlength, hpath, hleads.null⟩, hleads, ?_⟩
  intro hmarked
  obtain ⟨before, last, rfl, hiff⟩ := hleads.marked_last
  by_contra hmark
  have hlast : ¬ Marked last := fun hlast => hmark (hiff.mp hlast)
  obtain ⟨through, hin, hthrough⟩ := hmarked
  rcases List.mem_append.mp hin with hin | hin
  · exact h ⟨segments, d, a, before, last, hpath, hlength, hleads, ⟨through, hin, hthrough⟩, hlast⟩
  · exact hlast (List.mem_singleton.mp hin ▸ hthrough)

/-- An element lies inside the run that it is of. -/
theorem Located.inside {current : FieldDesc} {addr index a start n : ℕ}
    (h : Located mapping current addr index a) (hrun : ElementRun mapping current addr start n) :
    start ≤ a ∧ a + current.elemSize ≤ start + n * current.elemSize := by
  have hinside : ∀ {m : ℕ}, index < m →
      index * current.elemSize + current.elemSize ≤ m * current.elemSize := by
    intro m hm
    calc index * current.elemSize + current.elemSize = (index + 1) * current.elemSize := by ring
      _ ≤ m * current.elemSize := Nat.mul_le_mul_right _ hm
  cases hrun with
  | scalarArray hkind =>
    cases h with
    | scalarArray _ hindex =>
      have hle := hinside hindex
      omega
    | variant h => simp [hkind] at h
    | pointer h => simp [hkind] at h
    | run h => simpa [hkind] using h.kind
    | node h => simpa [hkind] using h.kind
  | container hkind hnode hcount hdata =>
    cases h with
    | run hcounts _ hdata' _ =>
      obtain ⟨count, hcount', hindex, -⟩ := hcounts.live
      obtain rfl := Option.some.inj (hcount.symm.trans hcount')
      obtain rfl := Option.some.inj (hdata.symm.trans hdata')
      have hle := hinside hindex
      omega
    | node _ hnode' => simp [hnode] at hnode'
    | scalarArray h => simp [h] at hkind
    | variant h => simp [h] at hkind
    | pointer h => simp [h] at hkind

/-- `SetField` writes where the path leads, and where no mark is lost it writes past none. -/
theorem setField_writes {target : Target} (hkeeps : ¬ LosesMark tables mapping cls path base)
    (h : setField tables mapping cls path base = .writes target) :
    ∃ segments d trail, path = pathText segments ∧
      Leads tables mapping cls base segments d target.addr trail ∧
      ∀ through ∈ trail, ¬ Marked through := by
  unfold setField at h
  split at h
  · simp at h
  rename_i target' hmeta
  split at h
  · simp at h
  rename_i hwritable
  obtain rfl : target' = target := by simpa using h
  unfold metaResolve at hmeta
  split at hmeta
  · simp at hmeta
  obtain ⟨⟨d, a⟩, hresolve, hmeta⟩ := Option.bind_eq_some_iff.mp hmeta
  dsimp only at hmeta
  split at hmeta
  · simp at hmeta
  obtain rfl := Option.some.inj hmeta
  obtain ⟨segments, trail, hresolves⟩ := resolvesRight_of_not hkeeps d a hresolve
  refine ⟨segments, d, trail, hresolves.accepted.1, hresolves.address, ?_⟩
  intro through hin hmarked
  exact hwritable (hresolves.readOnly ⟨through, hin, hmarked⟩)

/-- A resolved path is well formed and well typed, resolves so without a component, and leads
through live containers and pointers to an address inside the run of each element; and it is
read-only after anything read-only exactly where no mark is lost at a dot. -/
theorem resolvePath_right_iff (tables : Tables) (mapping : Mapping) (cls : ClassFields)
    (path : Bytes) (base : ℕ) :
    (∀ cls name f, findField tables cls name = some f →
      f.name = name ∧ ∃ depth ≤ 8, HasField tables depth cls f) ∧
    (∀ cls f, ∀ depth ≤ 8, HasField tables depth cls f → findField tables cls f.name ≠ none) ∧
    (∀ current addr index a start n, Located mapping current addr index a →
      ElementRun mapping current addr start n →
      start ≤ a ∧ a + current.elemSize ≤ start + n * current.elemSize) ∧
    (ResolvesRight tables mapping cls path base ↔ ¬ LosesMark tables mapping cls path base) := by
  refine ⟨?_, ?_, fun _ _ _ _ _ _ hlocated hrun => hlocated.inside hrun, ?_⟩
  · intro cls name f h
    obtain ⟨hname, depth, hdepth, hfield⟩ := hasField_of_findFieldFrom 9 h
    exact ⟨hname, depth, by omega, hfield⟩
  · intro cls f depth hdepth hfield
    exact findFieldFrom_ne_none hfield (by omega)
  · exact ⟨fun hright hloses => not_resolvesRight hloses hright, resolvesRight_of_not⟩

/-! ## The waypoints of a party -/

def waypointName : FieldDesc where
  name := bytes "Name"
  kind := .fixedString
  size := 4

def waypointClass : ClassFields where
  name := bytes "party::Waypoint"
  typeName := bytes "eoc::party::Waypoint"
  fields := [
    waypointName,
    { name := bytes "TemporaryName", kind := .guid, offset := 8, size := 16 },
    { name := bytes "Level", kind := .fixedString, offset := 24, size := 4 }]

/-- The waypoints are a hash set. -/
def waypointsField : FieldDesc where
  name := bytes "Waypoints"
  kind := .dynArray
  size := 48
  elemSize := 32
  elemTypeName := some (bytes "eoc::party::Waypoint")
  count := some fun mapping addr => ((peek mapping (addr + 40)).getD 0) / 2 ^ 32
  data := some fun mapping addr => (peek mapping (addr + 32)).getD 0
  readOnly := true
  elemDesc := some 0

def waypointsComponent : ClassFields where
  name := bytes "party::WaypointsComponent"
  typeName := bytes "eoc::party::WaypointsComponent"
  fields := [{ name := bytes "BaseComponent", kind := .inherit }, waypointsField]

def waypointTables : Tables where
  classes := [waypointClass, waypointsComponent]
  desc := fun _ =>
    { name := bytes "(element)", kind := .struct, size := 32,
      typeName := some (bytes "eoc::party::Waypoint") }

/-- What an index of the set leads to. -/
def waypointElement : FieldDesc where
  name := bytes "Waypoints"
  kind := .struct
  size := 32
  typeName := some (bytes "eoc::party::Waypoint")
  readOnly := true

/-- A component at 0x20000, whose set has one waypoint at 0x30000. -/
def waypointMemory : Mapping := fun addr =>
  some (if addr = 0x20022 then 3 else if addr = 0x20028 ∨ addr = 0x2002c then 1 else 0)

/-- Below a read-only list of waypoints a name after a dot has lost the mark. -/
theorem waypointMemory_losesMark :
    LosesMark waypointTables waypointMemory waypointsComponent (bytes "Waypoints[0].Name")
      0x20000 := by
  let index : Index := ⟨bytes "0", by decide, by decide +kernel, by decide +kernel⟩
  let segments : List Segment := [⟨bytes "Waypoints", [index], by decide, by decide +kernel⟩,
    ⟨bytes "Name", [], by decide, by decide +kernel⟩]
  have hcounts : Counts waypointMemory waypointsField 0x20000 0 :=
    ⟨.inl rfl, _, rfl, by decide +kernel, by decide +kernel⟩
  have hmoves : Moves waypointMemory waypointsField 0 0x20000 0x30000 := by
    refine ⟨fun _ => by decide +kernel, ?_⟩
    exact Located.run hcounts rfl rfl (by decide +kernel)
  have hleads : Leads waypointTables waypointMemory waypointsComponent 0x20000 segments
      waypointName 0x30000 ([[waypointsField, waypointElement]] ++ [[waypointName]]) :=
    .dot rfl (.cons rfl hmoves (.nil _ _)) rfl rfl
      (.last rfl (.nil _ _) (fun _ hkind => absurd hkind (by decide)))
  refine ⟨segments, _, _, _, _, by decide +kernel, by decide +kernel, hleads, ⟨_, List.mem_cons_self, ?_⟩, ?_⟩
  · exact ⟨waypointsField, List.mem_cons_self, rfl⟩
  · simp [Marked, waypointName]

/-- The name of a waypoint, which its set is hashed by, is handed out as writable. -/
theorem waypoint_name_writable :
    ¬ ResolvesRight waypointTables waypointMemory waypointsComponent (bytes "Waypoints[0].Name")
        0x20000 ∧
      setField waypointTables waypointMemory waypointsComponent (bytes "Waypoints[0]") 0x20000 =
        .readOnly ∧
      setField waypointTables waypointMemory waypointsComponent (bytes "Waypoints[0].Name")
        0x20000 = .writes ⟨0x30000, .fixedString, 4, false⟩ :=
  ⟨not_resolvesRight waypointMemory_losesMark, by decide +kernel, by decide +kernel⟩

end

end ComponentMeta
end Bg3le
