import Bg3le.Meta.WriteField

/-!
# What a write that fails leaves

A value that is stored at once is stored or not. A fixed array keeps what was written before the
element that fails, as a set in a variant does, a dynamic array has been emptied by then, and an
optional engaged; so the write is all or nothing exactly where that makes no difference.
-/

namespace Bg3le
namespace WriteField

open Lua

variable {host : Host} {act : Value → Each} {vs : List Value} {start es : List Bytes}
  {v given x : Value} {kind elemKind : FieldKind} {p q : Payload} {f : Field} {b : Bytes}
  {labels : Option EnumInfo} {i n : ℕ} {g : Genome.Variant} {type : Bytes} {value : Value}
  {parts : List Bytes}

/-! ## The loop -/

def Each.stops : Each → Prop
  | .stop _ => True
  | _ => False

/-- The loop over `start` leaves these elements: what is stored up to where it stops, and what was
there from there on. -/
def Leaves (act : Value → Each) : List Value → List Bytes → List Bytes → Prop
  | [], start, es => es = start
  | _ :: _, [], es => es = []
  | _ :: _, _ :: _, [] => False
  | v :: vs, s :: start, e :: es =>
    match act v with
    | .store b => e = b ∧ Leaves act vs start es
    | .keep => e = s ∧ Leaves act vs start es
    | .stop _ => e = s ∧ es = start

/-- What the loop leaves is written up to the element it stopped at. -/
theorem writeEach_snd_iff : (writeEach act vs start).2 = es ↔ Leaves act vs start es := by
  induction vs generalizing start es with
  | nil => simp [writeEach, Leaves, eq_comm]
  | cons v vs ih =>
    cases start with
    | nil => simp [writeEach, Leaves, eq_comm]
    | cons s start =>
      cases es with
      | nil => cases hact : act v <;> simp [writeEach, Leaves, hact]
      | cons e es =>
        cases hact : act v with
        | store b => simp [writeEach, Leaves, hact, ← ih, eq_comm (a := b)]
        | keep => simp [writeEach, Leaves, hact, ← ih, eq_comm (a := s)]
        | stop outcome => simp [writeEach, Leaves, hact, eq_comm]

/-- The loop is through when no element stops it. -/
theorem writeEach_fst_iff (hlength : vs.length = start.length) :
    (writeEach act vs start).1 = none ↔ ∀ v ∈ vs, ¬ (act v).stops := by
  induction vs generalizing start with
  | nil => simp [writeEach]
  | cons v vs ih =>
    cases start with
    | nil => simp at hlength
    | cons s start =>
      have hrest : (writeEach act vs start).1 = none ↔ ∀ v ∈ vs, ¬ (act v).stops :=
        ih (by simpa using hlength)
      cases hact : act v with
      | store b => simp [writeEach, hact, hrest, Each.stops]
      | keep => simp [writeEach, hact, hrest, Each.stops]
      | stop outcome => simp [writeEach, hact, Each.stops]

theorem length_writeEach : (writeEach act vs start).2.length = start.length := by
  induction vs generalizing start with
  | nil => simp [writeEach]
  | cons v vs ih =>
    cases start with
    | nil => simp [writeEach]
    | cons s start => cases hact : act v <;> simp [writeEach, hact, ih]

/-- Every value that is stored is where it belongs. -/
theorem getElem?_writeEach (hnone : ∀ v ∈ vs, ¬ (act v).stops) (hv : vs[i]? = some v)
    (hi : i < start.length) (hact : act v = .store b) :
    (writeEach act vs start).2[i]? = some b := by
  induction vs generalizing start i with
  | nil => simp at hv
  | cons u vs ih =>
    cases start with
    | nil => simp at hi
    | cons s start =>
      cases i with
      | zero =>
        obtain rfl : u = v := by simpa using hv
        simp [writeEach, hact]
      | succ i =>
        have hrest : (writeEach act vs start).2[i]? = some b :=
          ih (fun w hw => hnone w (List.mem_cons_of_mem _ hw)) (by simpa using hv)
            (by simpa using hi)
        have hgoes := hnone u (List.mem_cons_self ..)
        cases hu : act u with
        | store c => simpa [writeEach, hu] using hrest
        | keep => simpa [writeEach, hu] using hrest
        | stop outcome => simp [hu, Each.stops] at hgoes

/-- What the loop stopped with is what one of the elements came to. -/
theorem exists_of_writeEach {outcome : Outcome} (h : (writeEach act vs start).1 = some outcome) :
    ∃ v ∈ vs, act v = .stop outcome := by
  induction vs generalizing start with
  | nil => simp [writeEach] at h
  | cons v vs ih =>
    cases start with
    | nil => simp [writeEach] at h
    | cons s start =>
      cases hact : act v with
      | store b =>
        have hrest : (writeEach act vs start).1 = some outcome := by
          simpa [writeEach, hact] using h
        obtain ⟨w, hw, hstop⟩ := ih hrest
        exact ⟨w, List.mem_cons_of_mem _ hw, hstop⟩
      | keep =>
        have hrest : (writeEach act vs start).1 = some outcome := by
          simpa [writeEach, hact] using h
        obtain ⟨w, hw, hstop⟩ := ih hrest
        exact ⟨w, List.mem_cons_of_mem _ hw, hstop⟩
      | stop o => exact ⟨v, List.mem_cons_self .., by simpa [writeEach, hact] using h⟩

/-- What a loop answers that stops at an element that is not written. -/
theorem writeEach_done_iff (hlength : vs.length = start.length)
    (hstop : ∀ v outcome, act v = .stop outcome → outcome.result ≠ .done) :
    (writeEach act vs start).1.elim .done Outcome.result = .done ↔ ∀ v ∈ vs, ¬ (act v).stops := by
  rw [← writeEach_fst_iff hlength]
  cases hfst : (writeEach act vs start).1 with
  | none => simp
  | some outcome =>
    obtain ⟨v, -, hv⟩ := exists_of_writeEach hfst
    simp [hstop v outcome hv]

/-- An element that stops the loop is not done. -/
theorem eachElement_stop {outcome : Outcome} (h : eachElement host kind v = .stop outcome) :
    outcome.result ≠ .done := by
  unfold eachElement at h
  cases hstored : writeScalar host kind v with
  | stored b => simp [hstored] at h
  | refused | raised =>
    obtain rfl : _ = outcome := by simpa [hstored] using h
    nofun

/-- An element of a fixed array that stops the loop is not done. -/
theorem fixedElement_stop {outcome : Outcome} (h : fixedElement host kind v = .stop outcome) :
    outcome.result ≠ .done := by
  unfold fixedElement at h
  split at h
  · cases h
  · exact eachElement_stop h

/-- An element that the loop goes on after is stored. -/
theorem exists_of_not_stops (h : ¬ (eachElement host kind v).stops) :
    ∃ b, writeScalar host kind v = .stored b ∧ eachElement host kind v = .store b := by
  unfold eachElement at h ⊢
  cases hstored : writeScalar host kind v with
  | stored b => exact ⟨b, rfl, rfl⟩
  | refused | raised => simp [hstored, Each.stops] at h

/-! ## The items of a table -/

theorem isNil_iff : v.isNil = true ↔ v = .nil := by
  cases v <;> simp [Value.isNil]

/-- The item of a place, counted from 0. -/
def nth (v : Value) (i : ℕ) : Value := item v (Int64.ofNat (i + 1))

@[simp] theorem length_items : (items v n).length = n := by
  simp [items]

theorem getElem?_items (hi : i < n) : (items v n)[i]? = some (nth v i) := by
  simp [items, nth, hi]

/-- The table of a list has its values by position. -/
theorem get_tableFrom (hi : n + i < 2 ^ 63) :
    (tableFrom n vs).get (.integer (Int64.ofNat (n + i))) = (vs[i]?).getD .nil := by
  induction vs generalizing n i with
  | nil => simp [tableFrom, Entries.get]
  | cons v vs ih =>
    cases i with
    | zero => simp [tableFrom, Entries.get]
    | succ i =>
      have hne : (Int64.ofNat n) ≠ Int64.ofNat (n + (i + 1)) := by
        intro h
        have := congrArg Int64.toInt h
        rw [Int64.toInt_ofNat_of_lt (by omega), Int64.toInt_ofNat_of_lt hi] at this
        omega
      have hrest := ih (n := n + 1) (i := i) (by omega)
      rw [show n + 1 + i = n + (i + 1) by omega] at hrest
      rw [tableFrom, Entries.get, if_neg (by simpa only [Key.integer.injEq] using hne),
        List.getElem?_cons_succ]
      exact hrest

/-- All values are made when each one is. -/
theorem mapM_eq_some_iff {α β : Type} {f : α → Option β} {xs : List α} {ys : List β} :
    xs.mapM f = some ys ↔ xs.map f = ys.map some := by
  induction xs generalizing ys with
  | nil => cases ys <;> simp
  | cons x xs ih =>
    cases ys with
    | nil => simp [List.mapM_cons, Option.bind_eq_some_iff]
    | cons y ys => simp [List.mapM_cons, Option.bind_eq_some_iff, ← ih]

/-! ## Labels -/

/-- What `enum_elements_in_place` does to an element. -/
def elementArg (host : Host) (labels : Option EnumInfo) (x : Value) : Option Value :=
  match labels with
  | none => some x
  | some e => if e.labels = [] then some x else enumArg host (some e) x

/-- A label is only ever taken for a number. -/
theorem enumArg_shape (h : enumArg host labels x = some v) :
    v = x ∨ (∃ i, v = .integer i) ∨ ∃ s, v = .string s := by
  cases x with
  | other id =>
    cases huserdata : host.userdata id with
    | enumValue label value =>
      simp only [enumArg, huserdata] at h
      split at h
      · exact .inr (.inr ⟨label, by simpa using h.symm⟩)
      · split at h
        · exact .inr (.inr ⟨label, by simpa using h.symm⟩)
        · obtain ⟨i, -, rfl⟩ := Option.map_eq_some_iff.mp h
          exact .inr (.inl ⟨_, rfl⟩)
    | bitfieldValue value => exact .inr (.inl ⟨value, by simpa [enumArg, huserdata] using h.symm⟩)
    | entity handle => exact .inl (by simpa [enumArg, huserdata] using h.symm)
    | other => exact .inl (by simpa [enumArg, huserdata] using h.symm)
  | string s =>
    simp only [enumArg] at h
    split at h
    · exact .inl (by simpa using h.symm)
    · split at h
      · exact .inl (by simpa using h.symm)
      · obtain ⟨i, -, rfl⟩ := Option.map_eq_some_iff.mp h
        exact .inr (.inl ⟨_, rfl⟩)
  | table entries =>
    simp only [enumArg] at h
    split at h
    · exact .inl (by simpa using h.symm)
    · split at h
      · exact .inl (by simpa using h.symm)
      · split at h
        · obtain ⟨bits, -, hbits⟩ := Option.bind_eq_some_iff.mp h
          exact .inr (.inl ⟨_, by simpa using hbits.symm⟩)
        · exact .inl (by simpa using h.symm)
  | nil | boolean _ | integer _ | number _ =>
    simp only [enumArg] at h
    split at h
    · exact .inl (by simpa using h.symm)
    · split at h <;> exact .inl (by simpa using h.symm)

/-- A table is no label, so it stays as it is. -/
theorem enumArg_table (h : enumArg host labels x = some v) (htable : v.isTable) : v = x := by
  obtain h | ⟨i, rfl⟩ | ⟨s, rfl⟩ := enumArg_shape h
  · exact h
  · simp [Value.isTable] at htable
  · simp [Value.isTable] at htable

/-- A value that is there stays there. -/
theorem elementArg_ne_nil (h : elementArg host labels x = some v) (hx : x ≠ .nil) : v ≠ .nil := by
  have key (e) (h : enumArg host e x = some v) : v ≠ .nil := by
    obtain rfl | ⟨i, rfl⟩ | ⟨s, rfl⟩ := enumArg_shape h
    · exact hx
    · nofun
    · nofun
  cases labels with
  | none =>
    obtain rfl : x = v := by simpa [elementArg] using h
    exact hx
  | some e =>
    by_cases hlabels : e.labels = []
    · obtain rfl : x = v := by simpa [elementArg, hlabels] using h
      exact hx
    · exact key (some e) (by simpa [elementArg, hlabels] using h)

/-- Labels are only resolved within a table. -/
theorem enumElements_isTable (h : enumElements host labels x n = some v) (htable : v.isTable) :
    x.isTable := by
  simp only [enumElements] at h
  split at h
  · obtain rfl : x = v := by simpa using h
    exact htable
  · split at h
    · obtain rfl : x = v := by simpa using h
      exact htable
    · grind

/-- Each element of the table is resolved by itself. -/
theorem nth_enumElements (h : enumElements host labels x n = some v) (htable : v.isTable)
    (hi : i < n) (hbound : i + 1 < 2 ^ 63) :
    elementArg host labels (nth x i) = some (nth v i) := by
  cases labels with
  | none =>
    obtain rfl : x = v := by simpa [enumElements] using h
    rfl
  | some e =>
    by_cases hlabels : e.labels = []
    · obtain rfl : x = v := by simpa [enumElements, hlabels] using h
      simp [elementArg, hlabels]
    · have hx := enumElements_isTable h htable
      simp only [enumElements, hx, hlabels, Bool.not_true, Bool.false_eq_true, or_self, ↓reduceIte,
        Option.map_eq_some_iff] at h
      obtain ⟨vs, hvs, rfl⟩ := h
      have hget := congrArg (·[i]?) (mapM_eq_some_iff.mp hvs)
      simp only [List.getElem?_map, getElem?_items hi, Option.map_some] at hget
      obtain ⟨y, hy, hyx⟩ := Option.map_eq_some_iff.mp hget.symm
      have hnth : nth (.table (tableFrom 1 vs)) i = y := by
        have hfrom : (tableFrom 1 vs).get (.integer (Int64.ofNat (1 + i))) = (vs[i]?).getD .nil :=
          get_tableFrom (by omega)
        rw [hy, Option.getD_some, Nat.add_comm] at hfrom
        exact hfrom
      rw [hnth, hyx]
      simp [elementArg, hlabels]

/-- A list has no items from a place on. -/
def NoneFrom (v : Value) (n : ℕ) : Prop := ∀ i ≥ n, i + 1 < 2 ^ 63 → nth v i = .nil

theorem nth_of_not_isTable (h : ¬ v.isTable) : nth v i = .nil := by
  cases v with
  | table entries => simp [Value.isTable] at h
  | _ => rfl

/-! ## A `GenomeVariant` -/

namespace Genome

/-- What a write comes to before anything is stored. -/
inductive Course where
  | unreadable
  | raises
  | leaves
  | stores (type : Bytes) (value : Value)

/-- A value that is held already, or of another type than the variant's, is not stored. -/
def course (host : Host) (v : Value) (g : Variant) : Course :=
  match g.type host with
  | none => .unreadable
  | some current =>
    if current ≠ [] ∧ (push host current g.parts).any (sameValue host v) then .leaves
    else match wanted host v with
    | none => .raises
    | some (type, value) =>
      if type = [] then .leaves
      else if !converts host type value ∨ current = [] then .raises
      else if current ≠ type then .leaves
      else .stores type value

theorem write_eq :
    write host v g =
      match course host v g with
      | .unreadable => (.refused, g)
      | .raises => (.raised, g)
      | .leaves => (.done, g)
      | .stores type value =>
        ((store host type value g.parts).1, { g with parts := (store host type value g.parts).2 }) := by
  unfold write course
  cases g.type host with
  | none => rfl
  | some current =>
    dsimp only
    split
    · rfl
    · cases wanted host v with
      | none => rfl
      | some typed =>
        obtain ⟨type, value⟩ := typed
        dsimp only
        split
        · rfl
        · split
          · rfl
          · split <;> rfl

/-- The list that is given: the table, or its `Value`. -/
def listOf (v : Value) : Value :=
  match v with
  | .table entries =>
    if (entries.get (.string (bytes "Type"))).isNil then v else entries.get (.string (bytes "Value"))
  | v => v

/-- The kind of the elements of a type that has any. -/
def elementKind (type : Bytes) : FieldKind :=
  match shapeOf type with
  | some (.scalarArray, _) => .float
  | some _ => .unsupported
  | none => (setOf type).getD .unsupported

/-- Every item of the list that is given is converted and where it belongs. The table of a struct
is no list. -/
def Holds (host : Host) (v : Value) (g : Variant) : Prop :=
  ∀ type, g.type host = some type → type ≠ timelineData → ∀ i, i + 1 < 2 ^ 63 →
    nth (listOf v) i ≠ .nil →
      ∃ b, writeScalar host (elementKind type) (nth (listOf v) i) = .stored b ∧
        g.parts[i]? = some b

/-- The value of the variant's own type, or every element of it, can be stored. -/
def StoreConverts (host : Host) (type : Bytes) (v : Value) (parts : List Bytes) : Prop :=
  match shapeOf type, setOf type with
  | some (.scalarArray, _), _ => True
  | some (kind, _), _ => ∃ b, writeScalar host kind v = .stored b
  | none, some kind => ∃ entries, v = .table entries ∧
    (host.rawlen entries).val % 2 ^ 32 = parts.length ∧
      ∀ x ∈ items v parts.length, ¬ (eachElement host kind x).stops
  | none, none => (host.unserialize v parts).1 = true

/-- Every item of the list has a place. -/
def StoreFits (type : Bytes) (v : Value) (parts : List Bytes) : Prop :=
  match shapeOf type, setOf type with
  | some (.scalarArray, count), _ => NoneFrom v count
  | some _, _ => True
  | none, some _ => NoneFrom v parts.length
  | none, none => True

/-- What is stored before an element that fails is there already, and so is what `Unserialize`
leaves. -/
def StoreHarmless (host : Host) (type : Bytes) (v : Value) (parts : List Bytes) : Prop :=
  match shapeOf type, setOf type with
  | some _, _ => True
  | none, some kind => ∀ entries, v = .table entries →
    (host.rawlen entries).val % 2 ^ 32 = parts.length →
      Leaves (eachElement host kind) (items v parts.length) parts parts
  | none, none => (host.unserialize v parts).2 = parts

/-- The write goes through. -/
def Converts (host : Host) (v : Value) (g : Variant) : Prop :=
  match course host v g with
  | .unreadable | .raises => False
  | .leaves => True
  | .stores type value => StoreConverts host type value g.parts

/-- A list that is not stored is held already, and one that is stored has a place for each item. -/
def Fits (host : Host) (v : Value) (g : Variant) : Prop :=
  match course host v g with
  | .unreadable | .raises => True
  | .leaves => Holds host v g
  | .stores type value => StoreFits type value g.parts

def Harmless (host : Host) (v : Value) (g : Variant) : Prop :=
  match course host v g with
  | .stores type value => StoreHarmless host type value g.parts
  | _ => True

theorem course_stores (h : course host v g = .stores type value) :
    g.type host = some type ∧ wanted host v = some (type, value) ∧ type ≠ [] ∧
      converts host type value := by
  unfold course at h
  split at h
  · cases h
  · split at h
    · cases h
    · split at h
      · cases h
      · grind

/-- The list that is stored is the one that was wanted. -/
theorem listOf_of_wanted (h : wanted host v = some (type, value)) (htype : type ≠ []) :
    listOf v = value := by
  cases v with
  | table entries =>
    simp only [wanted] at h
    split at h
    · grind
    · next hnil =>
      obtain ⟨text, -, htext⟩ := Option.map_eq_some_iff.mp h
      cases htext
      simp [listOf, hnil]
  | _ => simp_all [wanted, listOf]

/-- A value of a type that is stored at once is no table. -/
theorem not_isTable_of_converts {kind : FieldKind} {count : ℕ}
    (hshape : shapeOf type = some (kind, count)) (hkind : kind ≠ .scalarArray)
    (h : converts host type v) : ¬ v.isTable := by
  intro htable
  cases v with
  | table entries => cases kind <;> simp_all [converts, toFloat, toInteger, toText, number]
  | _ => simp [Value.isTable] at htable

/-- Every number of the list can be converted. -/
theorem toFloat_of_converts {count : ℕ} (hshape : shapeOf type = some (.scalarArray, count))
    (h : converts host type v) (hi : i < count) : (toFloat host (nth v i)).isSome := by
  simp only [converts, hshape, Bool.and_eq_true, List.all_eq_true] at h
  exact h.2 _ (List.mem_of_getElem? (getElem?_items hi))

/-- A set is written from a table. -/
theorem setOf_of_converts (hshape : shapeOf type = none) (h : converts host type v) :
    (∃ entries, v = .table entries) ∧ (setOf type = none → type = timelineData) := by
  simp only [converts, hshape, Bool.and_eq_true, Bool.or_eq_true, decide_eq_true_eq] at h
  refine ⟨?_, fun hset => by simpa [hset] using h.1⟩
  cases v with
  | table entries => exact ⟨entries, rfl⟩
  | _ => simp [Value.isTable] at h

/-- The store is done where every part can be converted. -/
theorem store_done_iff (h : converts host type v) :
    (store host type v parts).1 = .done ↔ StoreConverts host type v parts := by
  cases hshape : shapeOf type with
  | some shape =>
    obtain ⟨kind, count⟩ := shape
    by_cases hkind : kind = .scalarArray
    · subst hkind
      simp [store, StoreConverts, hshape]
    · simp only [store, StoreConverts, hshape]
      cases hstored : writeScalar host kind v <;> simp [Outcome.result]
  | none =>
    obtain ⟨⟨entries, rfl⟩, -⟩ := setOf_of_converts hshape h
    cases hset : setOf type with
    | none =>
      simp only [store, StoreConverts, hshape, hset]
      cases (host.unserialize (.table entries) parts).1 <;> simp
    | some kind =>
      simp only [store, StoreConverts, hshape, hset, Value.table.injEq, ne_eq, ite_not,
        ↓existsAndEq, true_and]
      split
      · next hlength =>
        simp only [hlength, true_and]
        exact writeEach_done_iff length_items fun v outcome => eachElement_stop
      · next hlength => simp only [reduceCtorEq, hlength, false_and]

/-- A store that fails leaves all parts where none was written before it. -/
theorem store_harmless_iff (h : converts host type v) (hfails : ¬ StoreConverts host type v parts) :
    (store host type v parts).2 = parts ↔ StoreHarmless host type v parts := by
  cases hshape : shapeOf type with
  | some shape =>
    obtain ⟨kind, count⟩ := shape
    by_cases hkind : kind = .scalarArray
    · subst hkind
      simp [StoreConverts, hshape] at hfails
    · simp only [store, StoreConverts, StoreHarmless, hshape] at hfails ⊢
      cases hstored : writeScalar host kind v with
      | stored b => exact absurd ⟨b, hstored⟩ hfails
      | refused | raised => simp
  | none =>
    obtain ⟨⟨entries, rfl⟩, -⟩ := setOf_of_converts hshape h
    cases hset : setOf type with
    | none => simp [store, StoreHarmless, hshape, hset]
    | some kind =>
      simp only [store, StoreHarmless, hshape, hset, Value.table.injEq, forall_eq']
      split
      · next hlength => simp only [hlength, false_implies]
      · next hlength =>
        rw [ne_eq, not_not] at hlength
        simp only [hlength, forall_const]
        exact writeEach_snd_iff

/-- What is stored is where it belongs exactly where every item has a place. -/
theorem store_holds_iff (h : converts host type v) (hgoes : StoreConverts host type v parts) :
    (type ≠ timelineData → ∀ i, i + 1 < 2 ^ 63 → nth v i ≠ .nil →
      ∃ b, writeScalar host (elementKind type) (nth v i) = .stored b ∧
        (store host type v parts).2[i]? = some b) ↔ StoreFits type v parts := by
  cases hshape : shapeOf type with
  | some shape =>
    obtain ⟨kind, count⟩ := shape
    have htype : type ≠ timelineData := by
      rintro rfl
      simp at hshape
    -- only an array of scalars reads items; the other shapes take no table
    by_cases hkind : kind = .scalarArray
    · subst hkind
      simp only [store, StoreFits, elementKind, hshape, htype, ne_eq, not_false_eq_true,
        forall_const]
      constructor
      · intro hholds i hi hbound
        by_contra hitem
        obtain ⟨b, -, hget⟩ := hholds i hbound hitem
        have hlt := (List.getElem?_eq_some_iff.mp hget).1
        simp at hlt
        omega
      · intro hfits i hbound hitem
        have hi : i < count := by
          by_contra hge
          exact hitem (hfits i (by omega) hbound)
        obtain ⟨d, hd⟩ := Option.isSome_iff_exists.mp (toFloat_of_converts hshape h hi)
        refine ⟨floatBytes d, ?_, ?_⟩
        · simp [writeScalar, FieldKind.isInteger, hd, Outcome.ofOption]
        · simp [getElem?_items hi, hd]
    · have hnil : ∀ i, nth v i = .nil := fun i =>
        nth_of_not_isTable (not_isTable_of_converts hshape hkind h)
      simp [StoreFits, hshape, hkind, hnil]
  | none =>
    -- a set's elements: what lies past its length has no place
    obtain ⟨⟨entries, rfl⟩, htimeline⟩ := setOf_of_converts hshape h
    cases hset : setOf type with
    | none => simp [StoreFits, htimeline hset]
    | some kind =>
      have htype : type ≠ timelineData := by
        rintro rfl
        simp at hset
      simp only [StoreConverts, hshape, hset, Value.table.injEq, ↓existsAndEq, true_and] at hgoes
      obtain ⟨hlength, hstops⟩ := hgoes
      simp only [store, StoreFits, elementKind, hshape, hset, htype, hlength, ne_eq,
        not_false_eq_true, forall_const, not_true_eq_false, ↓reduceIte, Option.getD_some]
      constructor
      · intro hholds i hi hbound
        by_contra hitem
        obtain ⟨b, -, hget⟩ := hholds i hbound hitem
        have hlt := (List.getElem?_eq_some_iff.mp hget).1
        rw [length_writeEach] at hlt
        omega
      · intro hfits i hbound hitem
        have hi : i < parts.length := by
          by_contra hge
          exact hitem (hfits i (by omega) hbound)
        have hget := getElem?_items (v := .table entries) hi
        obtain ⟨b, hb, hstore⟩ := exists_of_not_stops (hstops _ (List.mem_of_getElem? hget))
        exact ⟨b, hb, getElem?_writeEach hstops hget hi hstore⟩

/-- A variant is written where its parts can be. -/
theorem write_done_iff : (write host v g).1 = .done ↔ Converts host v g := by
  rw [write_eq, Converts]
  cases hcourse : course host v g with
  | unreadable | raises | leaves => simp
  | stores type value => exact store_done_iff (course_stores hcourse).2.2.2

/-- A write that fails leaves the variant where its store leaves all parts. -/
theorem write_harmless_iff (h : ¬ Converts host v g) :
    (write host v g).2 = g ↔ Harmless host v g := by
  rw [Converts] at h
  rw [write_eq, Harmless]
  cases hcourse : course host v g with
  | unreadable | raises | leaves => simp
  | stores type value =>
    dsimp only
    rw [← store_harmless_iff (course_stores hcourse).2.2.2 (by simpa [hcourse] using h)]
    simp [Variant.ext_iff]

/-- A written variant holds the value where what is stored fits. -/
theorem write_holds_iff (h : Converts host v g) :
    Holds host v (write host v g).2 ↔ Fits host v g := by
  rw [Converts] at h
  rw [write_eq, Fits]
  cases hcourse : course host v g with
  | unreadable | raises => simp [hcourse] at h
  | leaves => rfl
  | stores type value =>
    obtain ⟨htype, hwanted, hne, hconverts⟩ := course_stores hcourse
    dsimp only
    rw [← store_holds_iff hconverts (by simpa [hcourse] using h)]
    have hown : Variant.type host { g with parts := (store host type value g.parts).2 } =
        some type := htype
    simp only [Holds, hown, listOf_of_wanted hwanted hne, Option.some.injEq, forall_eq']

end Genome

/-! ## `write_field` -/

/-- The value, or every element of it that has a place, can be converted. -/
def Converts (host : Host) (kind elemKind : FieldKind) (v : Value) (p : Payload) : Prop :=
  match kind, p with
  | .scalarArray, .elements es =>
    elemKind.size ≠ 0 ∧ v.isTable ∧ ∀ x ∈ items v es.length, ¬ (fixedElement host elemKind x).stops
  | .bitArray, .elements _ => v.isTable
  | .genomeVariant, .genome g => Genome.Converts host v g
  | kind, _ => ∃ b, writeScalar host kind v = .stored b

/-- What is written before an element that fails is there already. -/
def Harmless (host : Host) (kind elemKind : FieldKind) (v : Value) (p : Payload) : Prop :=
  match kind, p with
  | .scalarArray, .elements es =>
    elemKind.size ≠ 0 → v.isTable → Leaves (fixedElement host elemKind) (items v es.length) es es
  | .genomeVariant, .genome g => Genome.Harmless host v g
  | _, _ => True

/-- Every item of a list has a place; `v` is what the value that is given stands for. -/
def Fits (host : Host) (kind : FieldKind) (given v : Value) (p : Payload) : Prop :=
  match kind, p with
  | .scalarArray, .elements es | .bitArray, .elements es => NoneFrom given es.length
  | .genomeVariant, .genome g => Genome.Fits host v g
  | _, _ => True

/-- Every item of the list that is given is converted and where it belongs; what is no list is so
as a whole, but for a `GenomeVariant`, which takes a value of its own type only. -/
def Holds (host : Host) (kind elemKind : FieldKind) (labels elemLabels : Option EnumInfo)
    (given : Value) (p : Payload) : Prop :=
  match kind, p with
  | .scalarArray, .elements es => ∀ i, i + 1 < 2 ^ 63 → nth given i ≠ .nil →
    ∃ x b, elementArg host elemLabels (nth given i) = some x ∧
      writeScalar host elemKind x = .stored b ∧ es[i]? = some b
  | .bitArray, .elements es => ∀ i, i + 1 < 2 ^ 63 → nth given i ≠ .nil →
    es[i]? = some [if (nth given i).truthy then 1 else 0]
  | .genomeVariant, .genome g => ∃ x, enumArg host labels given = some x ∧ Genome.Holds host x g
  | kind, p => ∃ x b, enumArg host labels given = some x ∧ writeScalar host kind x = .stored b ∧
    p = .bytes b

/-- What is written as a whole. -/
def Whole (kind : FieldKind) (p : Payload) : Prop :=
  match kind, p with
  | .scalarArray, .elements _ | .bitArray, .elements _ | .genomeVariant, .genome _ => False
  | _, _ => True

/-- A kind that is no list is written as a whole. -/
theorem writeField_whole (h : Whole kind p) :
    writeField host kind elemKind v p =
      match writeScalar host kind v with
      | .stored b => (.done, .bytes b)
      | outcome => (outcome.result, p) := by
  unfold writeField
  split
  · exact h.elim
  · exact h.elim
  · exact h.elim
  · rfl

/-- It is written where the value can be. -/
theorem converts_whole (h : Whole kind p) :
    Converts host kind elemKind v p ↔ ∃ b, writeScalar host kind v = .stored b := by
  unfold Converts
  split
  · exact h.elim
  · exact h.elim
  · exact h.elim
  · rfl

/-- A write as a whole that fails leaves it. -/
theorem harmless_whole (h : Whole kind p) : Harmless host kind elemKind v p := by
  unfold Harmless
  split
  · exact h.elim
  · exact h.elim
  · trivial

/-- A value that is written as a whole is held whole. -/
theorem fits_whole (h : Whole kind p) : Fits host kind given v p := by
  unfold Fits
  split
  · exact h.elim
  · exact h.elim
  · exact h.elim
  · trivial

theorem holds_bytes (hv : enumArg host labels given = some v)
    (hb : writeScalar host kind v = .stored b) :
    Holds host kind elemKind labels elemLabels given (.bytes b) := by
  unfold Holds
  split
  · next heq => cases heq
  · next heq => cases heq
  · next heq => cases heq
  · exact ⟨v, b, hv, hb, rfl⟩

/-- The items of an array, the bits of a bit array, a variant, or a value as a whole. -/
theorem payload_cases (kind : FieldKind) (p : Payload) :
    (∃ es, kind = .scalarArray ∧ p = .elements es) ∨ (∃ es, kind = .bitArray ∧ p = .elements es) ∨
      (∃ g, kind = .genomeVariant ∧ p = .genome g) ∨ Whole kind p := by
  cases p with
  | bytes b => exact .inr (.inr (.inr (by cases kind <;> trivial)))
  | elements es =>
    by_cases hscalar : kind = .scalarArray
    · exact .inl ⟨es, hscalar, rfl⟩
    by_cases hbits : kind = .bitArray
    · exact .inr (.inl ⟨es, hbits, rfl⟩)
    · exact .inr (.inr (.inr (by cases kind <;> trivial)))
  | genome g =>
    by_cases hgenome : kind = .genomeVariant
    · exact .inr (.inr (.inl ⟨g, hgenome, rfl⟩))
    · exact .inr (.inr (.inr (by cases kind <;> trivial)))

theorem writeField_genome {g : Genome.Variant} :
    writeField host .genomeVariant elemKind v (.genome g) =
      ((Genome.write host v g).1, .genome (Genome.write host v g).2) := rfl

/-- A field is written where the value can be converted to its kind. -/
theorem writeField_done_iff :
    (writeField host kind elemKind v p).1 = .done ↔ Converts host kind elemKind v p := by
  obtain ⟨es, rfl, rfl⟩ | ⟨es, rfl, rfl⟩ | ⟨g, rfl, rfl⟩ | hwhole := payload_cases kind p
  · rw [writeField, Converts]
    split
    · next hrefused => grind
    · next hgoes =>
      simp only [not_or, Bool.not_eq_true', Bool.not_eq_false] at hgoes
      simp only [hgoes.1, hgoes.2, ne_eq, not_false_eq_true, true_and]
      exact writeEach_done_iff length_items fun v outcome => fixedElement_stop
  · rw [writeField, Converts]
    cases hv : v.isTable <;> simp
  · exact Genome.write_done_iff
  · rw [writeField_whole hwhole, converts_whole hwhole]
    cases hstored : writeScalar host kind v <;> simp [Outcome.result]

/-- A write that fails leaves the field where nothing is written before the failure. -/
theorem writeField_harmless_iff (h : ¬ Converts host kind elemKind v p) :
    (writeField host kind elemKind v p).2 = p ↔ Harmless host kind elemKind v p := by
  obtain ⟨es, rfl, rfl⟩ | ⟨es, rfl, rfl⟩ | ⟨g, rfl, rfl⟩ | hwhole := payload_cases kind p
  · rw [writeField, Harmless]
    split
    · next hrefused => grind
    · next hgoes =>
      rw [Payload.elements.injEq, writeEach_snd_iff]
      grind
  · have hv : v.isTable = false := by simpa [Converts] using h
    simp [writeField, Harmless, hv]
  · rw [writeField_genome, Payload.genome.injEq]
    exact Genome.write_harmless_iff h
  · rw [converts_whole hwhole] at h
    rw [writeField_whole hwhole, iff_true_right (harmless_whole hwhole)]
    cases hstored : writeScalar host kind v with
    | stored b => exact absurd ⟨b, hstored⟩ h
    | refused | raised => rfl

/-- A written field holds the value where it fits. -/
theorem writeField_holds_iff (h : Converts host kind elemKind v p)
    (hvalue : kind ≠ .scalarArray → enumArg host labels given = some v)
    (hitems : ∀ es, kind = .scalarArray → p = .elements es → ∀ i < es.length, i + 1 < 2 ^ 63 →
      elementArg host elemLabels (nth given i) = some (nth v i)) :
    Holds host kind elemKind labels elemLabels given (writeField host kind elemKind v p).2 ↔
      Fits host kind given v p := by
  obtain ⟨es, rfl, rfl⟩ | ⟨es, rfl, rfl⟩ | ⟨g, rfl, rfl⟩ | hwhole := payload_cases kind p
  -- an array of fixed length: each place that has an element holds it, and there are no others
  · obtain ⟨hsize, htable, hstops⟩ := h
    have hwrites : (writeField host .scalarArray elemKind v (.elements es)).2 =
        .elements (writeEach (fixedElement host elemKind) (items v es.length) es).2 := by
      simp [writeField, hsize, htable]
    rw [hwrites]
    constructor
    · intro hholds i hi hbound
      by_contra hitem
      obtain ⟨x, b, -, -, hget⟩ := hholds i hbound hitem
      have hlt := (List.getElem?_eq_some_iff.mp hget).1
      rw [length_writeEach] at hlt
      omega
    · intro hfits i hbound hitem
      have hi : i < es.length := by
        by_contra hge
        exact hitem (hfits i (by omega) hbound)
      have hconv := hitems es rfl rfl i hi hbound
      have hne := elementArg_ne_nil hconv hitem
      have hgoes := hstops _ (List.mem_of_getElem? (getElem?_items hi))
      have hnil : (nth v i).isNil = false := by simpa [← isNil_iff] using hne
      have helement : fixedElement host elemKind (nth v i) = eachElement host elemKind (nth v i) := by
        simp [fixedElement, hnil]
      rw [helement] at hgoes
      obtain ⟨b, hb, hstore⟩ := exists_of_not_stops hgoes
      exact ⟨nth v i, b, hconv, hb,
        getElem?_writeEach hstops (getElem?_items hi) hi (helement.trans hstore)⟩
  · obtain rfl := enumArg_table (hvalue nofun) h
    have htable : v.isTable := h
    have hwrites : (writeField host .bitArray elemKind v (.elements es)).2 =
        .elements ((items v es.length).map fun v => [if v.truthy then 1 else 0]) := by
      simp [writeField, htable]
    rw [hwrites]
    constructor
    · intro hholds i hi hbound
      by_contra hitem
      have hlt := (List.getElem?_eq_some_iff.mp (hholds i hbound hitem)).1
      simp at hlt
      omega
    · intro hfits i hbound hitem
      have hi : i < es.length := by
        by_contra hge
        exact hitem (hfits i (by omega) hbound)
      simp [getElem?_items hi]
  · have hv : enumArg host labels given = some v := hvalue nofun
    rw [writeField_genome]
    simp only [Holds, Fits, hv, Option.some.injEq, exists_eq_left']
    exact Genome.write_holds_iff h
  · obtain ⟨b, hb⟩ := (converts_whole hwhole).mp h
    have hkind : kind ≠ .scalarArray := by
      rintro rfl
      simp [writeScalar, FieldKind.isInteger] at hb
    rw [writeField_whole hwhole, hb, iff_true_right (fits_whole hwhole)]
    exact holds_bytes (hvalue hkind) hb

/-! ## Arrays -/

theorem length_resized (h : resized host f n es = some start) : start.length = n := by
  unfold resized at h
  split at h
  · cases h
  · split at h
    · split at h
      · next hlength => cases h; exact hlength
      · cases h
    · split at h
      · cases h; simp
      · cases h

/-- Every value of the table is in the array, converted. -/
def HoldsAll (host : Host) (kind : FieldKind) (given : Value) (es : List Bytes) : Prop :=
  match given with
  | .table entries => ∀ (i : ℕ) x, (packed entries)[i]? = some x →
    ∃ b, elementOutcome host kind x = .stored b ∧ es[i]? = some b
  | _ => True

/-- What the array has become by then is as before where a conversion raises, and none is refused
where none raises. -/
def ArrayRight (host : Host) (f : Field) (entries : Entries) (es : List Bytes) : Prop :=
  ∀ start, resized host f (packed entries).length es = some start →
    if ∃ x ∈ packed entries, elementOutcome host f.elemKind x = .raised then
      Leaves (arrayElement host f.elemKind) (packed entries) start es
    else ∀ x ∈ packed entries, elementOutcome host f.elemKind x ≠ .refused

/-- Only an element that raises stops the loop over an array. -/
theorem arrayElement_stops_iff :
    (arrayElement host kind v).stops ↔ elementOutcome host kind v = .raised := by
  unfold arrayElement
  cases elementOutcome host kind v <;> simp [Each.stops]

/-- `assign_array`, where it resizes. -/
theorem assignArray_right_iff {entries : Entries}
    (hresized : resized host f (packed entries).length es = some start) :
    ∃ answer es', assignArray host f (.table entries) es = some (answer, es') ∧
      (((answer ≠ .done → es' = es) ∧
        (answer = .done → HoldsAll host f.elemKind (.table entries) es')) ↔
          ArrayRight host f entries es) := by
  have hlength := length_resized hresized
  have hstops : (writeEach (arrayElement host f.elemKind) (packed entries) start).1 = none ↔
      ∀ x ∈ packed entries, ¬ (arrayElement host f.elemKind x).stops :=
    writeEach_fst_iff hlength.symm
  simp only [arrayElement_stops_iff] at hstops
  simp only [assignArray, hresized, Option.map_some]
  refine ⟨_, _, rfl, ?_⟩
  simp only [ArrayRight, hresized, Option.some.injEq, forall_eq']
  -- an element that raises stops the loop, one that is refused does not
  by_cases hraised : ∃ x ∈ packed entries, elementOutcome host f.elemKind x = .raised
  · have hsome : (writeEach (arrayElement host f.elemKind) (packed entries) start).1.isSome := by
      rw [← Option.ne_none_iff_isSome, ne_eq, hstops]
      grind
    simp only [hraised, hsome, ↓reduceIte, writeEach_snd_iff]
    simp
  · have hnone : (writeEach (arrayElement host f.elemKind) (packed entries) start).1 = none := by
      rw [hstops]
      grind
    simp only [hraised, hnone, ↓reduceIte, Option.isSome_none, Bool.false_eq_true, ne_eq,
      not_true_eq_false, false_implies, true_and, forall_const]
    constructor
    · intro hholds x hx hrefused
      obtain ⟨i, hi⟩ := List.getElem?_of_mem hx
      obtain ⟨b, hb, -⟩ := hholds i x hi
      rw [hrefused] at hb
      cases hb
    · intro hconverted i x hi
      have hmem := List.mem_of_getElem? hi
      cases hx : elementOutcome host f.elemKind x with
      | stored b =>
        refine ⟨b, rfl, getElem?_writeEach (fun y hy => ?_) hi ?_ (by simp [arrayElement, hx])⟩
        · rw [arrayElement_stops_iff]
          exact fun hy' => hraised ⟨y, hy, hy'⟩
        · rw [hlength]
          exact (List.getElem?_eq_some_iff.mp hi).1
      | refused => exact absurd hx (hconverted x hmem)
      | raised => exact absurd ⟨x, hmem, hx⟩ hraised

/-! ## `SetField` -/

/-- What is written to a field that is no optional and no dynamic array. -/
def converted (host : Host) (f : Field) (given : Value) (p : Payload) : Option Value := do
  let v ← enumArg host f.labels given
  if f.kind = .scalarArray then
    enumElements host f.elemLabels v
      (match p with | .elements es => es.length | .bytes _ | .genome _ => 0)
  else some v

/-- The items that are converted have a place, and what is written before one that is not is there
already. -/
def PlainRight (host : Host) (f : Field) (given : Value) (p : Payload) : Prop :=
  ∀ v, converted host f given p = some v →
    (Converts host f.kind f.elemKind v p → Fits host f.kind given v p) ∧
      (¬ Converts host f.kind f.elemKind v p → Harmless host f.kind f.elemKind v p)

/-- An optional that a conversion fails for is engaged already. -/
def OptionalRight (host : Host) (f : Field) (given : Value) (held : Option Payload) : Prop :=
  f.hasEngage → f.hasData → given ≠ .nil →
    match enumArg host f.labels given with
    | none => held.isSome
    | some v =>
      let p := held.getD f.emplaced
      (Converts host f.innerKind f.innerElemKind v p → Fits host f.innerKind given v p) ∧
        (¬ Converts host f.innerKind f.innerElemKind v p →
          held.isSome ∧ Harmless host f.innerKind f.innerElemKind v p)

/-- Whether a write of this value to this place leaves it as it was or holding the whole value. -/
def Place.Right (host : Host) (given : Value) : Place → Prop
  | .unavailable | .unresolved | .flag _ _ => True
  | .field f c => ¬ f.readOnly → ¬ f.holdsPointers →
    match c with
    | .plain p => PlainRight host f given p
    | .array es => f.kind = .dynArray → ∀ entries, given = .table entries →
      ArrayRight host f entries es
    | .optional held => f.kind = .optional → OptionalRight host f given held

/-- The place holds what was given. -/
def Place.Holds (host : Host) (given : Value) : Place → Prop
  | .unavailable | .unresolved => False
  | .flag mask word => word &&& mask = if given.truthy then mask else 0
  | .field f c =>
    match c with
    | .plain p => WriteField.Holds host f.kind f.elemKind f.labels f.elemLabels given p
    | .array es => HoldsAll host f.elemKind given es
    | .optional none => given = .nil
    | .optional (some p) =>
      WriteField.Holds host f.innerKind f.innerElemKind f.labels none given p

@[simp] theorem answer_done_iff {why : Bytes} {result : Result} :
    result.answer why = .done ↔ result = .done := by
  cases result <;> simp [Result.answer]

/-- The value that is written is the one given, with its label resolved. -/
theorem converted_value (h : converted host f given p = some v) (hkind : f.kind ≠ .scalarArray) :
    enumArg host f.labels given = some v := by
  simpa [converted, hkind, Option.bind_eq_some_iff] using h

/-- Each element that is written is the one given, with its label resolved. -/
theorem converted_items (h : converted host f given (.elements es) = some v)
    (hkind : f.kind = .scalarArray) (htable : v.isTable) (hi : i < es.length)
    (hbound : i + 1 < 2 ^ 63) : elementArg host f.elemLabels (nth given i) = some (nth v i) := by
  simp only [converted, hkind, ↓reduceIte, Option.bind_eq_bind, Option.bind_eq_some_iff] at h
  obtain ⟨u, hu, hv⟩ := h
  have hutable := enumElements_isTable hv htable
  obtain rfl := enumArg_table hu hutable
  exact nth_enumElements hv htable hi hbound

theorem isTable_of_converts (h : Converts host .scalarArray elemKind v (.elements es)) :
    v.isTable := h.2.1

/-- A plain field is written after its labels are resolved. -/
theorem writePlain_eq {why : Bytes} :
    writePlain host f why given p =
      match converted host f given p with
      | none => (.raised, p)
      | some v =>
        ((writeField host f.kind f.elemKind v p).1.answer why,
          (writeField host f.kind f.elemKind v p).2) := rfl

/-- A plain field is written or left alone just where its condition says. -/
theorem writePlain_right_iff {why : Bytes} :
    (((writePlain host f why given p).1 ≠ .done → (writePlain host f why given p).2 = p) ∧
      ((writePlain host f why given p).1 = .done →
        Holds host f.kind f.elemKind f.labels f.elemLabels given
          (writePlain host f why given p).2)) ↔ PlainRight host f given p := by
  rw [writePlain_eq]
  cases hconverted : converted host f given p with
  | none => simp [PlainRight, hconverted]
  | some v =>
    simp only [PlainRight, hconverted, Option.some.injEq, forall_eq', ne_eq, answer_done_iff,
      writeField_done_iff]
    rw [and_comm]
    refine and_congr (imp_congr_right fun hconverts => ?_) (imp_congr_right fun hfails => ?_)
    · refine writeField_holds_iff hconverts (converted_value hconverted) ?_
      rintro es hkind rfl i hi hbound
      rw [hkind] at hconverts
      exact converted_items hconverted hkind (isTable_of_converts hconverts) hi hbound
    · exact writeField_harmless_iff hfails

/-- An optional is given a value before it is written. -/
theorem writeOptional_eq {why : Bytes} {held : Option Payload} (hengage : f.hasEngage)
    (hdata : f.hasData) (hgiven : given ≠ .nil) :
    writeOptional host f why given held =
      match enumArg host f.labels given with
      | none => (.raised, some (held.getD f.emplaced))
      | some v =>
        ((writeField host f.innerKind f.innerElemKind v (held.getD f.emplaced)).1.answer why,
          some (writeField host f.innerKind f.innerElemKind v (held.getD f.emplaced)).2) := by
  have hnil : given.isNil = false := by simpa [← isNil_iff] using hgiven
  simp only [writeOptional, hengage, hdata, hnil]
  rfl

theorem some_getD_iff {held : Option Payload} :
    some (held.getD p) = held ↔ held.isSome := by
  cases held <;> simp

/-- So an optional that was empty is left with one where the write fails. -/
theorem writeOptional_right_iff {why : Bytes} {held : Option Payload} :
    (((writeOptional host f why given held).1 ≠ .done →
        (writeOptional host f why given held).2 = held) ∧
      ((writeOptional host f why given held).1 = .done →
        (Place.field f (.optional (writeOptional host f why given held).2)).Holds host given)) ↔
          OptionalRight host f given held := by
  by_cases hmissing : !f.hasEngage ∨ !f.hasData
  · simp only [writeOptional, hmissing, ↓reduceIte, OptionalRight]
    simp
    grind
  obtain ⟨hengage, hdata⟩ : f.hasEngage ∧ f.hasData := by simpa using hmissing
  by_cases hgiven : given = .nil
  · subst hgiven
    simp [writeOptional, hengage, hdata, OptionalRight, Value.isNil, Place.Holds]
  rw [writeOptional_eq hengage hdata hgiven]
  simp only [OptionalRight, hengage, hdata, hgiven, ne_eq, not_false_eq_true, forall_const]
  cases henum : enumArg host f.labels given with
  | none => simp [some_getD_iff]
  | some v =>
    simp only [answer_done_iff, writeField_done_iff, Place.Holds]
    rw [and_comm]
    refine and_congr (imp_congr_right fun hconverts => ?_) (imp_congr_right fun hfails => ?_)
    · refine writeField_holds_iff hconverts (fun _ => henum) ?_
      rintro es hkind hp i hi hbound
      rw [hkind, hp] at hconverts
      obtain rfl := enumArg_table henum (isTable_of_converts hconverts)
      rfl
    · rw [← writeField_harmless_iff hfails]
      cases held with
      | none => simp
      | some q => simp

/-- A dynamic array that cannot be resized for this value is left alone. -/
theorem writePlain_dynArray {why : Bytes} (hkind : f.kind = .dynArray) :
    (writePlain host f why given p).1 ≠ .done := by
  rw [writePlain_eq]
  cases converted host f given p with
  | none => simp
  | some v =>
    have hwhole : Whole f.kind p := by
      rw [hkind]
      cases p <;> trivial
    simp only [ne_eq, answer_done_iff, writeField_done_iff, converts_whole hwhole]
    simp [hkind, writeScalar, FieldKind.isInteger]

theorem setOnField_array {what : Bytes} {answer : Answer} {es' : List Bytes}
    (hread : f.readOnly = false) (hpointers : f.holdsPointers = false) (hkind : f.kind = .dynArray)
    (hassign : assignArray host f given es = some (answer, es')) :
    setOnField host what f given (.array es) = (answer, .array es') := by
  simp [setOnField, hread, hpointers, hkind, hassign]

/-- A field is written or left alone just where its condition says. -/
theorem setOnField_right_iff (what : Bytes) {c : Contents} :
    (((setOnField host what f given c).1 ≠ .done → (setOnField host what f given c).2 = c) ∧
      ((setOnField host what f given c).1 = .done →
        (Place.field f (setOnField host what f given c).2).Holds host given)) ↔
          (Place.field f c).Right host given := by
  by_cases hread : f.readOnly
  · simp [setOnField, Place.Right, hread]
  by_cases hpointers : f.holdsPointers
  · simp [setOnField, Place.Right, hread, hpointers]
  simp only [setOnField, Place.Right, hread, hpointers, ↓reduceIte, Bool.false_eq_true,
    not_false_eq_true, forall_const]
  cases c with
  | plain p =>
    simp only [Contents.plain.injEq]
    exact writePlain_right_iff
  | array es =>
    -- a table is assigned element by element; what is no table falls through to an error
    by_cases hkind : f.kind = .dynArray
    · simp only [hkind, forall_const]
      cases hassign : assignArray host f given es with
      | none =>
        have hfails : (writePlain host f (what ++ bytes " is not writable (" ++
            FieldKind.dynArray.name ++ bytes ")") given (.bytes [])).1 ≠ .done :=
          writePlain_dynArray hkind
        simp only [ne_eq, hfails, not_false_eq_true, forall_const, false_implies, and_self,
          true_iff]
        rintro entries rfl start hstart
        simp [assignArray, hstart] at hassign
      | some result =>
        obtain ⟨answer, es'⟩ := result
        simp only [Contents.array.injEq]
        cases given with
        | table entries =>
          cases hresized : resized host f (packed entries).length es with
          | none => simp [assignArray, hresized] at hassign
          | some start =>
            obtain ⟨answer', es'', hassign', hright⟩ := assignArray_right_iff hresized
            rw [hassign] at hassign'
            cases hassign'
            simpa only [Value.table.injEq, forall_eq', Place.Holds] using hright
        | _ => simp [assignArray] at hassign
    · simp [hkind]
  | optional held =>
    by_cases hkind : f.kind = .optional
    · simp only [hkind, Contents.optional.injEq, forall_const]
      exact writeOptional_right_iff
    · simp [hkind]

/-- A flag that is set or cleared reads as the value's truth. -/
theorem flag_and {word mask : UInt64} :
    (if given.truthy then word ||| mask else word &&& ~~~mask) &&& mask =
      if given.truthy then mask else 0 := by
  rw [← UInt64.toBitVec_inj]
  ext i hi
  cases given.truthy
  · simp
  · simp
    exact .inr

/-- A write that fails leaves the field as it was and one that succeeds has written every item,
exactly where nothing is written before a conversion that fails and every item has a place. -/
theorem setField_right_iff (host : Host) (name path : Bytes) (place : Place) (given : Value) :
    (((setField host name path place given).1 ≠ .done →
        (setField host name path place given).2 = place) ∧
      ((setField host name path place given).1 = .done →
        (setField host name path place given).2.Holds host given)) ↔
          place.Right host given := by
  cases place with
  | unavailable => simp [setField, Place.Right]
  | unresolved => simp [setField, Place.Right]
  | flag mask word => simp [setField, Place.Right, Place.Holds, flag_and]
  | field f c =>
    rw [← setOnField_right_iff (name ++ bytes "." ++ path)]
    simp only [setField, Place.field.injEq, true_and]

/-- Some place of a table has nothing after it, or no place. -/
theorem exists_hole (entries : Entries) :
    ∃ n, n + 1 = 2 ^ 63 ∨ (entries.get (.integer (Int64.ofNat (n + 1)))).isNil :=
  ⟨2 ^ 63 - 1, .inl rfl⟩

/-- The first hole of a table is a border. -/
theorem isBorder_find (entries : Entries) : IsBorder entries (Nat.find (exists_hole entries)) := by
  have hlt : Nat.find (exists_hole entries) < 2 ^ 63 := by
    have := Nat.find_min' (exists_hole entries) (.inl (rfl : 2 ^ 63 - 1 + 1 = 2 ^ 63))
    omega
  refine ⟨hlt, fun hpos hnil => ?_, fun hbound => ?_⟩
  · have hbefore := Nat.find_min (exists_hole entries) (Nat.sub_one_lt hpos.ne')
    rw [Nat.sub_add_cancel hpos] at hbefore
    exact hbefore (.inr (isNil_iff.mpr hnil))
  · obtain hlast | hnil := Nat.find_spec (exists_hole entries)
    · omega
    · exact isNil_iff.mp hnil

/-- A host where no string is a number, and `#` is the first hole. -/
def plainHost : Host where
  numeral _ := .nil
  floatText _ := []
  userdata _ := .other
  intern _ := none
  conditionIntern _ := -1
  allocatorReady := true
  inlineCapacity := 22
  rawlen entries := ⟨Nat.find (exists_hole entries), isBorder_find entries⟩
  strings := none
  known _ := none
  readable _ := false
  unserialize _ parts := (false, parts)

/-- A dynamic array of `uint8_t`. -/
def byteArray : Field where
  kind := .dynArray
  elemKind := .uint8
  readOnly := false
  holdsPointers := false
  labels := none
  elemLabels := none
  hasData := true
  hasEngage := false
  innerKind := .unsupported
  innerElemKind := .unsupported
  emplaced := .bytes []
  hasResize := true
  hasElemType := false
  fresh := [0]
  maxSize := none

/-- The array `{5, 6, 7}`, given `{1, "x"}`, is `{1, 0}` after the error. -/
theorem failed_write_empties_array :
    ∃ host name path f es given,
      (setField host name path (.field f (.array es)) given).1 = .raised ∧
        (setField host name path (.field f (.array es)) given).2 ≠ .field f (.array es) := by
  refine ⟨plainHost, bytes "Component", bytes "Values", byteArray, [[5], [6], [7]],
    .table (.cons (.integer 1) (.integer 1) (.cons (.integer 2) (.string (bytes "x")) .nil)), ?_⟩
  have hpacked : packed (.cons (.integer 1) (.integer 1)
      (.cons (.integer 2) (.string (bytes "x")) .nil)) = [.integer 1, .string (bytes "x")] := by
    simp [packed, Entries.toList, Value.isNil, List.mergeSort]
  have hassign : assignArray plainHost byteArray (.table (.cons (.integer 1) (.integer 1)
      (.cons (.integer 2) (.string (bytes "x")) .nil))) [[5], [6], [7]] =
        some (.raised, [[1], [0]]) := by
    rw [assignArray, hpacked]
    rfl
  rw [setField, setOnField_array rfl rfl rfl hassign]
  exact ⟨rfl, nofun⟩

end WriteField
end Bg3le
