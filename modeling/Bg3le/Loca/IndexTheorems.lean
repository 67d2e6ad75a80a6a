import Mathlib.Data.List.TakeWhile
import Bg3le.Loca.Index

/-!
# Reading back what was set

Once the index is ready it is a function of the base files and of the sets made since; as long as
no key of it has been left behind by the vector, a lookup finds the last of them.
-/

namespace Bg3le
namespace Loca
namespace Index

/-! ### Maps -/

section Map
variable {α β γ : Type*} [DecidableEq β]

@[simp] theorem lookup_nil (read : α → β) (k : β) : lookup read k ([] : List (α × γ)) = none := rfl

theorem lookup_cons (read : α → β) (k : β) (e : α × γ) (rest : List (α × γ)) :
    lookup read k (e :: rest) = if read e.1 = k then some e.2 else lookup read k rest := by
  unfold lookup
  rw [List.find?_cons]
  by_cases h : read e.1 = k <;> simp [h]

/-- After an assignment the key reads as the value; the other keys read as before. -/
theorem lookup_assign (read : α → β) (k : β) (key : α) (value : γ) (entries : List (α × γ)) :
    lookup read k (assign read key value entries) =
      if read key = k then some value else lookup read k entries := by
  induction entries with
  | nil => simp [assign, lookup_cons]
  | cons e rest ih =>
    unfold assign
    by_cases he : read e.1 = read key
    · by_cases hk : read key = k <;> simp [he, hk, lookup_cons]
    · rw [if_neg he, lookup_cons, lookup_cons, ih]
      by_cases hk : read key = k
      · have hne : read e.1 ≠ k := fun h => he (h.trans hk.symm)
        simp [hk, hne]
      · simp [hk]

/-- A lookup depends on the keys only through what they read as. -/
theorem lookup_congr {read read' : α → β} (k : β) {entries : List (α × γ)}
    (h : ∀ e ∈ entries, read e.1 = read' e.1) : lookup read k entries = lookup read' k entries := by
  induction entries with
  | nil => rfl
  | cons e rest ih =>
    rw [lookup_cons, lookup_cons, h e List.mem_cons_self,
      ih fun e' he' => h e' (List.mem_cons_of_mem _ he')]

/-- A key of the map after an assignment was there before, or is the new one. -/
theorem mem_assign {read : α → β} {key : α} {value : γ} {entries : List (α × γ)} {e : α × γ}
    (h : e ∈ assign read key value entries) :
    (∃ v, (e.1, v) ∈ entries) ∨ e.1 = key ∧ lookup read (read key) entries = none := by
  induction entries with
  | nil =>
    have he : e = (key, value) := by simpa [assign] using h
    exact .inr ⟨by rw [he], rfl⟩
  | cons a rest ih =>
    unfold assign at h
    split at h
    · obtain rfl | hmem := List.mem_cons.mp h
      · exact .inl ⟨a.2, by simp⟩
      · exact .inl ⟨e.2, by simp [hmem]⟩
    · rename_i hne
      obtain rfl | hmem := List.mem_cons.mp h
      · exact .inl ⟨e.2, by simp⟩
      · obtain ⟨v, hv⟩ | ⟨hkey, hnone⟩ := ih hmem
        · exact .inl ⟨v, List.mem_cons_of_mem _ hv⟩
        · exact .inr ⟨hkey, by rw [lookup_cons, if_neg hne, hnone]⟩

/-- An assigned entry has a key of the new ones or of the old. -/
theorem mem_foldl_assign {read : α → β} {new entries : List (α × γ)} {e : α × γ}
    (h : e ∈ new.foldl (fun m e => assign read e.1 e.2 m) entries) :
    e.1 ∈ new.map Prod.fst ∨ e.1 ∈ entries.map Prod.fst := by
  induction new generalizing entries with
  | nil => exact .inr (List.mem_map_of_mem h)
  | cons a rest ih =>
    rw [List.map_cons, List.mem_cons]
    obtain hrest | hmap := ih h
    · exact .inl (.inr hrest)
    · obtain ⟨e', he', heq⟩ := List.mem_map.mp hmap
      obtain ⟨v, hv⟩ | ⟨hkey, _⟩ := mem_assign he'
      · exact .inr (List.mem_map.mpr ⟨(e'.1, v), hv, heq⟩)
      · exact .inl (.inl (heq ▸ hkey))

/-- Of the values assigned to a key in turn, the last one stays. -/
theorem lookup_foldl_assign (read : α → β) (k : β) (new entries : List (α × γ)) :
    lookup read k (new.foldl (fun m e => assign read e.1 e.2 m) entries) =
      ((new.filter fun e => read e.1 = k).getLast?.map Prod.snd).or (lookup read k entries) := by
  induction new generalizing entries with
  | nil => rfl
  | cons e rest ih =>
    rw [List.foldl_cons, ih, lookup_assign]
    by_cases hk : read e.1 = k
    · rw [if_pos hk, List.filter_cons_of_pos (by simpa using hk), List.getLast?_cons]
      cases (rest.filter fun e => read e.1 = k).getLast? <;> simp
    · rw [if_neg hk, List.filter_cons_of_neg (by simpa using hk)]

end Map

/-! ### What the base files give -/

/-- An entry of a `.loca` file: its key and where that lies, and where its text lies. -/
structure Entry where
  key : Bytes
  place : ℕ
  offset : ℕ
  length : ℕ
deriving DecidableEq

def lengthAt (blob : Bytes) (i : ℕ) : ℕ :=
  uint32At blob (kHeaderSize + i * kEntrySize + kKeySize + 2)

/-- The texts lie back to back from the text offset on. -/
def entryAt (blob : Bytes) (i : ℕ) : Entry where
  key := cString ((blob.drop (kHeaderSize + i * kEntrySize)).take kKeySize)
  place := kHeaderSize + i * kEntrySize
  offset := uint32At blob 8 + ((List.range i).map (lengthAt blob)).sum
  length := lengthAt blob i

/-- The bytes of the entry's text, up to a NUL. -/
def Entry.text (blob : Bytes) (e : Entry) : Bytes := cString ((blob.drop e.offset).take e.length)

/-- The text ends within its length, as the format has it, or a NUL follows it. -/
def Entry.Terminated (blob : Bytes) (e : Entry) : Prop :=
  cString (blob.drop e.offset) = e.text blob

/-- The entry has a key, and its text lies in the file. -/
def Entry.Listed (blob : Bytes) (e : Entry) : Prop :=
  e.key ≠ [] ∧ e.offset + e.length ≤ blob.length

instance (blob : Bytes) (e : Entry) : Decidable (e.Listed blob) := by
  unfold Entry.Listed
  infer_instance

/-- The header describes the entries, and the texts start where they end. -/
def WellFormed (blob : Bytes) : Prop :=
  kHeaderSize ≤ blob.length ∧ blob.take 4 = kMagic ∧
    uint32At blob 8 = kHeaderSize + uint32At blob 4 * kEntrySize ∧ uint32At blob 8 ≤ blob.length

instance (blob : Bytes) : Decidable (WellFormed blob) := by
  unfold WellFormed
  infer_instance

/-- The entries a file lists. -/
def fileEntries (blob : Bytes) : List Entry :=
  if WellFormed blob then
    ((List.range (uint32At blob 4)).map (entryAt blob)).filter fun e => e.Listed blob
  else []

/-- All entries in archive order, each with the number of its file. -/
def allEntries (file : ℕ) : List Bytes → List (ℕ × Entry)
  | [] => []
  | blob :: rest => (fileEntries blob).map (file, ·) ++ allEntries (file + 1) rest

/-- The last entry of the last file that has one for the handle. -/
def given (blobs : List Bytes) (handle : Bytes) : Option (ℕ × Entry) :=
  ((allEntries 0 blobs).filter fun e => e.2.key = handle).getLast?

/-! ### The index of the base files -/

/-- The texts lie one after the other. -/
theorem entryAt_offset_succ (blob : Bytes) (i : ℕ) :
    (entryAt blob (i + 1)).offset = (entryAt blob i).offset + (entryAt blob i).length := by
  simp only [entryAt, List.range_succ, List.map_append, List.sum_append, List.map_cons,
    List.map_nil, List.sum_cons, List.sum_nil]
  omega

theorem entryAt_offset_mono (blob : Bytes) {i j : ℕ} (h : i ≤ j) :
    (entryAt blob i).offset ≤ (entryAt blob j).offset := by
  induction j, h using Nat.le_induction with
  | base => exact le_rfl
  | succ j _ ih =>
    rw [entryAt_offset_succ]
    omega

/-- The views of an entry's key and of its text. -/
def Entry.views (file : ℕ) (blob : Bytes) (e : Entry) : View × View :=
  (.blob file e.place e.key.length, .blob file e.offset (e.text blob).length)

/-- A text ends at its first NUL. -/
theorem take_length_cString (b : Bytes) (n : ℕ) :
    b.take (cString (b.take n)).length = cString (b.take n) := by
  have hpre : cString (b.take n) <+: b :=
    (List.takeWhile_prefix _).trans (List.take_prefix n b)
  exact (List.prefix_iff_eq_take.mp hpre).symm

/-- A key view of a blob reads as the key. -/
theorem contents_place (freed : View → Bytes) (s : Strings) (file i : ℕ) :
    s.contents freed ((entryAt (s.blobs.getD file []) i).views file (s.blobs.getD file [])).1 =
      (entryAt (s.blobs.getD file []) i).key := by
  show ((s.blobs.getD file []).drop _).take (cString _).length = cString _
  exact take_length_cString _ _

/-- The loop assigns the entries that are listed, in order; the first text that does not fit
ends it, as no later one fits. -/
theorem indexEntries_eq (blobs : List Bytes) (file : ℕ) (blob : Bytes)
    (count i : ℕ) (byHandle : List (View × View)) :
    indexEntries blobs file blob count (kHeaderSize + i * kEntrySize) (entryAt blob i).offset
        byHandle =
      ((((List.range' i count).map (entryAt blob)).filter fun e => e.Listed blob).map
        (Entry.views file blob)).foldl
          (fun m e => assign (Strings.contents (fun _ => []) { blobs }) e.1 e.2 m) byHandle := by
  induction count generalizing i byHandle with
  | zero => rfl
  | succ count ih =>
    unfold indexEntries
    have hlength : uint32At blob (kHeaderSize + i * kEntrySize + kKeySize + 2) =
      (entryAt blob i).length := rfl
    have hkey : strnlen (blob.drop (kHeaderSize + i * kEntrySize)) kKeySize =
      (entryAt blob i).key.length := rfl
    have htext : strnlen (blob.drop (entryAt blob i).offset) (entryAt blob i).length =
      ((entryAt blob i).text blob).length := rfl
    simp only [hlength, hkey, htext]
    -- the offsets only grow, so after a text that does not fit none does
    by_cases hfits : blob.length < (entryAt blob i).offset + (entryAt blob i).length
    · have hnone : ((List.range' i (count + 1)).map (entryAt blob)).filter
          (fun e => e.Listed blob) = [] := by
        apply List.filter_eq_nil_iff.mpr
        intro e he hlisted
        obtain ⟨j, hj, rfl⟩ := List.mem_map.mp he
        have hij : i ≤ j := (List.mem_range'_1.mp hj).1
        have hmono := entryAt_offset_mono blob (Nat.succ_le_succ hij)
        have hfit : (entryAt blob j).offset + (entryAt blob j).length ≤ blob.length :=
          (of_decide_eq_true hlisted).2
        rw [Nat.succ_eq_add_one, Nat.succ_eq_add_one, entryAt_offset_succ,
          entryAt_offset_succ] at hmono
        omega
      rw [if_pos hfits, hnone]
      rfl
    · have hplace : kHeaderSize + i * kEntrySize + kEntrySize =
          kHeaderSize + (i + 1) * kEntrySize := by ring
      rw [if_neg hfits, hplace, ← entryAt_offset_succ, ih, List.range'_succ, List.map_cons]
      by_cases hempty : (entryAt blob i).key = []
      · have hnot : ¬ (entryAt blob i).Listed blob := fun h => h.1 hempty
        rw [List.filter_cons_of_neg (by simpa using hnot), if_pos (by simp [hempty])]
      · have hlisted : (entryAt blob i).Listed blob := ⟨hempty, by omega⟩
        rw [List.filter_cons_of_pos (by simpa using hlisted), if_neg (by simpa using hempty)]
        rfl

/-- A file is indexed as its entries are listed. -/
theorem indexLoca_eq (blobs : List Bytes) (file : ℕ) (blob : Bytes)
    (byHandle : List (View × View)) :
    indexLoca blobs file blob byHandle =
      ((fileEntries blob).map (Entry.views file blob)).foldl
          (fun m e => assign (Strings.contents (fun _ => []) { blobs }) e.1 e.2 m) byHandle := by
  unfold indexLoca fileEntries
  by_cases hwell : WellFormed blob
  · obtain ⟨hsize, hmagic, htext, hin⟩ := hwell
    have hloop := indexEntries_eq blobs file blob (uint32At blob 4) 0 byHandle
    have hoffset : (entryAt blob 0).offset = uint32At blob 8 := rfl
    rw [hoffset, Nat.zero_mul, Nat.add_zero] at hloop
    rw [if_neg (by simp only [not_or, not_lt, not_not]; exact ⟨hsize, hmagic⟩)]
    simp only
    rw [if_neg (by omega), hloop, if_pos ⟨hsize, hmagic, htext, hin⟩, List.range_eq_range']
  · rw [if_neg hwell]
    unfold WellFormed at hwell
    by_cases hheader : blob.length < kHeaderSize ∨ blob.take 4 ≠ kMagic
    · rw [if_pos hheader]
      rfl
    · rw [if_neg hheader]
      rw [not_or, not_lt, not_not] at hheader
      have hbad : uint32At blob 8 ≠ kHeaderSize + uint32At blob 4 * kEntrySize ∨
          blob.length < uint32At blob 8 := by
        by_contra hgood
        rw [not_or, not_not, not_lt] at hgood
        exact hwell ⟨hheader.1, hheader.2, hgood.1, hgood.2⟩
      simp only
      rw [if_pos hbad]
      rfl

/-- The views of the entries of all files. -/
def viewsOf (blobs : List Bytes) (e : ℕ × Entry) : View × View :=
  e.2.views e.1 (blobs.getD e.1 [])

/-- The index over the files is that over all their entries. -/
theorem indexFrom_eq (blobs pre rest : List Bytes) (h : blobs = pre ++ rest)
    (byHandle : List (View × View)) :
    indexFrom blobs pre.length rest byHandle =
      ((allEntries pre.length rest).map (viewsOf blobs)).foldl
          (fun m e => assign (Strings.contents (fun _ => []) { blobs }) e.1 e.2 m) byHandle := by
  induction rest generalizing pre byHandle with
  | nil => rfl
  | cons blob rest ih =>
    have hblob : blobs.getD pre.length [] = blob := by simp [h]
    have hviews : ((fileEntries blob).map (pre.length, ·)).map (viewsOf blobs) =
        (fileEntries blob).map (Entry.views pre.length blob) := by
      rw [List.map_map]
      apply List.map_congr_left
      intro e _
      simp only [Function.comp_apply, viewsOf, hblob]
    have hrest := ih (pre ++ [blob]) (by simp [h])
      (indexLoca blobs pre.length blob byHandle)
    rw [List.length_append, List.length_singleton] at hrest
    unfold indexFrom allEntries
    rw [hrest, indexLoca_eq, List.map_append, List.foldl_append, hviews]

/-- An entry of all is one of a file. -/
theorem mem_allEntries {file : ℕ} {blobs : List Bytes} {e : ℕ × Entry}
    (h : e ∈ allEntries file blobs) :
    file ≤ e.1 ∧ e.2 ∈ fileEntries (blobs.getD (e.1 - file) []) := by
  induction blobs generalizing file with
  | nil => simp [allEntries] at h
  | cons blob rest ih =>
    unfold allEntries at h
    obtain hmem | hmem := List.mem_append.mp h
    · obtain ⟨e', he', rfl⟩ := List.mem_map.mp hmem
      exact ⟨le_rfl, by simpa using he'⟩
    · obtain ⟨hle, hin⟩ := ih hmem
      have hsub : e.1 - file = e.1 - (file + 1) + 1 := by omega
      exact ⟨by omega, by rw [hsub]; exact hin⟩

/-- An entry of a file stands at some index and has a key. -/
theorem exists_entryAt_of_mem {blob : Bytes} {e : Entry} (h : e ∈ fileEntries blob) :
    e.key ≠ [] ∧ ∃ i, e = entryAt blob i := by
  unfold fileEntries at h
  split at h
  · obtain ⟨hmem, hlisted⟩ := List.mem_filter.mp h
    obtain ⟨i, _, rfl⟩ := List.mem_map.mp hmem
    exact ⟨(of_decide_eq_true hlisted).1, i, rfl⟩
  · exact absurd h List.not_mem_nil

/-- A key view of a base file reads as the key, whatever was written. -/
theorem contents_viewsOf (freed : View → Bytes) (s : Strings) {e : ℕ × Entry}
    (h : e ∈ allEntries 0 s.blobs) :
    s.contents freed (viewsOf s.blobs e).1 = e.2.key := by
  obtain ⟨_, hmem⟩ := mem_allEntries h
  rw [Nat.sub_zero] at hmem
  obtain ⟨_, i, hi⟩ := exists_entryAt_of_mem hmem
  unfold viewsOf
  rw [hi]
  exact contents_place freed s e.1 i

/-- Every key of the index of the base files is a view of an entry's key. -/
theorem mem_indexFrom {blobs : List Bytes} {e : View × View} (h : e ∈ indexFrom blobs 0 blobs []) :
    ∃ a ∈ allEntries 0 blobs, e.1 = (viewsOf blobs a).1 := by
  have hindex := indexFrom_eq blobs [] blobs rfl []
  rw [List.length_nil] at hindex
  rw [hindex] at h
  obtain hnew | hold := mem_foldl_assign h
  · rw [List.map_map] at hnew
    obtain ⟨a, ha, heq⟩ := List.mem_map.mp hnew
    exact ⟨a, ha, heq.symm⟩
  · exact absurd hold List.not_mem_nil

/-- The index of the base files finds what they give. -/
theorem lookup_indexFrom (freed : View → Bytes) (s : Strings) (handle : Bytes) :
    lookup (s.contents freed) handle (indexFrom s.blobs 0 s.blobs []) =
      (given s.blobs handle).map fun e => (viewsOf s.blobs e).2 := by
  have hread : ∀ a ∈ allEntries 0 s.blobs,
      Strings.contents (fun _ => []) { blobs := s.blobs } (viewsOf s.blobs a).1 = a.2.key :=
    fun a ha => contents_viewsOf _ { blobs := s.blobs } ha
  have hsame : ∀ e ∈ indexFrom s.blobs 0 s.blobs [],
      s.contents freed e.1 = Strings.contents (fun _ => []) { blobs := s.blobs } e.1 := by
    intro e he
    obtain ⟨a, ha, heq⟩ := mem_indexFrom he
    rw [heq, contents_viewsOf freed _ ha, hread a ha]
  have hindex := indexFrom_eq s.blobs [] s.blobs rfl []
  rw [List.length_nil] at hindex
  have hfilter : ((allEntries 0 s.blobs).map (viewsOf s.blobs)).filter
        (fun e => Strings.contents (fun _ => []) { blobs := s.blobs } e.1 = handle) =
      ((allEntries 0 s.blobs).filter fun e => e.2.key = handle).map (viewsOf s.blobs) := by
    rw [List.filter_map]
    apply congrArg
    apply List.filter_congr
    intro a ha
    simp only [Function.comp_apply, hread a ha]
  rw [lookup_congr handle hsame, hindex, lookup_foldl_assign, hfilter, List.getLast?_map,
    lookup_nil, Option.or_none, Option.map_map]
  rfl

/-! ### The sets made since the index was ready -/

/-- The strings after sets on top of the index of the base files. -/
def setsAfter (freed : View → Bytes) (blobs : List Bytes) (sets : List (Bytes × Bytes)) : Strings :=
  sets.foldl (fun s e => s.set freed e.1 e.2)
    { built := true, blobs, byHandle := indexFrom blobs 0 blobs [] }

/-- The number of the last set of a handle. -/
def lastSlot (handle : Bytes) (sets : List (Bytes × Bytes)) : Option ℕ :=
  ((sets.zipIdx.filter fun e => e.1.1 = handle).getLast?).map Prod.snd

/-- A key the index took from a set: the first of its handle, which no base file gives. -/
def IsKey (blobs : List Bytes) (sets : List (Bytes × Bytes)) (i : ℕ) : Prop :=
  ∃ e, sets[i]? = some e ∧ given blobs e.1 = none ∧ ∀ e' ∈ sets.take i, e'.1 ≠ e.1

/-- The vector has not left any key behind that is kept inside its string. -/
def KeysStay (blobs : List Bytes) (sets : List (Bytes × Bytes)) : Prop :=
  ∀ i e, sets[i]? = some e → IsKey blobs sets i → e.1.length ≤ kInPlace →
    vectorCapacity (i + 1) = vectorCapacity sets.length

section Sets
variable {freed : View → Bytes} {blobs : List Bytes} {sets : List (Bytes × Bytes)}
  {new : Bytes × Bytes}

theorem vectorCapacity_le_succ (n : ℕ) : vectorCapacity n ≤ vectorCapacity (n + 1) := by
  show vectorCapacity n ≤ if n = vectorCapacity n then _ else _
  split <;> omega

/-- A vector's capacity grows with its length. -/
theorem vectorCapacity_mono {m n : ℕ} (h : m ≤ n) : vectorCapacity m ≤ vectorCapacity n := by
  induction n, h using Nat.le_induction with
  | base => exact le_rfl
  | succ n _ ih => exact ih.trans (vectorCapacity_le_succ n)

theorem setsAfter_concat : setsAfter freed blobs (sets ++ [new]) =
    (setsAfter freed blobs sets).set freed new.1 new.2 := by
  unfold setsAfter
  rw [List.foldl_append]
  rfl

/-- Writes change nothing but what was written. -/
theorem setsAfter_fields : (setsAfter freed blobs sets).built = true ∧
    (setsAfter freed blobs sets).blobs = blobs ∧ (setsAfter freed blobs sets).written = sets := by
  induction sets using List.reverseRecOn with
  | nil => exact ⟨rfl, rfl, rfl⟩
  | append_singleton sets new ih =>
    rw [setsAfter_concat]
    refine ⟨ih.1, ih.2.1, ?_⟩
    show (setsAfter freed blobs sets).written ++ [(new.1, new.2)] = sets ++ [new]
    rw [ih.2.2]

theorem setsAfter_blobs : (setsAfter freed blobs sets).blobs = blobs := setsAfter_fields.2.1

theorem setsAfter_written : (setsAfter freed blobs sets).written = sets := setsAfter_fields.2.2

/-- The last write of a handle is the newest one. -/
theorem lastSlot_concat (handle : Bytes) : lastSlot handle (sets ++ [new]) =
    if new.1 = handle then some sets.length else lastSlot handle sets := by
  unfold lastSlot
  rw [List.zipIdx_append, List.filter_append, Nat.zero_add]
  by_cases h : new.1 = handle <;> simp [h]

/-- The last slot holds a set of the handle, and none comes after it. -/
theorem lastSlot_eq_some {handle : Bytes} {i : ℕ} (h : lastSlot handle sets = some i) :
    ∃ text, sets[i]? = some (handle, text) := by
  unfold lastSlot at h
  obtain ⟨⟨e, j⟩, he, rfl⟩ := Option.map_eq_some_iff.mp h
  have hmem := List.mem_of_getLast? he
  obtain ⟨hin, hkey⟩ := List.mem_filter.mp hmem
  have hget := List.mk_mem_zipIdx_iff_getElem?.mp hin
  exact ⟨e.2, by rw [hget, ← of_decide_eq_true hkey]⟩

/-- A handle without a slot was not written. -/
theorem lastSlot_eq_none {handle : Bytes} (h : lastSlot handle sets = none) :
    ∀ e ∈ sets, e.1 ≠ handle := by
  induction sets using List.reverseRecOn with
  | nil => simp
  | append_singleton sets new ih =>
    rw [lastSlot_concat] at h
    split at h
    · exact absurd h (by simp)
    · rename_i hne
      intro e he
      obtain hmem | hmem := List.mem_append.mp he
      · exact ih h e hmem
      · rw [List.mem_singleton.mp hmem]
        exact hne

/-- A slot that is a key stays one. -/
theorem IsKey.concat {i : ℕ} (h : IsKey blobs sets i) : IsKey blobs (sets ++ [new]) i := by
  obtain ⟨e, he, hgiven, hfirst⟩ := h
  have hlt : i < sets.length := (List.getElem?_eq_some_iff.mp he).1
  refine ⟨e, by rw [List.getElem?_append_left hlt, he], hgiven, ?_⟩
  rw [List.take_append_of_le_length hlt.le]
  exact hfirst

/-- If all keys stay in place after a write, they did before it. -/
theorem KeysStay.of_concat (h : KeysStay blobs (sets ++ [new])) : KeysStay blobs sets := by
  intro i e he hkey hshort
  have hlt : i < sets.length := (List.getElem?_eq_some_iff.mp he).1
  have heq := h i e (by rw [List.getElem?_append_left hlt, he]) hkey.concat hshort
  rw [List.length_append, List.length_singleton] at heq
  have hlow := vectorCapacity_mono (show i + 1 ≤ sets.length by omega)
  have hhigh := vectorCapacity_le_succ sets.length
  omega

/-- A slot owns what was written to it. -/
theorem owned_of_getElem? {s : Strings} {i : ℕ} {e : Bytes × Bytes} (h : s.written[i]? = some e)
    (text : Bool) : s.owned i text = if text then e.2 else e.1 := by
  unfold Strings.owned
  rw [List.getD_eq_getElem?_getD, h]
  rfl

/-- A string that was too long to be kept in place, or whose vector has not grown, is read. -/
theorem dangles_written_eq_false {s : Strings} {i : ℕ} {e : Bytes × Bytes} {text : Bool}
    {capacity : ℕ} (h : s.written[i]? = some e)
    (hstay : (if text then e.2 else e.1).length ≤ kInPlace →
      capacity = vectorCapacity s.written.length) :
    s.dangles (.written i text capacity) = false := by
  unfold Strings.dangles
  simp only [owned_of_getElem? h, decide_eq_false_iff_not, not_and, not_not]
  exact hstay

/-- It reads so as long as it does not dangle. -/
theorem contents_written {s : Strings} {i : ℕ} {e : Bytes × Bytes} {text : Bool} {capacity : ℕ}
    (h : s.written[i]? = some e) (hdangles : s.dangles (.written i text capacity) = false) :
    s.contents freed (.written i text capacity) = if text then e.2 else e.1 := by
  unfold Strings.contents
  rw [if_neg (by simp [hdangles])]
  exact owned_of_getElem? h text

/-- A key of the index reads as the handle it was made for. -/
theorem contents_key {s : Strings} {i : ℕ} {e : Bytes × Bytes} (hstay : KeysStay blobs s.written)
    (hkey : IsKey blobs s.written i) (h : s.written[i]? = some e) :
    s.contents freed (.written i false (vectorCapacity (i + 1))) = e.1 :=
  contents_written h (dangles_written_eq_false h (hstay i e h hkey))

/-- What a key of the index is a view of. -/
def KeyView (blobs : List Bytes) (sets : List (Bytes × Bytes)) (view : View) : Prop :=
  (∃ a ∈ allEntries 0 blobs, view = (viewsOf blobs a).1) ∨
    ∃ i, view = .written i false (vectorCapacity (i + 1)) ∧ IsKey blobs sets i

/-- A key reads the same after one more set. -/
theorem KeyView.contents_concat {s s' : Strings} {view : View}
    (h : KeyView s.blobs s.written view) (hblobs : s'.blobs = s.blobs)
    (hwritten : s'.written = s.written ++ [new]) (hstay : KeysStay s'.blobs s'.written) :
    s'.contents freed view = s.contents freed view := by
  obtain ⟨a, ha, rfl⟩ | ⟨i, rfl, hkey⟩ := h
  · rw [contents_viewsOf freed _ ha]
    rw [← hblobs] at ha ⊢
    exact contents_viewsOf freed _ ha
  · obtain ⟨e, he, _⟩ := id hkey
    have hlt : i < s.written.length := (List.getElem?_eq_some_iff.mp he).1
    have hkey' : IsKey s'.blobs s'.written i := by
      rw [hblobs, hwritten]
      exact hkey.concat
    have he' : s'.written[i]? = some e := by rw [hwritten, List.getElem?_append_left hlt, he]
    have hbefore : KeysStay s.blobs s.written := by
      rw [hblobs, hwritten] at hstay
      exact hstay.of_concat
    rw [contents_key hstay hkey' he', contents_key hbefore hkey he]

/-- What a lookup finds: the text of the last set of the handle, or else what the base files
give. -/
def found (blobs : List Bytes) (sets : List (Bytes × Bytes)) (handle : Bytes) : Option View :=
  ((lastSlot handle sets).map fun i => .written i true (vectorCapacity (i + 1))).or
    ((given blobs handle).map fun e => (viewsOf blobs e).2)

/-- The index after any number of sets: its keys, and what a lookup finds. -/
theorem lookup_setsAfter (freed : View → Bytes) (hstay : KeysStay blobs sets) :
    (∀ e ∈ (setsAfter freed blobs sets).byHandle, KeyView blobs sets e.1) ∧
      ∀ handle, lookup ((setsAfter freed blobs sets).contents freed) handle
        (setsAfter freed blobs sets).byHandle = found blobs sets handle := by
  induction sets using List.reverseRecOn with
  | nil =>
    refine ⟨fun e he => .inl (mem_indexFrom he), fun handle => ?_⟩
    exact lookup_indexFrom freed (setsAfter freed blobs []) handle
  | append_singleton sets new ih =>
    obtain ⟨hkeys, hfound⟩ := ih hstay.of_concat
    generalize hs : setsAfter freed blobs sets = s at hkeys hfound
    have hblobs : s.blobs = blobs := by rw [← hs, setsAfter_blobs]
    have hwritten : s.written = sets := by rw [← hs, setsAfter_written]
    have hset : setsAfter freed blobs (sets ++ [new]) = s.set freed new.1 new.2 := by
      rw [setsAfter_concat, hs]
    have hblobs' : (s.set freed new.1 new.2).blobs = blobs := hblobs
    have hwritten' : (s.set freed new.1 new.2).written = sets ++ [new] := by
      show s.written ++ [(new.1, new.2)] = _
      rw [hwritten]
    rw [hset]
    -- the new key is read while the vector has the capacity it was made with
    have hget : (s.set freed new.1 new.2).written[sets.length]? = some new := by
      rw [hwritten']
      simp
    have hnew : (s.set freed new.1 new.2).contents freed
        (.written sets.length false (vectorCapacity (sets.length + 1))) = new.1 :=
      contents_written hget (dangles_written_eq_false hget fun _ => by rw [hwritten']; simp)
    have hsame : ∀ e ∈ s.byHandle, (s.set freed new.1 new.2).contents freed e.1 =
        s.contents freed e.1 := by
      intro e he
      have hkey := hkeys e he
      rw [← hblobs, ← hwritten] at hkey
      have hone : (s.set freed new.1 new.2).written = s.written ++ [new] := rfl
      apply hkey.contents_concat (hblobs'.trans hblobs.symm) hone
      rw [hblobs', hwritten']
      exact hstay
    have hbyHandle : (s.set freed new.1 new.2).byHandle =
        assign ((s.set freed new.1 new.2).contents freed)
          (.written sets.length false (vectorCapacity (sets.length + 1)))
          (.written sets.length true (vectorCapacity (sets.length + 1))) s.byHandle := by
      have hlength : (s.written ++ [(new.1, new.2)]).length = sets.length + 1 := by
        rw [hwritten, List.length_append, List.length_singleton]
      rw [← hlength, ← hwritten]
      rfl
    rw [hbyHandle]
    constructor
    · intro e he
      obtain ⟨v, hv⟩ | ⟨hkey, hnone⟩ := mem_assign he
      · obtain hbase | ⟨i, hi, hkey⟩ := hkeys _ hv
        · exact .inl hbase
        · exact .inr ⟨i, hi, hkey.concat⟩
      · refine .inr ⟨sets.length, hkey, new, by simp, ?_, ?_⟩
        · rw [hnew, lookup_congr _ hsame, hfound, found] at hnone
          simpa using (Option.or_eq_none_iff.mp hnone).2
        · rw [hnew, lookup_congr _ hsame, hfound, found] at hnone
          rw [List.take_append_of_le_length le_rfl, List.take_length]
          exact lastSlot_eq_none (by simpa using (Option.or_eq_none_iff.mp hnone).1)
    · intro handle
      rw [lookup_assign, hnew, lookup_congr _ hsame, hfound]
      unfold found
      rw [lastSlot_concat]
      by_cases h : new.1 = handle <;> simp [h]

/-- The text of the last set of a handle. -/
def lastText (handle : Bytes) (sets : List (Bytes × Bytes)) : Option Bytes :=
  (lastSlot handle sets).bind fun i => (sets[i]?).map Prod.snd

/-- The last text of a handle is the newest one. -/
theorem lastText_concat (handle : Bytes) : lastText handle (sets ++ [new]) =
    if new.1 = handle then some new.2 else lastText handle sets := by
  unfold lastText
  rw [lastSlot_concat]
  split
  · simp
  · cases h : lastSlot handle sets with
    | none => rfl
    | some i =>
      obtain ⟨text, hget⟩ := lastSlot_eq_some h
      have hlt : i < sets.length := (List.getElem?_eq_some_iff.mp hget).1
      simp only [Option.bind_some, List.getElem?_append_left hlt]

end Sets

/-! ### The calls -/

section Calls
variable {game : Game} {freed : View → Bytes} {s : State} {scanAllowed : Bool}

/-- The base files of the game, once it has told where they are. -/
def Game.files (game : Game) : List Bytes := (game.data.map game.baseFiles).getD []

/-- What is built has the game's files and no writes. -/
theorem build_eq_some (freed : View → Bytes) {found : Strings} (h : build game = some found) :
    found = setsAfter freed game.files [] := by
  unfold build at h
  unfold Game.files
  cases hdata : game.data with
  | none => simp [hdata] at h
  | some data =>
    rw [hdata] at h
    simp only [Option.ite_none_left_eq_some, Option.some.injEq] at h
    exact h.2.symm

/-- An index that was built is ready. -/
theorem ready_of_built (h : s.strings.built = true) : ready game scanAllowed s = (s, true) := by
  unfold ready
  rw [if_pos h]

/-- What `ready` answers is whether the index it leaves is built. -/
theorem ready_snd : (ready game scanAllowed s).2 = (ready game scanAllowed s).1.strings.built := by
  unfold ready
  cases hbuilt : s.strings.built with
  | true => simp [hbuilt]
  | false =>
    cases scanAllowed with
    | false => simp [hbuilt]
    | true =>
      cases htried : s.tried with
      | true => simp [hbuilt]
      | false =>
        cases hbuild : build game with
        | none => simp [hbuilt]
        | some found => simp [build_eq_some (fun _ => []) hbuild, setsAfter]

/-- An index that is built now, and was not before, has no sets yet. -/
theorem ready_strings (freed : View → Bytes) (hbefore : s.strings.built = false)
    (h : (ready game scanAllowed s).2 = true) :
    (ready game scanAllowed s).1.strings = setsAfter freed game.files [] := by
  unfold ready at h ⊢
  simp only [hbefore, Bool.false_eq_true, if_false] at h ⊢
  cases scanAllowed with
  | false => simp at h
  | true =>
    cases htried : s.tried with
    | true => simp [htried] at h
    | false =>
      cases hbuild : build game with
      | none => simp [htried, hbuild] at h
      | some found => simpa using build_eq_some freed hbuild

/-- Once it is built, the index is what the sets made since give. -/
def Indexed (game : Game) (freed : View → Bytes) (s : State) : Prop :=
  s.strings.built = true → s.strings = setsAfter freed game.files s.strings.written

/-- Getting ready keeps the index right. -/
theorem Indexed.ready (h : Indexed game freed s) (scanAllowed : Bool) :
    Indexed game freed (ready game scanAllowed s).1 := by
  intro hbuilt
  by_cases hbefore : s.strings.built = true
  · rw [ready_of_built hbefore]
    exact h hbefore
  · have hnew := ready_strings freed (by simpa using hbefore)
      (ready_snd.trans hbuilt)
    rw [hnew, setsAfter_written]

/-- The strings after a set: those that `ready` left, with the set in them. -/
theorem call_set (handle text : CString) (hne : handle.bytes ≠ []) :
    (call game freed s (.set scanAllowed handle text)).strings =
      (ready game scanAllowed s).1.strings.set freed handle.bytes text.bytes := by
  show (bg3leLocaSet game freed scanAllowed handle text s).1.strings = _
  unfold bg3leLocaSet
  rw [if_neg hne]

/-- A call of `bg3le_loca_get` changes nothing but that it may build the index. -/
theorem call_get (handle : CString) :
    call game freed s (.get scanAllowed handle) = (ready game scanAllowed s).1 := by
  show (bg3leLocaGet game (fun _ => none) freed scanAllowed handle s).1 = _
  unfold bg3leLocaGet
  cases Index.ready game scanAllowed s with
  | mk s' ok => cases ok <;> simp only

/-- A call without a set does what `ready` does, or nothing. -/
theorem call_cases (game : Game) (freed : View → Bytes) (s : State) (c : Call) :
    (call game freed s c = s ∧ ∀ handle, lastSet handle [c] = none) ∨
    (∃ a, call game freed s c = (ready game a s).1 ∧ ∀ handle, lastSet handle [c] = none) ∨
    ∃ a handle text, c = .set a handle text ∧ handle.bytes ≠ [] := by
  cases c with
  | set a handle text =>
    by_cases hne : handle.bytes = []
    · left
      constructor
      · show (bg3leLocaSet game freed a handle text s).1 = s
        unfold bg3leLocaSet
        rw [if_pos hne]
      · intro k
        simp [lastSet, hne]
    · exact .inr (.inr ⟨a, handle, text, rfl, hne⟩)
  | get a handle => exact .inr (.inl ⟨a, call_get handle, fun _ => rfl⟩)
  | ready a => exact .inr (.inl ⟨a, rfl, fun _ => rfl⟩)

/-- Every call keeps the index right. -/
theorem Indexed.call (h : Indexed game freed s) (c : Call) :
    Indexed game freed (call game freed s c) := by
  obtain ⟨heq, _⟩ | ⟨a, heq, _⟩ | ⟨a, handle, text, rfl, hne⟩ := call_cases game freed s c
  · rw [heq]
    exact h
  · rw [heq]
    exact h.ready a
  · intro hbuilt
    rw [call_set handle text hne] at hbuilt ⊢
    have hready := h.ready a hbuilt
    have hwritten : ((Index.ready game a s).1.strings.set freed handle.bytes text.bytes).written =
      (Index.ready game a s).1.strings.written ++ [(handle.bytes, text.bytes)] := rfl
    rw [hwritten, setsAfter_concat, ← hready]

theorem after_concat (calls : List Call) (c : Call) :
    after game freed (calls ++ [c]) = call game freed (after game freed calls) c := by
  unfold after
  rw [List.foldl_append]
  rfl

/-- So it is right after any calls. -/
theorem indexed_after (game : Game) (freed : View → Bytes) (calls : List Call) : Indexed game freed (after game freed calls) := by
  induction calls using List.reverseRecOn with
  | nil => simp [Indexed, after]
  | append_singleton calls c ih =>
    rw [after_concat]
    exact ih.call c

/-- An index that was built stays so. -/
theorem built_call (h : s.strings.built = true) (c : Call) :
    (call game freed s c).strings.built = true := by
  obtain ⟨heq, _⟩ | ⟨a, heq, _⟩ | ⟨a, handle, text, rfl, hne⟩ :=
    call_cases game freed s c
  · rw [heq, h]
  · rw [heq, ready_of_built h, h]
  · rw [call_set handle text hne, ready_of_built h]
    exact h

/-- So it does over any further calls. -/
theorem built_after_append {calls : List Call} (h : (after game freed calls).strings.built = true)
    (more : List Call) : (after game freed (calls ++ more)).strings.built = true := by
  induction more using List.reverseRecOn with
  | nil => simpa using h
  | append_singleton more c ih =>
    rw [← List.append_assoc, after_concat]
    exact built_call ih c

/-- The last text set is that of the later calls, if they set one. -/
theorem lastSet_append (handle : Bytes) (calls more : List Call) :
    lastSet handle (calls ++ more) = (lastSet handle more).or (lastSet handle calls) := by
  induction calls with
  | nil => simp [lastSet]
  | cons c calls ih =>
    cases c <;> simp only [List.cons_append, lastSet, ih, Option.or_assoc]

/-- The last call that set the handle. -/
theorem exists_of_lastSet {handle text : Bytes} {calls : List Call}
    (h : lastSet handle calls = some text) :
    ∃ pre a k t post, calls = pre ++ .set a k t :: post ∧ k.bytes = handle ∧ k.bytes ≠ [] ∧
      lastSet handle post = none := by
  induction calls with
  | nil => simp [lastSet] at h
  | cons c calls ih =>
    by_cases hrest : lastSet handle calls = none
    · cases c with
      | set a k t =>
        simp only [lastSet, hrest, Option.none_or, Option.ite_none_right_eq_some] at h
        exact ⟨[], a, k, t, calls, rfl, h.1.1, h.1.2, hrest⟩
      | get a k => simp [lastSet, hrest] at h
      | ready a => simp [lastSet, hrest] at h
    · obtain ⟨t', ht'⟩ := Option.ne_none_iff_exists'.mp hrest
      have hsome : lastSet handle calls = some text := by
        cases c <;> simpa [lastSet, ht'] using h
      obtain ⟨pre, a, k, t, post, rfl, hk, hne, hpost⟩ := ih hsome
      exact ⟨c :: pre, a, k, t, post, rfl, hk, hne, hpost⟩

/-- The last set of the handle was made with the index ready. -/
def SetWhenReady (game : Game) (freed : View → Bytes) (handle : Bytes) (calls : List Call) :
    Prop :=
  ∀ pre a k t post, calls = pre ++ .set a k t :: post → k.bytes = handle → k.bytes ≠ [] →
    lastSet handle post = none → (ready game a (after game freed pre)).2 = true

/-- A call that does not set the handle may be left out. -/
theorem SetWhenReady.of_concat {handle : Bytes} {calls : List Call} {c : Call}
    (h : SetWhenReady game freed handle (calls ++ [c])) (hc : lastSet handle [c] = none) :
    SetWhenReady game freed handle calls := by
  intro pre a k t post hsplit hk hne hpost
  refine h pre a k t (post ++ [c]) (by rw [hsplit, List.append_assoc]; rfl) hk hne ?_
  rw [lastSet_append, hc, hpost]
  rfl

/-- Sets that all went into an index that was ready leave none to an index that was not. -/
theorem SetWhenReady.lastSet_eq_none {handle : Bytes} {calls : List Call}
    (h : SetWhenReady game freed handle calls)
    (hbuilt : (after game freed calls).strings.built = false) : lastSet handle calls = none := by
  cases hlast : lastSet handle calls with
  | none => rfl
  | some text =>
    obtain ⟨pre, a, k, t, post, rfl, hk, hne, hpost⟩ := exists_of_lastSet hlast
    have hready := h pre a k t post rfl hk hne hpost
    have hset : (after game freed (pre ++ [.set a k t])).strings.built = true := by
      rw [after_concat, call_set k t hne]
      exact ready_snd.symm.trans hready
    have hend := built_after_append hset post
    rw [List.append_assoc, List.singleton_append, hbuilt] at hend
    exact absurd hend (by simp)

/-- An index that `ready` leaves built has, for the handle, the sets it had before. -/
theorem lastText_ready {handle : Bytes} {calls : List Call} {a : Bool}
    (h : SetWhenReady game freed handle calls)
    (hready : (ready game a (after game freed calls)).2 = true)
    (ih : (after game freed calls).strings.built = true →
      lastText handle (after game freed calls).strings.written = lastSet handle calls) :
    lastText handle (ready game a (after game freed calls)).1.strings.written =
      lastSet handle calls := by
  by_cases hbuilt : (after game freed calls).strings.built = true
  · rw [ready_of_built hbuilt]
    exact ih hbuilt
  · rw [Bool.not_eq_true] at hbuilt
    rw [ready_strings freed hbuilt hready, setsAfter_written, h.lastSet_eq_none hbuilt]
    rfl

/-- The sets in an index that is ready end, for the handle, with its last one. -/
theorem lastText_after {handle : Bytes} {calls : List Call}
    (h : SetWhenReady game freed handle calls)
    (hbuilt : (after game freed calls).strings.built = true) :
    lastText handle (after game freed calls).strings.written = lastSet handle calls := by
  induction calls using List.reverseRecOn with
  | nil => simp [after] at hbuilt
  | append_singleton calls c ih =>
    rw [after_concat] at hbuilt ⊢
    rw [lastSet_append]
    obtain ⟨heq, hnone⟩ | ⟨a, heq, hnone⟩ | ⟨a, k, t, rfl, hne⟩ :=
      call_cases game freed (after game freed calls) c
    · rw [heq] at hbuilt ⊢
      rw [hnone, Option.none_or]
      exact ih (h.of_concat (hnone handle)) hbuilt
    · have hcalls := h.of_concat (hnone handle)
      rw [heq] at hbuilt ⊢
      rw [hnone, Option.none_or]
      exact lastText_ready hcalls (ready_snd.trans hbuilt) (ih hcalls)
    · rw [call_set k t hne] at hbuilt ⊢
      have hready : (ready game a (after game freed calls)).2 = true := ready_snd.trans hbuilt
      have hwritten : ((ready game a (after game freed calls)).1.strings.set freed k.bytes
          t.bytes).written =
        (ready game a (after game freed calls)).1.strings.written ++ [(k.bytes, t.bytes)] := rfl
      rw [hwritten, lastText_concat]
      by_cases hk : k.bytes = handle
      · have hlast : lastSet handle [.set a k t] = some t.bytes := by
          simp only [lastSet, Option.none_or, if_pos (And.intro hk hne)]
        rw [if_pos hk, hlast]
        rfl
      · have hlast : lastSet handle [.set a k t] = none := by
          simp only [lastSet, Option.none_or, if_neg (fun h : _ ∧ _ => hk h.1)]
        have hcalls := h.of_concat hlast
        rw [if_neg hk, hlast, Option.none_or]
        exact lastText_ready hcalls hready (ih hcalls)

/-- The text the base files give for a handle. -/
def Game.baseText (game : Game) (handle : Bytes) : Option Bytes :=
  (given game.files handle).map fun e => e.2.text (game.files.getD e.1 [])

/-- What keeps the reads of a handle right, for an index in the state `s`: its last set was made
with the index ready, its text, if short, was not left behind by the vector, and no short key
was; a text of the base files ends within its length. -/
structure Kept (game : Game) (freed : View → Bytes) (handle : Bytes) (calls : List Call)
    (s : State) : Prop where
  last : SetWhenReady game freed handle calls
  text : ∀ i e, lastSlot handle s.strings.written = some i → s.strings.written[i]? = some e →
    e.2.length ≤ kInPlace → vectorCapacity (i + 1) = vectorCapacity s.strings.written.length
  keys : KeysStay game.files s.strings.written
  ended : ∀ e, lastSet handle calls = none → given game.files handle = some e →
    e.2.Terminated (game.files.getD e.1 [])

/-- A text that was set has no NUL, as it came as a C string. -/
theorem lastSet_noNul {handle text : Bytes} {calls : List Call}
    (h : lastSet handle calls = some text) : 0 ∉ text := by
  induction calls with
  | nil => simp [lastSet] at h
  | cons c calls ih =>
    cases c with
    | get a k => exact ih h
    | ready a => exact ih h
    | set a k t =>
      unfold lastSet at h
      obtain hrest | ⟨_, hthis⟩ := Option.or_eq_some_iff.mp h
      · exact ih hrest
      · rw [Option.ite_none_right_eq_some] at hthis
        obtain rfl : t.bytes = text := by simpa using hthis.2
        exact t.noNul

/-- A text without NUL is read to its end. -/
theorem cString_of_noNul {b : Bytes} (h : 0 ∉ b) : cString b = b := by
  unfold cString
  rw [List.takeWhile_eq_self_iff]
  intro x hx
  have hne : x ≠ 0 := fun h0 => h (h0 ▸ hx)
  simpa using hne

/-- What a lookup finds reads as the last text that was set, or as the base files have it. -/
theorem cStringAt_found (freed : View → Bytes) {handle : Bytes} {s : Strings} {e : View}
    (hfound : found s.blobs s.written handle = some e)
    (htext : ∀ i e, lastSlot handle s.written = some i → s.written[i]? = some e →
      e.2.length ≤ kInPlace → vectorCapacity (i + 1) = vectorCapacity s.written.length) :
    (∃ text, lastText handle s.written = some text ∧ s.cStringAt freed e = cString text) ∨
      ∃ a, lastSlot handle s.written = none ∧ given s.blobs handle = some a ∧
        s.cStringAt freed e = cString ((s.blobs.getD a.1 []).drop a.2.offset) := by
  unfold found at hfound
  cases hlast : lastSlot handle s.written with
  | some i =>
    obtain ⟨text, hget⟩ := lastSlot_eq_some hlast
    rw [hlast] at hfound
    obtain rfl : View.written i true (vectorCapacity (i + 1)) = e := by simpa using hfound
    have hdangles : s.dangles (.written i true (vectorCapacity (i + 1))) = false :=
      dangles_written_eq_false hget (htext i _ hlast hget)
    refine .inl ⟨text, by simp [lastText, hlast, hget], ?_⟩
    unfold Strings.cStringAt
    rw [if_neg (by simp [hdangles])]
    simp only [owned_of_getElem? hget, if_true]
  | none =>
    rw [hlast] at hfound
    obtain ⟨a, ha, rfl⟩ : ∃ a, given s.blobs handle = some a ∧ (viewsOf s.blobs a).2 = e := by
      simpa using hfound
    exact .inr ⟨a, rfl, ha, rfl⟩

/-- A handle of the game's text, in a file with one entry. -/
def demoHandle : CString := ⟨bytes "h1", by decide⟩

def demoFile : Bytes :=
  kMagic ++ LittleEndian.encode 4 1 ++ LittleEndian.encode 4 82 ++ bytes "h1" ++
    List.replicate 62 0 ++ [1, 0] ++ LittleEndian.encode 4 2 ++ bytes "a" ++ [0]

def demoGame : Game where
  data := some {
    localization := [(bytes "English.pak", [(bytes "Localization/English/english.loca", demoFile)])]
    localizationLanguage := []
    root := []
    mods := [] }
  language := bytes "English"

def demoText : CString := ⟨bytes "b", by decide⟩

theorem demoWritten : (ready demoGame true (after demoGame (fun _ => [])
    [.ready true, .set false demoHandle demoText])).1.strings.written =
      [(bytes "h1", bytes "b")] := by decide +kernel

theorem demoKept : Kept demoGame (fun _ => []) demoHandle.bytes
    [.ready true, .set false demoHandle demoText]
    (ready demoGame true (after demoGame (fun _ => [])
      [.ready true, .set false demoHandle demoText])).1 where
  last := by
    intro pre a k t post hsplit _ _ _
    match pre with
    | [] => simp at hsplit
    | [c] =>
      obtain ⟨rfl, ⟨rfl, rfl, rfl⟩, rfl⟩ : Call.ready true = c ∧
          (false = a ∧ demoHandle = k ∧ demoText = t) ∧ [] = post := by simpa using hsplit
      decide +kernel
    | c :: c' :: pre => simp at hsplit
  text := by
    intro i e _ hget _
    rw [demoWritten] at hget ⊢
    obtain rfl : i = 0 := by
      have hlt := (List.getElem?_eq_some_iff.mp hget).1
      simpa using hlt
    rfl
  keys := by
    rw [demoWritten]
    intro i e hget _ _
    obtain rfl : i = 0 := by
      have hlt := (List.getElem?_eq_some_iff.mp hget).1
      simpa using hlt
    rfl
  ended := by
    intro e hnone
    exact absurd hnone (by decide +kernel)

/-- While the engine's repository is not up, a handle reads as the text it was last set to, and
one that was not set as the base files have it. -/
theorem bg3leLocaGet_after (game : Game) (freed : View → Bytes) (calls : List Call)
    (scanAllowed : Bool) (handle : CString)
    (hready : (ready game scanAllowed (after game freed calls)).2 = true)
    (hkept : Kept game freed handle.bytes calls
      (ready game scanAllowed (after game freed calls)).1) :
    (bg3leLocaGet game (fun _ => none) freed scanAllowed handle (after game freed calls)).2 =
      (lastSet handle.bytes calls).or (game.baseText handle.bytes) := by
  have hlast := lastText_ready hkept.last hready (lastText_after hkept.last)
  have hindexed := (indexed_after game freed calls).ready scanAllowed
    (ready_snd.symm.trans hready)
  have hget : (bg3leLocaGet game (fun _ => none) freed scanAllowed handle
      (after game freed calls)).2 =
    let strings := (ready game scanAllowed (after game freed calls)).1.strings
    (lookup (strings.contents freed) handle.bytes strings.byHandle).map
      (strings.cStringAt freed) := by
    unfold bg3leLocaGet
    cases hr : ready game scanAllowed (after game freed calls) with
    | mk s ok =>
      rw [hr] at hready
      simp only at hready
      subst hready
      rfl
  rw [hget]
  generalize (ready game scanAllowed (after game freed calls)).1 = s at hkept hlast hindexed
  have hblobs : s.strings.blobs = game.files := by rw [hindexed, setsAfter_blobs]
  -- the index finds what a search through the blobs and the sets finds
  have hlookup : lookup (s.strings.contents freed) handle.bytes s.strings.byHandle =
      found s.strings.blobs s.strings.written handle.bytes := by
    have hstay := (lookup_setsAfter freed hkept.keys).2 handle.bytes
    rw [← hindexed, ← hblobs] at hstay
    exact hstay
  simp only [hlookup]
  cases hfound : found s.strings.blobs s.strings.written handle.bytes with
  | none =>
    unfold found at hfound
    obtain ⟨hslot, hgiven⟩ := Option.or_eq_none_iff.mp hfound
    have hslot' : lastSlot handle.bytes s.strings.written = none := by simpa using hslot
    have hgiven' : given game.files handle.bytes = none := by rw [← hblobs]; simpa using hgiven
    have hnone : lastSet handle.bytes calls = none := by
      rw [← hlast, lastText, hslot']
      rfl
    rw [hnone, Game.baseText, hgiven']
    rfl
  | some e =>
    obtain ⟨text, htext, hread⟩ | ⟨a, hslot, ha, hread⟩ :=
      cStringAt_found freed hfound hkept.text
    · rw [hlast] at htext
      rw [htext, Option.map_some, hread, cString_of_noNul (lastSet_noNul htext)]
      rfl
    · have hnone : lastSet handle.bytes calls = none := by
        rw [← hlast, lastText, hslot]
        rfl
      rw [hblobs] at ha hread
      -- a text of a file is read up to its zero byte, so it has to end in one
      have hended := hkept.ended a hnone ha
      unfold Entry.Terminated at hended
      rw [hnone, Game.baseText, ha, Option.map_some, hread, hended]
      rfl

/-- A text that is set once the index is built is read back. -/
theorem bg3leLocaGet_after_set :
    (bg3leLocaGet demoGame (fun _ => none) (fun _ => []) true demoHandle
      (after demoGame (fun _ => []) [.ready true, .set false demoHandle demoText])).2 =
        (lastSet demoHandle.bytes [.ready true, .set false demoHandle demoText]).or
          (demoGame.baseText demoHandle.bytes) :=
  bg3leLocaGet_after demoGame (fun _ => []) _ true demoHandle (by decide +kernel) demoKept

/-- A text set before the thread that scans got to the index is gone once that is built. -/
theorem set_before_build_lost :
    ¬ ∀ (game : Game) (freed : View → Bytes) (calls : List Call) (scanAllowed : Bool)
        (handle : CString) (text : Bytes),
      (ready game scanAllowed (after game freed calls)).2 = true →
      lastSet handle.bytes calls = some text →
      (bg3leLocaGet game (fun _ => none) freed scanAllowed handle (after game freed calls)).2 =
        some text := by
  intro h
  have hlost := h demoGame (fun _ => []) [.set false demoHandle demoText] true
    demoHandle (bytes "b") (by decide +kernel) (by decide +kernel)
  exact absurd hlost (by decide +kernel)

end Calls

end Index
end Loca
end Bg3le
