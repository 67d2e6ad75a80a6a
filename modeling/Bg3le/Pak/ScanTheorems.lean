import Bg3le.Pak.ReferencesTheorems

/-!
# What a scan adds to the groups

Each reference adds an occurrence of the same length to the group of the component that it spells,
and the stems of a referenced icon are in one group afterwards.
-/

namespace Bg3le
namespace Pak

variable {B : ℕ ⊕ ℕ → Bytes} {X : Index} {G : Groups} {l : Ledger} {content : Content} {t : LsfString}
  {c pos begin stop : ℕ}

/-- The occurrences that a token adds, each beside its group. -/
def Target.additions (X : Index) (c pos len : ℕ) : Target → List (ℕ × Occurrence)
  | .entry i begin stop =>
    ((X.parts i).filter fun p => begin ≤ p.begin ∧ p.stop ≤ stop).map fun p =>
      (p.group, ⟨some c, 0, pos + (p.begin - begin), p.stop - p.begin⟩)
  | .icons entries => [(X.stems (entries.headD 0), ⟨some c, 0, pos, len⟩)]

/-- What a token of a content leads to. -/
def Index.targetOf (X : Index) (content : Content) (t : LsfString) : Option Target :=
  X.resolve (X.name content.file) (slice content.bytes t.offset t.length) t.length t.attributeName

def tokenAdditions (X : Index) (c : ℕ) (content : Content) (t : LsfString) : List (ℕ × Occurrence) :=
  ((X.targetOf content t).map (Target.additions X c t.offset t.length)).getD []

/-- All occurrences that a scan adds. -/
def scanAdditions (X : Index) (contents : List Content) : List (ℕ × Occurrence) :=
  contents.zipIdx.flatMap fun (content, c) => content.tokens.flatMap (tokenAdditions X c content)

/-- The groups that a token joins. -/
def Target.joins (X : Index) : Target → List (ℕ × ℕ)
  | .entry _ _ _ => []
  | .icons entries => entries.map fun e => (X.stems (entries.headD 0), X.stems e)

def tokenJoins (X : Index) (content : Content) (t : LsfString) : List (ℕ × ℕ) :=
  ((X.targetOf content t).map (Target.joins X)).getD []

/-- All groups that a scan joins. -/
def scanJoins (X : Index) (contents : List Content) : List (ℕ × ℕ) :=
  contents.zipIdx.flatMap fun (content, _) => content.tokens.flatMap (tokenJoins X content)

/-- The groups have the components of all entries. -/
structure Ready (X : Index) (n : ℕ) (l : Ledger) : Prop where
  indexed : Indexed X
  noBackslash (i : ℕ) : 92 ∉ X.name i
  ids_eq {i : ℕ} (hi : i < X.names.length) : l.ids (X.parts i) = components (X.name i)
  part_lt {i : ℕ} {p : Part} (hp : p ∈ X.parts i) : p.group < n
  stem {i : ℕ} (hi : i < X.names.length) : X.stems i < n ∧ l.label (X.stems i) = stemId (X.name i)

/-- Only the ids of the groups count. -/
theorem Ready.congr {n n' : ℕ} {l' : Ledger} (h : Ready X n l) (hn : n' = n)
    (hl : l'.label = l.label) : Ready X n' l' where
  indexed := h.indexed
  noBackslash := h.noBackslash
  ids_eq hi := by
    rw [Ledger.ids, hl]
    exact h.ids_eq hi
  part_lt hp := hn ▸ h.part_lt hp
  stem hi := by
    rw [hl, hn]
    exact h.stem hi

theorem Ready.part_mem {n : ℕ} (h : Ready X n l) {i : ℕ} (hi : i < X.names.length) {p : Part}
    (hp : p ∈ X.parts i) : (l.label p.group, p.begin, p.stop) ∈ components (X.name i) := by
  rw [← h.ids_eq hi]
  exact List.mem_map_of_mem hp

/-! ## What a token spells -/

theorem not_mem_of_lowered {s : Bytes} (h : 47 ∉ lowered s) : 92 ∉ s := by
  intro hs
  apply h
  have := List.mem_map_of_mem (f := fun c => lower (slashed c)) hs
  exact this

theorem slash_not_mem_component {name id : Bytes} {r : ℕ × ℕ} (hname : 92 ∉ name)
    (hr : (id, r) ∈ components name) : 47 ∉ slice (lowered name) r.1 (r.2 - r.1) := by
  intro hmem
  obtain ⟨k, hk⟩ := List.mem_iff_getElem?.mp hmem
  rw [slice, List.getElem?_take] at hk
  split at hk
  · rw [List.getElem?_drop, lowered_slash_iff hname] at hk
    exact layout_noSlash (mem_layout_of_mem hr) (by omega) (by omega) hk
  · cases hk

theorem getElem?_slice (s : Bytes) (pos len k : ℕ) :
    (slice s pos len)[k]? = if k < len then s[pos + k]? else none := by
  rw [slice, List.getElem?_take]
  split
  · rw [List.getElem?_drop]
  · rfl

/-- The bytes of a token that stand for a component spell it. -/
theorem Target.spells {n i : ℕ} (hX : Ready X n l) (hB : B (.inr c) = content.bytes)
    (ht : t ∈ content.tokens)
    (hspelled : (Target.entry i begin stop).Spelled X (slice content.bytes t.offset t.length))
    {p : Part} (hp : p ∈ X.parts i) (hbegin : begin ≤ p.begin) (hstop : p.stop ≤ stop) :
    Spells B ⟨some c, 0, t.offset + (p.begin - begin), p.stop - p.begin⟩
      (textOf (l.label p.group)) := by
  obtain ⟨hi, -, -, hlength, hget⟩ := hspelled
  have hmem := hX.part_mem hi hp
  have hle := layout_le (mem_layout_of_mem hmem)
  have htoken := content.token_le ht
  rw [length_slice htoken] at hlength
  simp only at hle
  have hread : Slots.read B (Occurrence.slot
      ⟨some c, 0, t.offset + (p.begin - begin), p.stop - p.begin⟩) =
      slice content.bytes (t.offset + (p.begin - begin)) (p.stop - p.begin) := by
    rw [← hB]
    rfl
  -- the token agrees with the entry's name byte by byte, letter case apart
  have hlowered : lowered (slice content.bytes (t.offset + (p.begin - begin)) (p.stop - p.begin)) =
      slice (lowered (X.name i)) p.begin (p.stop - p.begin) := by
    apply List.ext_getElem?
    intro k
    rw [lowered_slice, getElem?_slice, getElem?_slice]
    split
    · next hk =>
      have hk' := hget (p.begin - begin + k) (by omega)
      rw [lowered_slice, getElem?_slice, if_pos (by omega)] at hk'
      rw [show t.offset + (p.begin - begin) + k = t.offset + (p.begin - begin + k) by omega, hk']
      congr 1
      omega
    · rfl
  have htext := textOf_component (hX.noBackslash i) hmem
  simp only at htext
  refine ⟨?_, ?_, ?_⟩
  · show t.offset + (p.begin - begin) + (p.stop - p.begin) ≤ (B (.inr c)).length
    rw [hB]
    omega
  · rw [hread, hlowered, htext]
  · rw [hread]
    apply not_mem_of_lowered
    rw [hlowered]
    exact slash_not_mem_component (hX.noBackslash i) hmem

theorem textOf_stemId {name : Bytes} (hname : 92 ∉ name) : textOf (stemId name) = stemText name :=
  textOf_stem hname

/-- A token spells the stem of every icon that it leads to. -/
theorem Target.spells_icon {n : ℕ} {entries : List ℕ} (hX : Ready X n l)
    (hB : B (.inr c) = content.bytes) (ht : t ∈ content.tokens)
    (hspelled : (Target.icons entries).Spelled X (slice content.bytes t.offset t.length)) {e : ℕ}
    (he : e ∈ entries) : Spells B ⟨some c, 0, t.offset, t.length⟩ (textOf (l.label (X.stems e))) := by
  obtain ⟨-, hslash, hentries⟩ := hspelled
  obtain ⟨hlt, htext⟩ := hentries e he
  have hread : Slots.read B (Occurrence.slot ⟨some c, 0, t.offset, t.length⟩) =
      slice content.bytes t.offset t.length := by
    rw [← hB]
    rfl
  refine ⟨?_, ?_, ?_⟩
  · show t.offset + t.length ≤ (B (.inr c)).length
    rw [hB]
    exact content.token_le ht
  · rw [hread, (hX.stem hlt).2, textOf_stemId (hX.noBackslash e), htext]
  · rw [hread]
    exact not_mem_of_lowered hslash

/-! ## One token -/

theorem Ledger.add_add (l : Ledger) (A A' : List (ℕ × Occurrence)) :
    (l.add A).add A' = l.add (A ++ A') := by
  simp [Ledger.add]

theorem Ledger.join_join (l : Ledger) (J J' : List (ℕ × ℕ)) :
    (l.join J).join J' = l.join (J ++ J') := by
  simp [Ledger.join]

theorem Ledger.add_join (l : Ledger) (A : List (ℕ × Occurrence)) (J : List (ℕ × ℕ)) :
    (l.add A).join J = (l.join J).add A := rfl

theorem Ledger.add_nil (l : Ledger) : l.add [] = l := by
  simp [Ledger.add]

theorem Ledger.join_nil (l : Ledger) : l.join [] = l := by
  simp [Ledger.join]

theorem Groups.Holds.link (h : G.Holds (Spells B) l) {parts : List Part}
    (hparts : ∀ p ∈ parts, p.group < G.groups.length ∧ (begin ≤ p.begin → p.stop ≤ stop →
      Spells B ⟨some c, 0, pos + (p.begin - begin), p.stop - p.begin⟩ (l.text p.group))) :
    (G.link parts c pos begin stop).Holds (Spells B) (l.add
        ((parts.filter fun p => begin ≤ p.begin ∧ p.stop ≤ stop).map fun p =>
          (p.group, ⟨some c, 0, pos + (p.begin - begin), p.stop - p.begin⟩))) ∧
      (G.link parts c pos begin stop).groups.length = G.groups.length := by
  induction parts generalizing G l with
  | nil =>
    rw [List.filter_nil, List.map_nil, Ledger.add_nil]
    exact ⟨h, rfl⟩
  | cons p parts ih =>
    unfold Groups.link
    rw [List.foldl_cons]
    split
    · next hout =>
      rw [List.filter_cons_of_neg (by simp; omega)]
      exact ih h fun q hq => hparts q (List.mem_cons_of_mem _ hq)
    · next hin =>
      obtain ⟨hlt, hspells⟩ := hparts p List.mem_cons_self
      have hadd := h.add hlt (hspells (by omega) (by omega))
      obtain ⟨hholds, hlength⟩ := ih hadd fun q hq => by
        rw [Groups.length_add]
        exact hparts q (List.mem_cons_of_mem _ hq)
      rw [Ledger.add_add, List.singleton_append] at hholds
      rw [List.filter_cons_of_pos (by simp; omega), List.map_cons]
      exact ⟨hholds, hlength.trans (Groups.length_add ..)⟩

/-- The loop that unites the stems of icons. -/
theorem Groups.Holds.uniteAll {R : Occurrence → Bytes → Prop} (h : G.Holds R l) {first : ℕ}
    (X : Index) (hfirst : first < G.groups.length) (entries : List ℕ)
    (hstems : ∀ e ∈ entries, X.stems e < G.groups.length ∧ l.text first = l.text (X.stems e)) :
    (entries.foldl (fun G e => G.unite first (X.stems e)) G).Holds R
        (l.join (entries.map fun e => (first, X.stems e))) ∧
      (entries.foldl (fun G e => G.unite first (X.stems e)) G).groups.length = G.groups.length := by
  induction entries generalizing G l with
  | nil =>
    rw [List.map_nil, Ledger.join_nil]
    exact ⟨h, rfl⟩
  | cons e entries ih =>
    obtain ⟨hlt, htext⟩ := hstems e List.mem_cons_self
    have hunite := h.unite hfirst hlt htext
    have hlength := h.length_unite first (X.stems e)
    obtain ⟨hholds, hlength'⟩ := ih hunite (by rwa [hlength]) fun e' he' => by
      rw [hlength]
      exact hstems e' (List.mem_cons_of_mem _ he')
    rw [Ledger.join_join, List.singleton_append] at hholds
    exact ⟨hholds, hlength'.trans hlength⟩

theorem Index.spelled_targetOf (hX : Indexed X) (ht : t ∈ content.tokens) {target : Target}
    (htarget : X.targetOf content t = some target) :
    target.Spelled X (slice content.bytes t.offset t.length) := by
  have hlength : (slice content.bytes t.offset t.length).length = t.length :=
    length_slice (content.token_le ht)
  refine hX.spelled (?_ : X.resolve (X.name content.file) _ _ t.attributeName = some target)
  rw [hlength]
  exact htarget

theorem headD_mem {entries : List ℕ} (h : entries ≠ []) : entries.headD 0 ∈ entries := by
  cases entries with
  | nil => exact absurd rfl h
  | cons e entries => exact List.mem_cons_self

/-- A token is added to the groups of what it spells. -/
theorem Groups.Holds.follow (h : G.Holds (Spells B) l) (hX : Ready X G.groups.length l)
    (hB : B (.inr c) = content.bytes) (ht : t ∈ content.tokens) {target : Target}
    (hspelled : target.Spelled X (slice content.bytes t.offset t.length)) :
    (G.follow X c t.offset t.length target).Holds (Spells B)
        ((l.join (target.joins X)).add (target.additions X c t.offset t.length)) ∧
      (G.follow X c t.offset t.length target).groups.length = G.groups.length := by
  cases target with
  | entry i begin stop =>
    rw [Target.joins, Ledger.join_nil]
    exact h.link fun p hp => ⟨hX.part_lt hp, Target.spells hX hB ht hspelled hp⟩
  | icons entries =>
    have hhead := headD_mem hspelled.1
    have hstem (e : ℕ) (he : e ∈ entries) : X.stems e < G.groups.length :=
      (hX.stem (hspelled.2.2 e he).1).1
    have htext (e : ℕ) (he : e ∈ entries) :
        l.text (X.stems e) = lowered (slice content.bytes t.offset t.length) := by
      obtain ⟨hlt, htext⟩ := hspelled.2.2 e he
      rw [Ledger.text, (hX.stem hlt).2, textOf_stemId (hX.noBackslash e), htext]
    obtain ⟨hunite, hlength⟩ := h.uniteAll X (hstem _ hhead) entries
      fun e he => ⟨hstem e he, (htext _ hhead).trans (htext e he).symm⟩
    have hadd := hunite.add (hlength ▸ hstem _ hhead)
      (Target.spells_icon (c := c) hX hB ht hspelled hhead)
    exact ⟨hadd, (Groups.length_add ..).trans hlength⟩

theorem Groups.Holds.token (h : G.Holds (Spells B) l) (hX : Ready X G.groups.length l)
    (hB : B (.inr c) = content.bytes) (ht : t ∈ content.tokens) :
    (G.token X c content t).Holds (Spells B)
        ((l.join (tokenJoins X content t)).add (tokenAdditions X c content t)) ∧
      (G.token X c content t).groups.length = G.groups.length := by
  rw [tokenAdditions, tokenJoins]
  cases htarget : X.targetOf content t with
  | none =>
    have htoken : G.token X c content t = G := by
      unfold Groups.token
      rw [show X.resolve _ _ _ _ = none from htarget]
    rw [htoken]
    rw [Option.map_none, Option.map_none, Option.getD_none, Option.getD_none, Ledger.join_nil,
      Ledger.add_nil]
    exact ⟨h, rfl⟩
  | some target =>
    have htoken : G.token X c content t = G.follow X c t.offset t.length target := by
      unfold Groups.token
      rw [show X.resolve _ _ _ _ = some target from htarget]
    rw [htoken]
    exact h.follow hX hB ht (Index.spelled_targetOf hX.indexed ht htarget)

/-! ## All tokens -/

theorem Groups.Holds.tokens (h : G.Holds (Spells B) l) (hX : Ready X G.groups.length l)
    (hB : B (.inr c) = content.bytes) (ts : List LsfString) (hts : ∀ t ∈ ts, t ∈ content.tokens) :
    (ts.foldl (fun G t => G.token X c content t) G).Holds (Spells B)
        ((l.join (ts.flatMap (tokenJoins X content))).add
          (ts.flatMap (tokenAdditions X c content))) ∧
      (ts.foldl (fun G t => G.token X c content t) G).groups.length = G.groups.length := by
  induction ts generalizing G l with
  | nil =>
    rw [List.flatMap_nil, List.flatMap_nil, Ledger.join_nil, Ledger.add_nil]
    exact ⟨h, rfl⟩
  | cons t ts ih =>
    obtain ⟨htoken, hlength⟩ := h.token hX hB (hts t List.mem_cons_self)
    obtain ⟨hholds, hlength'⟩ := ih htoken (hX.congr hlength rfl)
      fun t' ht' => hts t' (List.mem_cons_of_mem _ ht')
    rw [Ledger.add_join, Ledger.join_join, Ledger.add_add, ← List.flatMap_cons,
      ← List.flatMap_cons] at hholds
    exact ⟨hholds, hlength'.trans hlength⟩

theorem Groups.Holds.contents (h : G.Holds (Spells B) l) (hX : Ready X G.groups.length l)
    (contents : List (Content × ℕ)) (hB : ∀ e ∈ contents, B (.inr e.2) = e.1.bytes) :
    (contents.foldl (fun G (content, c) =>
        content.tokens.foldl (fun G t => G.token X c content t) G) G).Holds (Spells B)
        ((l.join (contents.flatMap fun (content, _) =>
          content.tokens.flatMap (tokenJoins X content))).add
          (contents.flatMap fun (content, c) =>
            content.tokens.flatMap (tokenAdditions X c content))) ∧
      (contents.foldl (fun G (content, c) =>
        content.tokens.foldl (fun G t => G.token X c content t) G) G).groups.length =
          G.groups.length := by
  induction contents generalizing G l with
  | nil =>
    rw [List.flatMap_nil, List.flatMap_nil, Ledger.join_nil, Ledger.add_nil]
    exact ⟨h, rfl⟩
  | cons e contents ih =>
    obtain ⟨htokens, hlength⟩ := h.tokens hX (hB e List.mem_cons_self) e.1.tokens
      fun t ht => ht
    obtain ⟨hholds, hlength'⟩ := ih htokens (hX.congr hlength rfl)
      fun e' he' => hB e' (List.mem_cons_of_mem _ he')
    rw [Ledger.add_join, Ledger.join_join, Ledger.add_add] at hholds
    exact ⟨hholds, hlength'.trans hlength⟩

end Pak
end Bg3le
