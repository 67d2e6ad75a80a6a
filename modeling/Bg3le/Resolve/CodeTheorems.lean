import Bg3le.Resolve.Code
import Mathlib.Data.List.Basic
import Mathlib.Data.UInt

/-!
# What is found is the only match

`scan` skips from one byte of the anchor's value to the next, and counts what a search of every
place would count, up to two. So what `resolveCode` finds is alone in its window, or in the whole
of `.text`; what it takes from the cache has only been matched again.
-/

namespace Bg3le
namespace Resolve

variable {image : Image} {pat : Pattern} {memory : ℕ → UInt8} {lo hi found p q code rec place : ℕ}

/-! ## What a place is -/

/-- The places in `[lo, hi)` at which the whole of the pattern is. -/
def places (image : Image) (pat : Pattern) (lo hi : ℕ) : List ℕ :=
  (List.range' lo (hi + 1 - (lo + pat.bytes.length))).filter fun p =>
    matchAt image.memory (image.loadBias + p) pat

/-- The pattern is at the place, wholly inside `.text`. -/
structure Image.Has (image : Image) (pat : Pattern) (place : ℕ) : Prop where
  starts : image.text ≤ place
  ends : place + pat.bytes.length ≤ image.text + image.size
  there : matchAt image.memory (image.loadBias + place) pat = true

/-- The place is within the window's size of the recorded one. -/
def Near (rec place : ℕ) : Prop := rec ≤ place + window ∧ place ≤ rec + window

/-- The pattern is nowhere else near the recorded place, nor in `.text` if the place is not near
it. -/
structure Alone (image : Image) (pat : Pattern) (rec place : ℕ) : Prop where
  near : ∀ p, p ≠ place → Near rec p → ¬ image.Has pat p
  far : ¬ Near rec place → ∀ p, p ≠ place → ¬ image.Has pat p

/-- `scan` counts the places, up to two. -/
def Counts (image : Image) (pat : Pattern) (lo hi : ℕ) : Prop :=
  ∀ found, (scan image pat lo hi found).1 = min 2 (places image pat lo hi).length

/-- What `resolveCode` owes for what it returns. -/
structure Resolves (image : Image) (pat : Pattern) (sig : Sig) (off : UInt64) : Prop where
  has : off ≠ 0 → image.Has pat (sig.place off)
  alone : off ≠ 0 → Alone image pat (sig.place sig.recorded) (sig.place off)
  counts : Counts image pat (windowLo image (sig.place sig.recorded))
    (windowHi image (sig.place sig.recorded))
  countsAll : Counts image pat image.text image.textEnd

/-- The image, the pattern and the place where it was recorded are in the lower half of the
address space, as what is loaded is. -/
structure Mapped (image : Image) (pat : Pattern) (rec : ℕ) : Prop where
  image : image.loadBias + image.text + image.size < 2 ^ 63
  pattern : pat.bytes.length < 2 ^ 62
  recorded : rec < 2 ^ 62

/-- The cache's entry is taken. -/
def Taken (image : Image) (pat : Pattern) (cache : Cache) (sig : Sig) (off : UInt64) : Prop :=
  cache sig.name = some off ∧ there image pat (sig.place off) = true

/-- When what is returned is the only match. -/
structure ResolvesWhen (image : Image) (pat : Pattern) (cache : Cache) (sig : Sig) : Prop where
  /-- A cached place does not wrap around the address space, and the pattern is there alone. -/
  cached : ∀ off, Taken image pat cache sig off → off ≠ 0 →
    sig.place off + pat.bytes.length < 2 ^ 64 ∧
      Alone image pat (sig.place sig.recorded) (sig.place off)
  /-- Without it, where the window has one match, none begins in the window and ends past it. -/
  past : (∀ off, ¬ Taken image pat cache sig off) →
    ∀ q, places image pat (windowLo image (sig.place sig.recorded))
        (windowHi image (sig.place sig.recorded)) = [q] →
      q.toUInt64 + sig.start.toUInt64 ≠ 0 →
      ∀ p, Near (sig.place sig.recorded) p →
        sig.place sig.recorded + window < p + pat.bytes.length → ¬ image.Has pat p

/-! ## Searching -/

theorem wrap_of_lt {n : ℕ} (h : n < 2 ^ 64) : wrap n = n := Nat.mod_eq_of_lt h

theorem mem_places : p ∈ places image pat lo hi ↔ lo ≤ p ∧ p + pat.bytes.length ≤ hi ∧
    matchAt image.memory (image.loadBias + p) pat = true := by
  simp only [places, List.mem_filter, List.mem_range'_1]
  constructor
  · intro h
    exact ⟨by omega, by omega, h.2⟩
  · intro h
    exact ⟨⟨by omega, by omega⟩, h.2.2⟩

/-- Where the pattern is, its first fixed byte is at the anchor. -/
theorem memory_anchor (h : matchAt memory code pat = true) :
    memory (code + pat.anchor) = pat.first := by
  have hjoin : pat.bytes[pat.anchor]?.join = some pat.first := by
    simp only [Pattern.first, Option.some_get]
  have hlt : pat.anchor < pat.bytes.length := by
    by_contra hge
    rw [List.getElem?_eq_none (by omega)] at hjoin
    exact absurd hjoin (by simp)
  simp only [matchAt, List.all_eq_true, List.mem_range] at h
  have hat := h pat.anchor hlt
  simp only [hjoin, beq_iff_eq] at hat
  exact hat

theorem memchr_eq_none {byte : UInt8} {n : ℕ} (h : memchr memory byte p n = none) :
    ∀ i, p ≤ i → i < p + n → memory i ≠ byte := by
  induction n generalizing p with
  | zero => intro i hle hlt; omega
  | succ n ih =>
    simp only [memchr] at h
    by_cases hp : memory p = byte
    · simp only [hp, if_true] at h
      exact absurd h (Option.some_ne_none _)
    · simp only [hp, if_false] at h
      intro i hle hlt
      by_cases hi : i = p
      · rw [hi]
        exact hp
      · exact ih h i (by omega) (by omega)

theorem memchr_eq_some {byte : UInt8} {n : ℕ} (h : memchr memory byte p n = some q) :
    p ≤ q ∧ q < p + n ∧ ∀ i, p ≤ i → i < q → memory i ≠ byte := by
  induction n generalizing p with
  | zero => exact absurd h.symm (Option.some_ne_none _)
  | succ n ih =>
    simp only [memchr] at h
    by_cases hp : memory p = byte
    · simp only [hp, if_true, Option.some.injEq] at h
      exact ⟨by omega, by omega, fun i hle hlt => by omega⟩
    · simp only [hp, if_false] at h
      have hrest := ih h
      refine ⟨by omega, by omega, fun i hle hlt => ?_⟩
      by_cases hi : i = p
      · rw [hi]
        exact hp
      · exact hrest.2.2 i (by omega) hlt

theorem places_eq_nil (h : hi < lo + pat.bytes.length) : places image pat lo hi = [] := by
  have hzero : hi + 1 - (lo + pat.bytes.length) = 0 := by omega
  simp only [places, hzero, List.range'_zero, List.filter_nil]

/-- The first place is one of them, or not. -/
theorem places_succ (h : lo + pat.bytes.length ≤ hi) :
    places image pat lo hi =
      if matchAt image.memory (image.loadBias + lo) pat = true
        then lo :: places image pat (lo + 1) hi
        else places image pat (lo + 1) hi := by
  have hlength : hi + 1 - (lo + pat.bytes.length) =
      hi + 1 - (lo + 1 + pat.bytes.length) + 1 := by omega
  simp only [places, hlength, List.range'_succ, List.filter_cons]

/-- Places at which the pattern is not are skipped. -/
theorem places_skip (hle : lo ≤ q)
    (hnone : ∀ p, lo ≤ p → p < q → matchAt image.memory (image.loadBias + p) pat ≠ true) :
    places image pat lo hi = places image pat q hi := by
  induction q, hle using Nat.le_induction with
  | base => rfl
  | succ q hle ih =>
    have hq := hnone q hle (by omega)
    rw [ih fun p hp hlt => hnone p hp (by omega)]
    by_cases hfits : q + pat.bytes.length ≤ hi
    · rw [places_succ hfits, if_neg hq]
    · rw [places_eq_nil (by omega), places_eq_nil (by omega)]

/-- The loop goes on counting from where it is. -/
theorem scanFrom_eq {turns hits : ℕ} (hlen : pat.bytes.length ≤ hi) (hhits : hits ≤ 1)
    (hturns : image.loadBias + hi - pat.bytes.length + pat.anchor <
      image.loadBias + lo + pat.anchor + turns) :
    scanFrom image pat (image.loadBias + hi - pat.bytes.length + pat.anchor) turns
        (image.loadBias + lo + pat.anchor) (hits, found) =
      (min 2 (hits + (places image pat lo hi).length),
        if hits = 0 then (places image pat lo hi).head?.getD found else found) := by
  induction turns generalizing lo hits found with
  | zero =>
    rw [scanFrom, places_eq_nil (by omega)]
    have hmin : min 2 (hits + 0) = hits := by omega
    simp only [List.length_nil, hmin, List.head?_nil, Option.getD_none, ite_self]
  | succ turns ih =>
    have hmin : min 2 (hits + 0) = hits := by omega
    rw [scanFrom]
    by_cases hlast : image.loadBias + lo + pat.anchor ≤
        image.loadBias + hi - pat.bytes.length + pat.anchor
    · rw [if_pos hlast]
      cases hchr : memchr image.memory pat.first (image.loadBias + lo + pat.anchor)
          (image.loadBias + hi - pat.bytes.length + pat.anchor -
            (image.loadBias + lo + pat.anchor) + 1) with
      | none =>
        -- no byte of the anchor's value is left, so the pattern is at no place that is left
        have hnil : places image pat lo hi = [] := by
          rw [List.eq_nil_iff_forall_not_mem]
          intro p hp
          have hp := mem_places.mp hp
          have hfirst := memory_anchor hp.2.2
          exact memchr_eq_none hchr (image.loadBias + p + pat.anchor) (by omega) (by omega) hfirst
        simp only [hnil, List.length_nil, hmin, List.head?_nil, Option.getD_none, ite_self]
      | some p =>
        have hspec := memchr_eq_some hchr
        have hat : p - pat.anchor = image.loadBias + (p - pat.anchor - image.loadBias) := by omega
        have hp : p + 1 = image.loadBias + (p - pat.anchor - image.loadBias + 1) + pat.anchor := by
          omega
        generalize hq : p - pat.anchor - image.loadBias = q at hat hp
        have hskip : places image pat lo hi = places image pat q hi := by
          refine places_skip (by omega) fun i hle hlt hmatch => ?_
          exact hspec.2.2 _ (by omega) (by omega) (memory_anchor hmatch)
        rw [hskip, places_succ (by omega)]
        simp only [hat, hp]
        by_cases hmatch : matchAt image.memory (image.loadBias + q) pat = true
        · simp only [hmatch, if_true, List.length_cons, List.head?_cons, Option.getD_some]
          by_cases hone : hits = 0
          · simp only [hone, zero_add, lt_irrefl, if_false, if_true]
            rw [ih (by omega) (by omega)]
            simp only [one_ne_zero, if_false, Prod.mk.injEq]
            omega
          · have hsecond : 1 < hits + 1 := by omega
            simp only [hsecond, hone, if_true, if_false, Prod.mk.injEq, and_true]
            omega
        · simp only [hmatch]
          exact ih hhits (by omega)
    · rw [if_neg hlast, places_eq_nil (by omega)]
      simp only [List.length_nil, hmin, List.head?_nil, Option.getD_none, ite_self]

/-- `scan` counts every place, up to two, and finds the first. -/
theorem scan_eq (hwrap : lo + pat.bytes.length < 2 ^ 64) : scan image pat lo hi found =
    (min 2 (places image pat lo hi).length, (places image pat lo hi).head?.getD found) := by
  simp only [scan, wrap_of_lt hwrap]
  by_cases hfits : hi < lo + pat.bytes.length
  · rw [if_pos hfits, places_eq_nil hfits]
    rfl
  · rw [if_neg hfits, scanFrom_eq (by omega) (by omega) (by omega)]
    simp only [zero_add, if_true]

/-! ## The window -/

theorem Mapped.textEnd (h : Mapped image pat rec) : image.textEnd = image.text + image.size :=
  wrap_of_lt (by have := h.image; omega)

theorem mem_places_text (h : Mapped image pat rec) :
    p ∈ places image pat image.text image.textEnd ↔ image.Has pat p := by
  rw [mem_places, h.textEnd]
  exact ⟨fun hp => ⟨hp.1, hp.2.1, hp.2.2⟩, fun hp => ⟨hp.starts, hp.ends, hp.there⟩⟩

/-- The window's places are the near ones that do not end past it. -/
theorem mem_places_window (h : Mapped image pat rec) :
    p ∈ places image pat (windowLo image rec) (windowHi image rec) ↔
      image.Has pat p ∧ Near rec p ∧ p + pat.bytes.length ≤ rec + window := by
  have himage := h.image
  have hrec := h.recorded
  have hlo : wrap (image.text + window) = image.text + window :=
    wrap_of_lt (by simp only [window]; omega)
  have hhi : wrap (rec + window) = rec + window := wrap_of_lt (by simp only [window]; omega)
  simp only [mem_places, windowLo, windowHi, hlo, hhi, h.textEnd, Near]
  constructor
  · intro hp
    refine ⟨⟨?_, ?_, hp.2.2⟩, ?_, ?_⟩
    all_goals split at hp <;> split at hp <;> omega
  · intro hp
    have hstarts := hp.1.starts
    have hends := hp.1.ends
    refine ⟨?_, ?_, hp.1.there⟩
    all_goals split <;> omega

theorem Mapped.windowLo_lt (h : Mapped image pat rec) :
    windowLo image rec + pat.bytes.length < 2 ^ 64 := by
  have himage := h.image
  have hpattern := h.pattern
  have hrec := h.recorded
  simp only [windowLo]
  split <;> omega

theorem Mapped.text_lt (h : Mapped image pat rec) :
    image.text + pat.bytes.length < 2 ^ 64 := by
  have himage := h.image
  have hpattern := h.pattern
  omega

/-- Where one place is found: alone in the window, or alone in `.text` with none in the window. -/
theorem search_eq_one_iff (h : Mapped image pat rec) : search image pat rec = (1, q) ↔
    places image pat (windowLo image rec) (windowHi image rec) = [q] ∨
      places image pat (windowLo image rec) (windowHi image rec) = [] ∧
        there image pat rec = false ∧ places image pat image.text image.textEnd = [q] := by
  have hone (l : List ℕ) : (min 2 l.length, l.head?.getD 0) = (1, q) ↔ l = [q] := by
    cases l with
    | nil => simp
    | cons p l => cases l <;> simp
  simp only [search, scan_eq h.windowLo_lt, scan_eq h.text_lt]
  cases hplaces : places image pat (windowLo image rec) (windowHi image rec) with
  | nil =>
    cases hthere : there image pat rec
    · simpa using hone _
    · simp
  | cons p l =>
    rw [← hplaces]
    have hcounted :
        min 2 (places image pat (windowLo image rec) (windowHi image rec)).length ≠ 0 := by
      rw [hplaces, List.length_cons]
      omega
    have hne : places image pat (windowLo image rec) (windowHi image rec) ≠ [] := by
      rw [hplaces]
      exact List.cons_ne_nil p l
    simp only [hcounted, if_false, ite_self, hne, false_and, or_false]
    rw [← hone, hplaces]

/-! ## Resolving -/

variable {sig : Sig} {lines : List (Bytes × UInt64)} {cache : Option Cache} {off : UInt64}

theorem place_add (h : q < 2 ^ 64) : sig.place (q.toUInt64 + sig.start.toUInt64) = q := by
  have hcancel : q.toUInt64 + sig.start.toUInt64 - sig.start.toUInt64 = q.toUInt64 :=
    add_sub_cancel_right _ _
  rw [Sig.place, hcancel]
  exact Nat.mod_eq_of_lt h

/-- A place that does not wrap has what `there` says. -/
theorem has_of_there (h : Mapped image pat rec) (hplace : place + pat.bytes.length < 2 ^ 64)
    (hthere : there image pat place = true) : image.Has pat place := by
  have himage := h.image
  simp only [there, fits, wrap_of_lt hplace, h.textEnd, Bool.and_eq_true, decide_eq_true_eq]
    at hthere
  have hcode : wrap (image.loadBias + place) = image.loadBias + place := wrap_of_lt (by omega)
  rw [hcode] at hthere
  exact ⟨hthere.1.1, hthere.1.2, hthere.2⟩

theorem taken_iff : Taken image pat (loadCache lines cache) sig off ↔
    ((loadCache lines cache) sig.name).filter (fun off => there image pat (sig.place off)) =
      some off := by
  rw [Option.filter_eq_some_iff]
  rfl

theorem resolveCode_of_taken (hparse : parse sig.pattern = some pat)
    (htaken : Taken image pat (loadCache lines cache) sig off) :
    (resolveCode (some image) lines cache sig).1 = off := by
  simp only [resolveCode, hparse, taken_iff.mp htaken]

theorem resolveCode_of_not_taken (hparse : parse sig.pattern = some pat)
    (hnone : ∀ off, ¬ Taken image pat (loadCache lines cache) sig off) :
    (resolveCode (some image) lines cache sig).1 =
      if (search image pat (sig.place sig.recorded)).1 ≠ 1 then 0
      else (search image pat (sig.place sig.recorded)).2.toUInt64 + sig.start.toUInt64 := by
  have hfilter : ((loadCache lines cache) sig.name).filter
      (fun off => there image pat (sig.place off)) = none := by
    rw [Option.eq_none_iff_forall_ne_some]
    intro off hoff
    exact hnone off (taken_iff.mpr hoff)
  simp only [resolveCode, hparse, hfilter]
  split <;> rfl

/-- Found by searching, a place is alone unless another begins in the window and ends past it. -/
theorem alone_of_search (h : Mapped image pat rec) (hsearch : search image pat rec = (1, q))
    (hpast : places image pat (windowLo image rec) (windowHi image rec) = [q] →
      ∀ p, Near rec p → rec + window < p + pat.bytes.length → ¬ image.Has pat p) :
    image.Has pat q ∧ Alone image pat rec q := by
  cases (search_eq_one_iff h).mp hsearch with
  | inl hwindow =>
    have hq := (mem_places_window h).mp (hwindow ▸ List.mem_singleton_self q)
    refine ⟨hq.1, fun p hne hnear hp => ?_, fun hfar => absurd hq.2.1 hfar⟩
    by_cases hends : p + pat.bytes.length ≤ rec + window
    · have hmem := (mem_places_window h).mpr ⟨hp, hnear, hends⟩
      rw [hwindow, List.mem_singleton] at hmem
      exact hne hmem
    · exact hpast hwindow p hnear (by omega) hp
  | inr htext =>
    have hall (p : ℕ) (hp : image.Has pat p) : p = q := by
      have hmem := (mem_places_text h).mpr hp
      rw [htext.2.2, List.mem_singleton] at hmem
      exact hmem
    have hq := (mem_places_text h).mp (htext.2.2 ▸ List.mem_singleton_self q)
    exact ⟨hq, fun p hne _ hp => hne (hall p hp), fun _ p hne hp => hne (hall p hp)⟩

/-- What is returned without the cache is what the search finds. -/
theorem resolveCode_searched (hparse : parse sig.pattern = some pat)
    (hnone : ∀ off, ¬ Taken image pat (loadCache lines cache) sig off)
    (hne : (resolveCode (some image) lines cache sig).1 ≠ 0) :
    ∃ q, search image pat (sig.place sig.recorded) = (1, q) ∧
      (resolveCode (some image) lines cache sig).1 = q.toUInt64 + sig.start.toUInt64 := by
  rw [resolveCode_of_not_taken hparse hnone] at hne ⊢
  by_cases hhits : (search image pat (sig.place sig.recorded)).1 = 1
  · refine ⟨(search image pat (sig.place sig.recorded)).2, Prod.ext hhits rfl, ?_⟩
    rw [if_neg (not_not_intro hhits)]
  · rw [if_pos hhits] at hne
    exact absurd rfl hne

theorem counts_of_mapped (h : Mapped image pat rec) :
    Counts image pat (windowLo image rec) (windowHi image rec) ∧
      Counts image pat image.text image.textEnd :=
  ⟨fun found => by rw [scan_eq h.windowLo_lt], fun found => by rw [scan_eq h.text_lt]⟩

theorem resolves_iff_of_taken (hparse : parse sig.pattern = some pat)
    (hmapped : Mapped image pat (sig.place sig.recorded))
    (htaken : Taken image pat (loadCache lines cache) sig off) :
    Resolves image pat sig (resolveCode (some image) lines cache sig).1 ↔
      ResolvesWhen image pat (loadCache lines cache) sig := by
  have himage := hmapped.image
  have hcounts := counts_of_mapped hmapped
  rw [resolveCode_of_taken hparse htaken]
  constructor
  · intro h
    refine ⟨fun off' htaken' hne => ?_, fun hnone => absurd htaken (hnone off)⟩
    have hsame : off' = off := Option.some.inj (htaken'.1.symm.trans htaken.1)
    rw [hsame] at hne ⊢
    have hends := (h.has hne).ends
    exact ⟨by omega, h.alone hne⟩
  · intro h
    exact ⟨fun hne => has_of_there hmapped (h.cached off htaken hne).1 htaken.2,
      fun hne => (h.cached off htaken hne).2, hcounts.1, hcounts.2⟩

theorem resolves_iff_of_not_taken (hparse : parse sig.pattern = some pat)
    (hmapped : Mapped image pat (sig.place sig.recorded))
    (hnone : ∀ off, ¬ Taken image pat (loadCache lines cache) sig off) :
    Resolves image pat sig (resolveCode (some image) lines cache sig).1 ↔
      ResolvesWhen image pat (loadCache lines cache) sig := by
  have himage := hmapped.image
  have hcounts := counts_of_mapped hmapped
  constructor
  · intro h
    refine ⟨fun off hoff => absurd hoff (hnone off), fun _ q hq hne p hnear hends hp => ?_⟩
    have hwindow := (mem_places_window hmapped).mp (hq ▸ List.mem_singleton_self q)
    have hqends := hwindow.1.ends
    have hresult : (resolveCode (some image) lines cache sig).1 =
        q.toUInt64 + sig.start.toUInt64 := by
      rw [resolveCode_of_not_taken hparse hnone, (search_eq_one_iff hmapped).mpr (.inl hq)]
      exact if_neg (not_not_intro rfl)
    have halone := h.alone
    rw [hresult, place_add (by omega)] at halone
    exact (halone hne).near p (by omega) hnear hp
  · intro h
    have hfound (hne : (resolveCode (some image) lines cache sig).1 ≠ 0) :
        image.Has pat (sig.place (resolveCode (some image) lines cache sig).1) ∧
          Alone image pat (sig.place sig.recorded)
            (sig.place (resolveCode (some image) lines cache sig).1) := by
      obtain ⟨q, hsearch, hresult⟩ := resolveCode_searched hparse hnone hne
      rw [hresult] at hne ⊢
      have halone := alone_of_search hmapped hsearch fun hq => h.past hnone q hq hne
      have hends := halone.1.ends
      rw [place_add (by omega)]
      exact halone
    exact ⟨fun hne => (hfound hne).1, fun hne => (hfound hne).2, hcounts.1, hcounts.2⟩

/-- What is returned is the only match just if what is taken from the cache is, and where nothing
is taken from it, no match begins in the window and ends past it. -/
theorem resolveCode_resolves_iff (hparse : parse sig.pattern = some pat)
    (hmapped : Mapped image pat (sig.place sig.recorded)) :
    Resolves image pat sig (resolveCode (some image) lines cache sig).1 ↔
      ResolvesWhen image pat (loadCache lines cache) sig := by
  by_cases htaken : ∃ off, Taken image pat (loadCache lines cache) sig off
  · obtain ⟨off, htaken⟩ := htaken
    exact resolves_iff_of_taken hparse hmapped htaken
  · exact resolves_iff_of_not_taken hparse hmapped fun off hoff => htaken ⟨off, hoff⟩

/-- A text that is the same byte throughout, with the pattern of that byte. -/
def cavePattern : Pattern := ⟨[some 0xcc], 0, by decide⟩

def cave : Image := ⟨fun _ => 0xcc, 0x400000, 0x1000, 16⟩

def caveSig : Sig := ⟨bytes "Cave", 0x1004, bytes "cc", 0⟩

theorem parse_caveSig : parse caveSig.pattern = some cavePattern := by decide +kernel

theorem mapped_cave : Mapped cave cavePattern (caveSig.place caveSig.recorded) :=
  ⟨by decide, by decide, by decide⟩

theorem resolveCode_resolves_iff_cave :
    Resolves cave cavePattern caveSig (resolveCode (some cave) [] none caveSig).1 ↔
      ResolvesWhen cave cavePattern (loadCache [] none) caveSig :=
  resolveCode_resolves_iff parse_caveSig mapped_cave

/-- A cached place is taken though the pattern is at the place beside it as well. -/
theorem cached_cave_not_alone :
    parse caveSig.pattern = some cavePattern ∧
      Mapped cave cavePattern (caveSig.place caveSig.recorded) ∧
      ¬ Resolves cave cavePattern caveSig
        (resolveCode (some cave) [(bytes "Cave", 0x1004)] none caveSig).1 := by
  refine ⟨parse_caveSig, mapped_cave, fun h => ?_⟩
  have hresult : (resolveCode (some cave) [(bytes "Cave", 0x1004)] none caveSig).1 = 0x1004 := by
    decide +kernel
  rw [hresult] at h
  have hnear : Near (caveSig.place caveSig.recorded) 0x1005 := ⟨by decide, by decide⟩
  exact (h.alone (by decide)).near 0x1005 (by decide) hnear ⟨by decide, by decide, by decide⟩

end Resolve
end Bg3le
