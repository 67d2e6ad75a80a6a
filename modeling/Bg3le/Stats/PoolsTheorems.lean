import Bg3le.Stats.Pools

namespace Bg3le
namespace StatsPools

variable {α κ : Type} {k : Kind α κ} {p p' : Pool α κ} {cells : ℕ → α}
  {slots : κ → Option ℤ} {v w : κ} {s s' : State} {r raw : ℤ} {first n i j slot : ℕ} {alloc : Alloc}

/-- A slot below `2 ^ 31` keeps its sign. -/
theorem toInt_of_lt (h : slot < 2 ^ 31) : toInt slot = slot := if_pos h

/-- A slot that is positive as an `int32_t` is below `2 ^ 31`. -/
theorem eq_toNat_of_toInt (h : slot < 2 ^ 32) (hpos : 1 ≤ toInt slot) : toInt slot = slot := by
  unfold toInt at hpos ⊢
  split
  · rfl
  · next hlarge =>
    rw [if_neg hlarge] at hpos
    omega

/-! ## The index -/

section Index

variable [DecidableEq κ]

/-- `emplace` leaves an entry that is there. -/
theorem emplace_of_some (h : slots v = some r) (w : κ) (r' : ℤ) : emplace slots w r' v = some r := by
  unfold emplace
  split
  · exact h
  · next hnone =>
    rw [Function.update_of_ne, h]
    intro heq
    rw [← heq, h] at hnone
    exact hnone rfl

theorem emplace_self (slots : κ → Option ℤ) (v : κ) (r : ℤ) : (emplace slots v r v).isSome := by
  unfold emplace
  split
  · next hsome => exact hsome
  · rw [Function.update_self]
    rfl

/-- A new entry is of the value that was put in. -/
theorem emplace_new (h : slots v = none) : emplace slots w r v = none ∨ w = v := by
  by_cases heq : w = v
  · exact Or.inr heq
  · left
    unfold emplace
    split
    · exact h
    · rw [Function.update_of_ne (Ne.symm heq), h]

theorem emplace_none (h : slots v = none) (r : ℤ) : emplace slots v r v = some r := by
  unfold emplace
  rw [h, if_neg nofun, Function.update_self]

/-- The values of `n` cells were entered, each with the first slot that has it. -/
structure Indexed (k : Kind α κ) (cells : ℕ → α) (first n : ℕ) (slots slots' : κ → Option ℤ) :
    Prop where
  stays : ∀ v r, slots v = some r → slots' v = some r
  entered : ∀ v r, slots v = none → slots' v = some r →
    ∃ i, first ≤ i ∧ i < first + n ∧ r = toInt i ∧ k.key (cells i) = some v ∧
      ∀ j, first ≤ j → j < i → k.key (cells j) ≠ some v
  complete : ∀ i v, first ≤ i → i < first + n → k.key (cells i) = some v → (slots' v).isSome

/-- The loop over the cells indexes each value at its first slot. -/
theorem indexCells_indexed (k : Kind α κ) (cells : ℕ → α) (slots : κ → Option ℤ) (first n : ℕ) :
    Indexed k cells first n slots (indexCells k cells slots first n) := by
  induction n with
  | zero =>
    refine ⟨fun _ _ => id, ?_, ?_⟩
    · intro v r hnone hsome
      exact absurd (hnone.symm.trans hsome) nofun
    · intro i v hfirst hlast _
      omega
  | succ n ih =>
    have hslots (i : ℕ) (v : κ) (hfirst : first ≤ i) (hlast : i < first + n)
        (hkey : k.key (cells i) = some v) : ∃ r, indexCells k cells slots first n v = some r :=
      Option.isSome_iff_exists.mp (ih.complete i v hfirst hlast hkey)
    unfold indexCells
    dsimp only
    split
    · next last hkey =>
      refine ⟨?_, ?_, ?_⟩
      · exact fun v r hsome => emplace_of_some (ih.stays v r hsome) last _
      · intro v r hnone hsome
        cases hold : indexCells k cells slots first n v with
        | some r' =>
          rw [emplace_of_some hold] at hsome
          obtain ⟨i, hfirst, hlast, hr, hrest⟩ := ih.entered v r' hnone hold
          exact ⟨i, hfirst, by omega, by rw [← hr, Option.some.inj hsome], hrest⟩
        | none =>
          -- the value is that of the last cell, and of none before it
          rcases emplace_new (w := last) (r := toInt (first + n)) hold with hnew | heq
          · exact absurd (hnew.symm.trans hsome) nofun
          · rw [heq, emplace_none hold] at hsome
            refine ⟨first + n, by omega, by omega, (Option.some.inj hsome).symm, ?_, ?_⟩
            · rw [hkey, heq]
            · intro j hfirst hbefore hholds
              obtain ⟨r', hr'⟩ := hslots j v hfirst hbefore hholds
              exact absurd (hold.symm.trans hr') nofun
      · intro i v hfirst hlast hholds
        by_cases heq : i = first + n
        · rw [heq, hkey] at hholds
          rw [Option.some.inj hholds]
          exact emplace_self _ _ _
        · obtain ⟨r', hr'⟩ := hslots i v hfirst (by omega) hholds
          rw [emplace_of_some hr']
          rfl
    · next hkey =>
      refine ⟨ih.stays, ?_, ?_⟩
      · intro v r hnone hsome
        obtain ⟨i, hfirst, hlast, hrest⟩ := ih.entered v r hnone hsome
        exact ⟨i, hfirst, by omega, hrest⟩
      · intro i v hfirst hlast hholds
        have hne : i ≠ first + n := by
          intro heq
          rw [heq, hkey] at hholds
          exact absurd hholds nofun
        exact ih.complete i v hfirst (by omega) hholds

end Index

/-! ## The memory of a pool -/

/-- The header is in order, and the kept buffer has the slots of the kept size. -/
structure Pool.Shape (p : Pool α κ) : Prop where
  used_pos : 1 ≤ p.header.used
  used_le : p.header.used ≤ p.header.capacity
  capacity_lt : p.header.capacity < 2 ^ 32
  size_le : p.ref.size ≤ p.header.used
  same : ∀ i < p.ref.size, p.kept i = p.live i
  header_lt : p.header.buffer < p.buffers
  ref_lt : p.ref.buffer < p.buffers

/-- The tables beside the array do not matter to its shape. -/
theorem Pool.Shape.congr (h : p.Shape) (hmemory : p'.memory = p.memory)
    (hbuffers : p'.buffers = p.buffers) (hheader : p'.header = p.header) (href : p'.ref = p.ref) :
    p'.Shape := by
  obtain ⟨memory, buffers, header, ref, _, _, _, _⟩ := p'
  obtain ⟨rfl, rfl, rfl, rfl⟩ : _ ∧ _ ∧ _ ∧ _ := ⟨hmemory, hbuffers, hheader, href⟩
  exact ⟨h.used_pos, h.used_le, h.capacity_lt, h.size_le, h.same, h.header_lt, h.ref_lt⟩

/-- Nothing of the engine's slots changes. -/
structure Pool.Keeps (p p' : Pool α κ) : Prop where
  used_le : p.header.used ≤ p'.header.used
  size_le : p.ref.size ≤ p'.ref.size
  live_eq : ∀ i < p.header.used, p'.live i = p.live i

theorem Pool.Keeps.refl (p : Pool α κ) : p.Keeps p := ⟨le_rfl, le_rfl, fun _ _ => rfl⟩

/-- Pools that keep their values one after the other do so together. -/
theorem Pool.Keeps.trans {p'' : Pool α κ} (h : p.Keeps p') (h' : p'.Keeps p'') : p.Keeps p'' where
  used_le := h.used_le.trans h'.used_le
  size_le := h.size_le.trans h'.size_le
  live_eq i hi := (h'.live_eq i (hi.trans_le h.used_le)).trans (h.live_eq i hi)

/-- A slot has the value. -/
def Pool.At (k : Kind α κ) (p : Pool α κ) (v : κ) (i : ℕ) : Prop :=
  1 ≤ i ∧ i < p.header.used ∧ k.key (p.live i) = some v

/-- A value stays at its slot. -/
theorem Pool.At.keeps (h : p.At k v i) (hkeeps : p.Keeps p') : p'.At k v i := by
  obtain ⟨hpos, hlt, hkey⟩ := h
  refine ⟨hpos, hlt.trans_le hkeeps.used_le, ?_⟩
  rw [hkeeps.live_eq i hlt]
  exact hkey

/-- A value at an old slot was there before. -/
theorem Pool.At.of_keeps (h : p'.At k v i) (hkeeps : p.Keeps p') (hlt : i < p.header.used) :
    p.At k v i := by
  refine ⟨h.1, hlt, ?_⟩
  rw [← hkeeps.live_eq i hlt]
  exact h.2.2

/-- The array was moved or has more slots, and the tables are as they were. -/
structure Pool.Extends (p p' : Pool α κ) : Prop extends p.Keeps p' where
  shape : p'.Shape
  size_eq : p'.ref.size = p.ref.size
  slots_eq : p'.slots = p.slots
  indexed_eq : p'.indexed = p.indexed
  known_eq : p'.known = p.known

theorem Pool.Extends.refl (h : p.Shape) : p.Extends p := ⟨.refl p, h, rfl, rfl, rfl, rfl⟩

/-- A slot that is taken is the next one, of the old array or of a copy of it. -/
theorem poolSlot_extends (h : p.Shape) (hslot : p.poolSlot k alloc = some (p', slot))
    (hgrown : p.header.capacity ≤ p.header.used →
      p.header.capacity + p.header.capacity / 2 + 16 < 2 ^ 32) :
    slot = p.header.used ∧ p.Extends p' ∧ p'.header.used = p.header.used ∧
      p'.header.used < p'.header.capacity ∧
      (p.header.buffer = p.ref.buffer ∨ p.header.capacity ≤ p.header.used →
        p'.header.buffer = p'.ref.buffer) := by
  have hle := h.used_le
  unfold Pool.poolSlot at hslot
  dsimp only at hslot
  by_cases hroom : p.header.used < p.header.capacity
  · rw [if_pos hroom] at hslot
    obtain ⟨rfl, rfl⟩ := Prod.mk.inj (Option.some.inj hslot)
    exact ⟨rfl, .refl h, rfl, hroom, fun hbuffer => hbuffer.resolve_right (by omega)⟩
  · rw [if_neg hroom] at hslot
    have hgrows := hgrown (by omega)
    rw [Option.ite_none_left_eq_some, Option.ite_none_left_eq_some, Nat.mod_eq_of_lt hgrows] at hslot
    obtain ⟨-, -, hsome⟩ := hslot
    obtain ⟨rfl, rfl⟩ := Prod.mk.inj (Option.some.inj hsome)
    have hcells (i : ℕ) (hi : i < p.header.used) :
        Function.update p.memory p.buffers
          (fun i => if i < p.header.used then p.live i else k.zero) p.buffers i = p.live i := by
      rw [Function.update_self, if_pos hi]
    refine ⟨rfl, ⟨⟨le_rfl, le_rfl, hcells⟩,
      ⟨h.used_pos, ?_, hgrows, h.size_le, fun _ _ => rfl, ?_, ?_⟩, rfl, rfl, rfl, rfl⟩, rfl, ?_,
      fun _ => rfl⟩
    · show p.header.used ≤ p.header.capacity + p.header.capacity / 2 + 16
      omega
    · exact Nat.lt_succ_self _
    · exact Nat.lt_succ_self _
    · show p.header.used < p.header.capacity + p.header.capacity / 2 + 16
      omega

section Intern

variable [DecidableEq κ]

/-- The pool after a value was appended. -/
structure Pool.Appended (k : Kind α κ) (p p' : Pool α κ) (v : κ) : Prop where
  shape : p'.Shape
  used_eq : p'.header.used = p.header.used + 1
  size_eq : p'.ref.size = p.header.used + 1
  live_eq : ∀ i < p.header.used, p'.live i = p.live i
  key_eq : k.key (p'.live p.header.used) = some v
  slots_eq : p'.slots = emplace p.slots v (toInt p.header.used)
  indexed_eq : p'.indexed = p.indexed
  known_eq : p'.known = p.known

/-- Appending keeps all that was there. -/
theorem Pool.Appended.keeps (h : p.Appended k p' v) (hsize : p.ref.size ≤ p.header.used) :
    p.Keeps p' := by
  refine ⟨?_, ?_, h.live_eq⟩
  · rw [h.used_eq]
    exact Nat.le_succ _
  · rw [h.size_eq]
    exact hsize.trans (Nat.le_succ _)

/-- A stored cell appends its value. -/
theorem store_appended {cell : α} (h : p.Shape) (hroom : p.header.used < p.header.capacity)
    (hbuffer : p.header.buffer = p.ref.buffer) (hkey : k.key cell = some v) :
    p.Appended k (p.store p.header.used cell v) v := by
  have hcapacity := h.capacity_lt
  have hsize : (p.header.used + 1) % 2 ^ 32 = p.header.used + 1 := Nat.mod_eq_of_lt (by omega)
  have hlive (i : ℕ) : (p.store p.header.used cell v).live i =
      Function.update p.kept p.header.used cell i := by
    show Function.update p.memory p.ref.buffer (Function.update p.kept p.header.used cell)
      p.header.buffer i = _
    rw [hbuffer, Function.update_self]
  have hkept (i : ℕ) : (p.store p.header.used cell v).kept i =
      Function.update p.kept p.header.used cell i := by
    show Function.update p.memory p.ref.buffer (Function.update p.kept p.header.used cell)
      p.ref.buffer i = _
    rw [Function.update_self]
  have hsame (i : ℕ) : p.kept i = p.live i := by
    unfold Pool.kept Pool.live
    rw [hbuffer]
  refine ⟨⟨?_, ?_, h.capacity_lt, ?_, ?_, h.header_lt, h.ref_lt⟩, hsize, hsize, ?_, ?_, rfl, rfl, rfl⟩
  · show 1 ≤ (p.header.used + 1) % 2 ^ 32
    omega
  · show (p.header.used + 1) % 2 ^ 32 ≤ p.header.capacity
    omega
  · exact le_rfl
  · intro i _
    rw [hkept, hlive]
  · intro i hi
    rw [hlive, Function.update_of_ne (Nat.ne_of_lt hi), hsame]
  · rw [hlive, Function.update_self]
    exact hkey

/-- What an intern function does from its lookup on. -/
theorem intern_cases (h : p.Shape) (alloc : Alloc) {built : Built α}
    (hbuilt : ∀ cell, built = .cell cell → k.key cell = some v)
    (hbuffer : p.slots v = none → p.header.buffer = p.ref.buffer ∨ p.header.capacity ≤ p.header.used)
    (hgrown : p.slots v = none → p.header.capacity ≤ p.header.used →
      p.header.capacity + p.header.capacity / 2 + 16 < 2 ^ 32) :
    (∃ r, p.slots v = some r ∧ p.intern k alloc v built = (p, .found r)) ∨
    (p.slots v = none ∧ ∃ p', p.intern k alloc v built = (p', .failed) ∧ p.Extends p' ∧
      p'.header.used = p.header.used) ∨
    (p.slots v = none ∧ built = .crashed) ∨
    (p.slots v = none ∧ ∃ p', p.intern k alloc v built = (p', .appended p.header.used) ∧
      p.Appended k p' v) := by
  unfold Pool.intern
  cases hv : p.slots v with
  | some r => exact Or.inl ⟨r, rfl, rfl⟩
  | none =>
    right
    -- a new value needs a place, and then a cell; either may fail
    cases hslot : p.poolSlot k alloc with
    | none => exact Or.inl ⟨rfl, p, rfl, .refl h, rfl⟩
    | some found =>
      obtain ⟨p₁, slot⟩ := found
      obtain ⟨rfl, hmoved, hused, hroom, hsynced⟩ := poolSlot_extends h hslot (hgrown hv)
      cases built with
      | failed => exact Or.inl ⟨rfl, p₁, rfl, hmoved, hused⟩
      | crashed => exact Or.inr (Or.inl ⟨rfl, rfl⟩)
      | cell cell =>
        right
        right
        refine ⟨rfl, _, rfl, ?_⟩
        have hstored := store_appended hmoved.shape hroom (hsynced (hbuffer hv)) (hbuilt cell rfl)
        rw [hused] at hstored
        refine ⟨hstored.shape, hstored.used_eq.trans (by rw [hused]),
          hstored.size_eq.trans (by rw [hused]), ?_, ?_, ?_, ?_, ?_⟩
        · intro i hi
          rw [hstored.live_eq i (hused.symm ▸ hi), hmoved.live_eq i hi]
        · have hkey := hstored.key_eq
          rw [hused] at hkey
          exact hkey
        · rw [hstored.slots_eq, hmoved.slots_eq, hused]
        · rw [hstored.indexed_eq, hmoved.indexed_eq]
        · rw [hstored.known_eq, hmoved.known_eq]

end Intern

/-! ## What the tables hold -/

/-- What a reader has kept is in the slot. -/
structure Pool.Sound (k : Kind α κ) (p : Pool α κ) : Prop extends p.Shape where
  known : ∀ i v, p.known i = some v → i < p.ref.size ∧ p.At k v i

/-- The table of the conditions: the first slot of each value before `indexed`. -/
structure Pool.LiveIndex (k : Kind α κ) (p : Pool α κ) : Prop extends p.Sound k where
  indexed_pos : 1 ≤ p.indexed
  indexed_le : p.indexed ≤ p.header.used
  complete : ∀ i v, i < p.indexed → p.At k v i → (p.slots v).isSome
  first : ∀ v r, p.slots v = some r →
    ∃ i, r = toInt i ∧ p.At k v i ∧ ∀ j < i, ¬p.At k v j

/-- The table of the other pools: slots that the kept size reaches. -/
structure Pool.OnceIndex (k : Kind α κ) (p : Pool α κ) : Prop extends p.Sound k where
  covered : ∀ v r, p.slots v = some r → ∃ i, r = toInt i ∧ p.At k v i ∧ i < p.ref.size

/-- A copied array reads as the one before. -/
theorem Pool.Sound.extends (h : p.Sound k) (hextends : p.Extends p') : p'.Sound k where
  toShape := hextends.shape
  known i v hknown := by
    rw [hextends.known_eq] at hknown
    obtain ⟨hlt, hat⟩ := h.known i v hknown
    exact ⟨hextends.size_eq ▸ hlt, hat.keeps hextends.toKeeps⟩

/-- Its index stays right. -/
theorem Pool.LiveIndex.extends (h : p.LiveIndex k) (hextends : p.Extends p') : p'.LiveIndex k where
  toSound := h.toSound.extends hextends
  indexed_pos := by
    rw [hextends.indexed_eq]
    exact h.indexed_pos
  indexed_le := by
    rw [hextends.indexed_eq]
    exact h.indexed_le.trans hextends.used_le
  complete i v hi hat := by
    rw [hextends.indexed_eq] at hi
    rw [hextends.slots_eq]
    exact h.complete i v hi (hat.of_keeps hextends.toKeeps (hi.trans_le h.indexed_le))
  first v r hslots := by
    rw [hextends.slots_eq] at hslots
    obtain ⟨i, hr, hat, hfirst⟩ := h.first v r hslots
    refine ⟨i, hr, hat.keeps hextends.toKeeps, ?_⟩
    intro j hj hother
    exact hfirst j hj (hother.of_keeps hextends.toKeeps (hj.trans hat.2.1))

/-- So does the one that is built once. -/
theorem Pool.OnceIndex.extends (h : p.OnceIndex k) (hextends : p.Extends p') : p'.OnceIndex k where
  toSound := h.toSound.extends hextends
  covered v r hslots := by
    rw [hextends.slots_eq] at hslots
    obtain ⟨i, hr, hat, hlt⟩ := h.covered v r hslots
    exact ⟨i, hr, hat.keeps hextends.toKeeps, hextends.size_eq ▸ hlt⟩

section Tables

variable [DecidableEq κ]

/-- The appended value is at the next slot. -/
theorem Pool.Appended.at (h : p.Appended k p' v) (hshape : p.Shape) : p'.At k v p.header.used := by
  refine ⟨hshape.used_pos, ?_, h.key_eq⟩
  rw [h.used_eq]
  exact Nat.lt_succ_self _

/-- An appended value is read where it was put. -/
theorem Pool.Sound.appended (h : p.Sound k) (happended : p.Appended k p' v) : p'.Sound k where
  toShape := happended.shape
  known i w hknown := by
    rw [happended.known_eq] at hknown
    obtain ⟨hlt, hat⟩ := h.known i w hknown
    have hkeeps := happended.keeps h.size_le
    exact ⟨hlt.trans_le hkeeps.size_le, hat.keeps hkeeps⟩

/-- A value that is appended with its entry keeps the index. -/
theorem Pool.OnceIndex.appended (h : p.OnceIndex k) (hnone : p.slots v = none)
    (happended : p.Appended k p' v) : p'.OnceIndex k where
  toSound := h.toSound.appended happended
  covered w r hslots := by
    have hkeeps := happended.keeps h.size_le
    rw [happended.slots_eq] at hslots
    cases hold : p.slots w with
    | some r' =>
      rw [emplace_of_some hold] at hslots
      obtain ⟨i, hr, hat, hlt⟩ := h.covered w r' hold
      exact ⟨i, (Option.some.inj hslots).symm.trans hr, hat.keeps hkeeps,
        hlt.trans_le hkeeps.size_le⟩
    | none =>
      rcases emplace_new (w := v) (r := toInt p.header.used) hold with hnew | heq
      · exact absurd (hnew.symm.trans hslots) nofun
      · rw [← heq, emplace_none hnone] at hslots
        refine ⟨p.header.used, (Option.some.inj hslots).symm, ?_, ?_⟩
        · rw [← heq]
          exact happended.at h.toShape
        · rw [happended.size_eq]
          exact Nat.lt_succ_self _

/-- The conditions that were all indexed are so with the one that was appended. -/
theorem Pool.LiveIndex.appended (h : p.LiveIndex k) (hindexed : p.indexed = p.header.used)
    (hnone : p.slots v = none) (happended : p.Appended k p' v) :
    Pool.LiveIndex k { p' with
      indexed := if p'.indexed = p.header.used then p.header.used + 1 else p'.indexed } := by
  rw [happended.indexed_eq, if_pos hindexed]
  have hkeeps : p.Keeps { p' with indexed := p.header.used + 1 } :=
    have hkeeps' := happended.keeps h.size_le
    ⟨hkeeps'.used_le, hkeeps'.size_le, hkeeps'.live_eq⟩
  have hsound := h.toSound.appended happended
  refine ⟨⟨hsound.toShape.congr rfl rfl rfl rfl, hsound.known⟩, Nat.succ_pos _, ?_, ?_, ?_⟩
  · exact happended.used_eq.ge
  -- every condition below the new size has a slot: the last is the one just emplaced
  · intro i w hi hat
    show (p'.slots w).isSome
    rw [happended.slots_eq]
    by_cases heq : i = p.header.used
    · have hkey := hat.2.2
      rw [heq] at hkey
      rw [← Option.some.inj (happended.key_eq.symm.trans hkey)]
      exact emplace_self _ _ _
    · have hlt : i < p.header.used := by
        have hi' : i < p.header.used + 1 := hi
        omega
      obtain ⟨r, hr⟩ := Option.isSome_iff_exists.mp
        (h.complete i w (hindexed ▸ hlt) (Pool.At.of_keeps hat hkeeps hlt))
      rw [emplace_of_some hr]
      rfl
  -- a slot is the first place of its condition, as the new condition had none
  · intro w r hslots
    rw [happended.slots_eq] at hslots
    cases hold : p.slots w with
    | some r' =>
      rw [emplace_of_some hold] at hslots
      obtain ⟨i, hr, hat, hfirst⟩ := h.first w r' hold
      refine ⟨i, (Option.some.inj hslots).symm.trans hr, hat.keeps hkeeps, ?_⟩
      intro j hj hother
      exact hfirst j hj (Pool.At.of_keeps hother hkeeps (hj.trans hat.2.1))
    | none =>
      rcases emplace_new (w := v) (r := toInt p.header.used) hold with hnew | heq
      · exact absurd (hnew.symm.trans hslots) nofun
      · rw [← heq, emplace_none hnone] at hslots
        refine ⟨p.header.used, (Option.some.inj hslots).symm, ?_, ?_⟩
        · rw [← heq]
          exact happended.at h.toShape
        · intro j hj hother
          have hsome := h.complete j w (hindexed ▸ hj) (Pool.At.of_keeps hother hkeeps hj)
          rw [hold] at hsome
          exact absurd hsome nofun

/-! ## The calls -/

/-- The conditions up to the live size are indexed. -/
theorem Pool.LiveIndex.index (h : p.LiveIndex k) : (p.indexLive k).LiveIndex k ∧
    (p.indexLive k).indexed = p.header.used ∧
    ∀ v r, p.slots v = some r → (p.indexLive k).slots v = some r := by
  have hle := h.indexed_le
  have hindexed : (p.indexLive k).indexed = p.header.used := Nat.max_eq_right hle
  have hspec := indexCells_indexed k p.live p.slots p.indexed (p.header.used - p.indexed)
  refine ⟨⟨⟨h.toShape.congr rfl rfl rfl rfl, h.known⟩, hindexed ▸ h.used_pos, hindexed.le, ?_, ?_⟩,
    hindexed, hspec.stays⟩
  · intro i v hi hat
    by_cases hold : i < p.indexed
    · obtain ⟨r, hr⟩ := Option.isSome_iff_exists.mp (h.complete i v hold hat)
      exact Option.isSome_iff_exists.mpr ⟨r, hspec.stays v r hr⟩
    · have hlt := hat.2.1
      exact hspec.complete i v (by omega) (by change i < p.header.used at hlt; omega) hat.2.2
  · intro v r hslots
    cases hold : p.slots v with
    | some r' =>
      obtain ⟨i, hr, hat, hfirst⟩ := h.first v r' hold
      have heq := Option.some.inj ((hspec.stays v r' hold).symm.trans hslots)
      exact ⟨i, heq ▸ hr, hat, hfirst⟩
    | none =>
      obtain ⟨i, hfirst, hlast, hr, hkey, hbefore⟩ := hspec.entered v r hold hslots
      have hlt : i < p.header.used := by omega
      refine ⟨i, hr, ⟨?_, hlt, hkey⟩, ?_⟩
      · exact h.indexed_pos.trans hfirst
      · intro j hj hother
        by_cases hindexed : j < p.indexed
        · have hsome := h.complete j v hindexed hother
          rw [hold] at hsome
          exact absurd hsome nofun
        · exact hbefore j (by omega) hj hother.2.2

/-- The slots up to the kept size are indexed through the kept buffer. -/
theorem Pool.OnceIndex.index (h : p.OnceIndex k) : (p.indexOnce k).OnceIndex k ∧
    ∀ v r, p.slots v = some r → (p.indexOnce k).slots v = some r := by
  unfold Pool.indexOnce
  split
  · exact ⟨h, fun _ _ => id⟩
  · have hspec := indexCells_indexed k p.kept p.slots 1 (p.ref.size - 1)
    refine ⟨⟨⟨h.toShape.congr rfl rfl rfl rfl, h.known⟩, ?_⟩, hspec.stays⟩
    intro v r hslots
    cases hold : p.slots v with
    | some r' =>
      obtain ⟨i, hr, hat, hlt⟩ := h.covered v r' hold
      have heq := Option.some.inj ((hspec.stays v r' hold).symm.trans hslots)
      exact ⟨i, heq ▸ hr, hat, hlt⟩
    | none =>
      obtain ⟨i, hfirst, hlast, hr, hkey, -⟩ := hspec.entered v r hold hslots
      have hlt : i < p.ref.size := by omega
      rw [h.same i hlt] at hkey
      exact ⟨i, hr, ⟨hfirst, hlt.trans_le h.size_le, hkey⟩, hlt⟩

end Tables

/-! ## Reading -/

/-- The slot is one that the readers reach, and has the value. -/
def Pool.Given (k : Kind α κ) (p : Pool α κ) (v : κ) (r : ℤ) : Prop :=
  ∃ i : ℕ, r = i ∧ i < p.ref.size ∧ p.At k v i

/-- A slot that was given out stays the value's. -/
theorem Pool.Given.keeps (h : p.Given k v r) (hkeeps : p.Keeps p') : p'.Given k v r := by
  obtain ⟨i, hr, hlt, hat⟩ := h
  exact ⟨i, hr, hlt.trans_le hkeeps.size_le, hat.keeps hkeeps⟩

/-- A slot of the engine's own array is inside. -/
theorem not_outside (h : 1 ≤ i) (hlt : i < p.ref.size) : p.outside i = false := by
  unfold Pool.outside
  rw [Bool.or_eq_false_iff, decide_eq_false_iff_not, decide_eq_false_iff_not, Int.toNat_natCast]
  omega

/-- A slot that was given out reads its value. -/
theorem readCell_given (h : p.Sound k) (hgiven : p.Given k v r) : (p.readCell k r).2 = some v := by
  obtain ⟨i, rfl, hlt, hat⟩ := hgiven
  unfold Pool.readCell
  rw [not_outside hat.1 hlt]
  show k.key (p.kept i) = some v
  rw [h.same i hlt]
  exact hat.2.2

/-- So it does where known values are kept. -/
theorem readKnown_given (h : p.Sound k) (hgiven : p.Given k v r) : (p.readKnown k r).2 = some v := by
  obtain ⟨i, rfl, hlt, hat⟩ := hgiven
  unfold Pool.readKnown
  rw [not_outside hat.1 hlt, Int.toNat_natCast, if_neg nofun, h.same i hlt, hat.2.2]
  cases hknown : p.known i with
  | none => rfl
  | some w =>
    have hkey := (h.known i w hknown).2.2.2
    rw [hat.2.2] at hkey
    exact hkey.symm

/-- A reader changes only what it has kept. -/
theorem readKnown_fst (h : p.Sound k) (raw : ℤ) :
    ∃ known, (p.readKnown k raw).1 = { p with known } ∧ ({ p with known } : Pool α κ).Sound k := by
  have hsame : ({ p with known := p.known } : Pool α κ).Sound k := h
  unfold Pool.readKnown
  split
  · exact ⟨p.known, rfl, hsame⟩
  · next hinside =>
    split
    · exact ⟨p.known, rfl, hsame⟩
    · split
      · exact ⟨p.known, rfl, hsame⟩
      · next v hkey =>
        refine ⟨_, rfl, h.toShape.congr rfl rfl rfl rfl, ?_⟩
        intro i w hknown
        change Function.update p.known raw.toNat (some v) i = some w at hknown
        by_cases heq : i = raw.toNat
        · rw [heq, Function.update_self] at hknown
          rw [Bool.not_eq_true] at hinside
          unfold Pool.outside at hinside
          rw [Bool.or_eq_false_iff, decide_eq_false_iff_not, decide_eq_false_iff_not] at hinside
          have hlt : raw.toNat < p.ref.size := by omega
          rw [h.same _ hlt] at hkey
          rw [heq, ← Option.some.inj hknown]
          refine ⟨hlt, ?_, hlt.trans_le h.size_le, hkey⟩
          omega
        · rw [Function.update_of_ne heq] at hknown
          exact h.known i w hknown

/-! ## One call -/

/-- What holds of a pool in every state. -/
def Inv : (w : Which) → w.Pool → Prop
  | .conditions => Pool.LiveIndex conditionKind
  | .strings => Pool.OnceIndex stringKind
  | .int64s => Pool.OnceIndex int64Kind
  | .floats => Pool.OnceIndex floatKind

theorem Inv.sound : {w : Which} → {p : w.Pool} → Inv w p → Pool.Sound w.kind p
  | .conditions, _, h => h.toSound
  | .strings, _, h => h.toSound
  | .int64s, _, h => h.toSound
  | .floats, _, h => h.toSound

theorem Inv.extends : {w : Which} → {p p' : w.Pool} → Inv w p → p.Extends p' → Inv w p'
  | .conditions, _, _, h, hextends => Pool.LiveIndex.extends h hextends
  | .strings, _, _, h, hextends => Pool.OnceIndex.extends h hextends
  | .int64s, _, _, h, hextends => Pool.OnceIndex.extends h hextends
  | .floats, _, _, h, hextends => Pool.OnceIndex.extends h hextends

/-- What a call leaves: the pool in order with the slots it had, and the value in its table where
a slot is returned. -/
structure Served (I : Pool α κ → Prop) (k : Kind α κ) (p : Pool α κ) (v : κ)
    (after : Pool α κ × Outcome) : Prop where
  inv : I after.1
  keeps : p.Keeps after.1
  result : ∃ r, after.2.result = some r ∧
    (1 ≤ r → after.1.slots v = some r ∧ after.1.Given k v r) ∧
    (r = -1 → after.1.header.used = p.header.used)
  slots : ∀ w r, p.slots w = some r → after.1.slots w = some r
  again : ∀ r, p.slots v = some r → after.2.result = some r

/-- The values that a call is not refused for. -/
def Accepts : (w : Which) → w.Key → Alloc → Prop
  | .conditions, text, _ => text ≠ []
  | .strings, _, alloc => alloc.table = true
  | _, _, _ => True

section Calls

variable {built : Built α} {I : Pool α κ → Prop}

/-- A value that the index has is given its slot. -/
theorem served_found (hI : I p) (hslots : p.slots v = some r) (hgiven : 1 ≤ r → p.Given k v r) :
    Served I k p v (p, .found r) :=
  ⟨hI, .refl p, ⟨r, rfl, fun hpos => ⟨hslots, hgiven hpos⟩, fun _ => rfl⟩, fun _ _ => id,
    fun _ hsome => hslots.symm.trans hsome⟩

/-- A value that cannot be appended is given none. -/
theorem served_failed (hI : I p') (hextends : p.Extends p') (hused : p'.header.used = p.header.used)
    (hnone : p.slots v = none) : Served I k p v (p', .failed) := by
  refine ⟨hI, hextends.toKeeps, ⟨-1, rfl, ?_, fun _ => hused⟩, ?_, ?_⟩
  · intro hpos
    omega
  · intro w r hsome
    rw [hextends.slots_eq]
    exact hsome
  · exact fun r hsome => absurd (hnone.symm.trans hsome) nofun

/-- The array is the same: the tables beside it may differ. -/
structure Pool.SameArray (p p' : Pool α κ) : Prop where
  memory_eq : p'.memory = p.memory
  header_eq : p'.header = p.header
  ref_eq : p'.ref = p.ref

/-- The same array reads the same. -/
theorem Pool.SameArray.live (h : p.SameArray p') (i : ℕ) : p'.live i = p.live i := by
  unfold Pool.live
  rw [h.memory_eq, h.header_eq]

/-- A call that is served after the index was brought up to date. -/
theorem Served.of_index {after : Pool α κ × Outcome} (h : Served I k p' v after)
    (hsame : p.SameArray p') (hslots : ∀ w r, p.slots w = some r → p'.slots w = some r) :
    Served I k p v after where
  inv := h.inv
  keeps := by
    have hkeeps := h.keeps
    refine ⟨?_, ?_, ?_⟩
    · rw [← hsame.header_eq]
      exact hkeeps.used_le
    · rw [← hsame.ref_eq]
      exact hkeeps.size_le
    · intro i hi
      rw [← hsame.header_eq] at hi
      rw [hkeeps.live_eq i hi, hsame.live]
  result := by
    rw [← hsame.header_eq]
    exact h.result
  slots w r hsome := h.slots w r (hslots w r hsome)
  again r hsome := h.again r (hslots v r hsome)

/-- A value can be appended. -/
structure CanAppend (p : Pool α κ) (built : Built α) : Prop where
  buffer : p.header.buffer = p.ref.buffer ∨ p.header.capacity ≤ p.header.used
  slot : p.header.used < 2 ^ 31
  grown : p.header.capacity ≤ p.header.used →
    p.header.capacity + p.header.capacity / 2 + 16 < 2 ^ 32
  built : built ≠ .crashed

/-- What can be appended depends on the array alone. -/
theorem CanAppend.congr (h : CanAppend p built) (hsame : p.SameArray p') : CanAppend p' built := by
  obtain ⟨hbuffer, hslot, hgrown, hbuilt⟩ := h
  rw [← hsame.header_eq] at hslot hgrown
  rw [← hsame.header_eq, ← hsame.ref_eq] at hbuffer
  exact ⟨hbuffer, hslot, hgrown, hbuilt⟩

variable [DecidableEq κ]

/-- What becomes of the tables that are not the array's does not matter to what is returned. -/
theorem served_appended {after : Pool α κ} (hI : I after) (h : p.Shape) (hnone : p.slots v = none)
    (hslot : p.header.used < 2 ^ 31) (happended : p.Appended k p' v)
    (hmemory : after.memory = p'.memory) (hheader : after.header = p'.header)
    (href : after.ref = p'.ref) (hslots : after.slots = p'.slots) :
    Served I k p v (after, .appended p.header.used) := by
  have hlive (i : ℕ) : after.live i = p'.live i := by
    unfold Pool.live
    rw [hmemory, hheader]
  have hused : after.header.used = p.header.used + 1 := by rw [hheader, happended.used_eq]
  have hsize : after.ref.size = p.header.used + 1 := by rw [href, happended.size_eq]
  have hresult : toInt p.header.used = p.header.used := toInt_of_lt hslot
  refine ⟨hI, ⟨?_, ?_, ?_⟩, ⟨toInt p.header.used, rfl, ?_, ?_⟩, ?_, ?_⟩
  · show p.header.used ≤ after.header.used
    omega
  · have hle := h.size_le
    show p.ref.size ≤ after.ref.size
    omega
  · intro i hi
    rw [hlive, happended.live_eq i hi]
  · intro _
    refine ⟨?_, p.header.used, hresult, ?_, h.used_pos, ?_, ?_⟩
    · show after.slots v = _
      rw [hslots, happended.slots_eq, emplace_none hnone]
    · show p.header.used < after.ref.size
      omega
    · show p.header.used < after.header.used
      omega
    · show k.key (after.live _) = _
      rw [hlive, happended.key_eq]
  · intro heq
    rw [hresult] at heq
    omega
  · intro w r hsome
    show after.slots w = _
    rw [hslots, happended.slots_eq]
    exact emplace_of_some hsome _ _
  · exact fun r hsome => absurd (hnone.symm.trans hsome) nofun

/-- Building the index leaves the array. -/
theorem sameArray_indexOnce (k : Kind α κ) (p : Pool α κ) : p.SameArray (p.indexOnce k) := by
  unfold Pool.indexOnce
  split
  · exact ⟨rfl, rfl, rfl⟩
  · exact ⟨rfl, rfl, rfl⟩

/-- The pools of strings, masks and floats. -/
theorem served_once (h : p.OnceIndex k) (hbuilt : ∀ cell, built = .cell cell → k.key cell = some v)
    (hcan : (p.indexOnce k).slots v = none → CanAppend p built) :
    Served (Pool.OnceIndex k) k p v ((p.indexOnce k).intern k alloc v built) := by
  obtain ⟨hindex, hstays⟩ := h.index
  have hsame := sameArray_indexOnce k p
  apply Served.of_index _ hsame hstays
  have hcan' (hnone : (p.indexOnce k).slots v = none) := (hcan hnone).congr hsame
  rcases intern_cases hindex.toShape alloc hbuilt (fun hnone => (hcan' hnone).buffer)
      (fun hnone => (hcan' hnone).grown) with
    ⟨r, hfound, heq⟩ | ⟨hnone, p', heq, hextends, hused⟩ | ⟨hnone, hcrashed⟩ |
      ⟨hnone, p', heq, happended⟩
  · rw [heq]
    apply served_found hindex hfound
    intro hpos
    obtain ⟨i, rfl, hat, hlt⟩ := hindex.covered v r hfound
    have hsize := hindex.size_le
    have hused := hindex.used_le
    have hcapacity := hindex.capacity_lt
    exact ⟨i, eq_toNat_of_toInt (by omega) hpos, hlt, hat⟩
  · rw [heq]
    exact served_failed (hindex.extends hextends) hextends hused hnone
  · exact absurd hcrashed (hcan' hnone).built
  · rw [heq]
    exact served_appended (hindex.appended hnone happended) hindex.toShape hnone (hcan' hnone).slot
      happended rfl rfl rfl rfl

end Calls

/-! ## The four functions -/

/-- The cell of a text has that text. -/
theorem key_of_buildLsString {text cell : Bytes} (h : buildLsString alloc text = .cell cell) :
    conditionKind.key cell = some text := by
  have hcell : cell = text ∧ text.length ≤ 2 ^ 20 := by
    unfold buildLsString at h
    split at h
    · next hshort => exact ⟨(Built.cell.inj h).symm, hshort.trans (by norm_num)⟩
    · split at h
      · exact absurd h nofun
      · next hfits =>
        rw [Bool.or_eq_true, not_or, decide_eq_true_eq] at hfits
        split at h
        · exact ⟨(Built.cell.inj h).symm, Nat.not_lt.mp hfits.1⟩
        · exact absurd h nofun
  rw [hcell.1]
  exact if_pos hcell.2

/-- Building a text does not crash. -/
theorem buildLsString_ne_crashed (text : Bytes) : buildLsString alloc text ≠ .crashed := by
  unfold buildLsString
  split
  · exact nofun
  · split
    · exact nofun
    · split
      · exact nofun
      · exact nofun

theorem Pool.LiveIndex.withKnown (h : p.LiveIndex k) {known : ℕ → Option κ}
    (hsound : ({ p with known } : Pool α κ).Sound k) : ({ p with known } : Pool α κ).LiveIndex k :=
  ⟨hsound, h.indexed_pos, h.indexed_le, h.complete, h.first⟩

/-- The first slot of a condition is one that the readers reach, if one of its slots is. -/
theorem given_of_first (h : p.LiveIndex k)
    (hreach : p.Holds k p.ref.size p.header.used v → p.Holds k 1 p.ref.size v)
    (hat : p.At k v i) (hfirst : ∀ j < i, ¬p.At k v j) : i < p.ref.size := by
  by_contra hlarge
  have hle : p.ref.size ≤ i := Nat.not_lt.mp hlarge
  obtain ⟨j, hj, hpos, hkey⟩ := hreach ⟨i, hat.2.1, hle, hat.2.2⟩
  exact hfirst j (hj.trans_le hle) ⟨hpos, hj.trans_le h.size_le, hkey⟩

/-- A condition is given the slot that holds it, or a new one. -/
theorem served_condition {p : Pool Bytes Bytes} {text : Bytes} (h : p.LiveIndex conditionKind)
    (htext : text ≠ [])
    (hreach : p.Holds conditionKind p.ref.size p.header.used text →
      p.Holds conditionKind 1 p.ref.size text)
    (hcan : (p.indexLive conditionKind).slots text = none →
      CanAppend p (buildLsString alloc text)) :
    Served (Pool.LiveIndex conditionKind) conditionKind p text (conditionIntern p alloc text) := by
  obtain ⟨hindex, hindexed, hstays⟩ := h.index
  have hsame : p.SameArray (p.indexLive conditionKind) := ⟨rfl, rfl, rfl⟩
  have hcan' (hnone : (p.indexLive conditionKind).slots text = none) := (hcan hnone).congr hsame
  unfold conditionIntern
  rw [if_neg htext]
  rcases intern_cases hindex.toShape alloc (fun _ => key_of_buildLsString)
      (fun hnone => (hcan' hnone).buffer) (fun hnone => (hcan' hnone).grown) with
    ⟨r, hfound, heq⟩ | ⟨hnone, p', heq, hextends, hused⟩ | ⟨hnone, hcrashed⟩ |
      ⟨hnone, p', heq, happended⟩
  · rw [heq]
    apply Served.of_index _ hsame hstays
    apply served_found hindex hfound
    intro hpos
    obtain ⟨i, rfl, hat, hfirst⟩ := hindex.first text r hfound
    have hlt := given_of_first hindex hreach hat hfirst
    have hsize := hindex.size_le
    have hused := hindex.used_le
    have hcapacity := hindex.capacity_lt
    exact ⟨i, eq_toNat_of_toInt (by omega) hpos, hlt, hat⟩
  · rw [heq]
    apply Served.of_index _ hsame hstays
    exact served_failed (hindex.extends hextends) hextends hused hnone
  · exact absurd hcrashed (buildLsString_ne_crashed text)
  · rw [heq]
    apply Served.of_index _ hsame hstays
    have hlive := hindex.appended hindexed hnone happended
    -- the reader that the function ends with only enters what it reads
    obtain ⟨known, hknown, hsound⟩ := readKnown_fst hlive.toSound (toInt p.header.used)
    have hafter : (attrCondition { p' with
        indexed := if p'.indexed = p.header.used then p.header.used + 1 else p'.indexed }
      (toInt p.header.used)).1 = _ := hknown
    show Served _ _ _ _ ((attrCondition { p' with
        indexed := if p'.indexed = p.header.used then p.header.used + 1 else p'.indexed }
      (toInt p.header.used)).1, .appended p.header.used)
    rw [hafter]
    exact served_appended (hlive.withKnown hsound) hindex.toShape hnone (hcan' hnone).slot happended
      rfl rfl rfl rfl

/-- A call that is not refused. -/
theorem served_pool : (w : Which) → {p : w.Pool} → {v : w.Key} → Inv w p → Accepts w v alloc →
    (w = .conditions → p.Holds w.kind p.ref.size p.header.used v → p.Holds w.kind 1 p.ref.size v) →
    ((indexPool w p).slots v = none → Appends w p alloc) →
    Served (Inv w) w.kind p v (internPool w p alloc v)
  | .conditions, _, _, h, haccepts, hreach, hcan =>
    served_condition h haccepts (hreach rfl) fun hnone =>
      have happends := hcan hnone
      ⟨happends.buffer, happends.slot, happends.grown, buildLsString_ne_crashed _⟩
  | .strings, p, text, h, haccepts, _, hcan => by
    show Served _ _ p _ (stringIntern p alloc text)
    unfold stringIntern
    rw [show alloc.table = true from haccepts, Bool.not_true, if_neg Bool.false_ne_true]
    apply served_once h
    · intro cell hcell
      rw [← Built.cell.inj hcell]
      rfl
    · intro hnone
      have happends := hcan hnone
      exact ⟨happends.buffer, happends.slot, happends.grown, nofun⟩
  -- the pool of numbers is the one whose value needs its own block
  | .int64s, p, value, h, _, _, hcan => by
    show Served _ _ p _ (int64Intern p alloc value)
    unfold int64Intern
    apply served_once h
    · intro cell hcell
      split at hcell
      · exact absurd hcell nofun
      · split at hcell
        · rw [← Built.cell.inj hcell]
          rfl
        · exact absurd hcell nofun
    · intro hnone
      have happends := hcan hnone
      refine ⟨happends.buffer, happends.slot, happends.grown, ?_⟩
      split
      · exact nofun
      · next hready =>
        rw [if_pos (happends.value rfl (by simpa using hready))]
        exact nofun
  | .floats, p, bits, h, _, _, hcan => by
    show Served _ _ p _ (floatIntern p alloc bits)
    unfold floatIntern
    apply served_once h
    · intro cell hcell
      rw [← Built.cell.inj hcell]
      rfl
    · intro hnone
      have happends := hcan hnone
      exact ⟨happends.buffer, happends.slot, happends.grown, nofun⟩

/-- A call that is refused. -/
theorem internPool_refused : (w : Which) → (p : w.Pool) → {v : w.Key} → ¬Accepts w v alloc →
    internPool w p alloc v = (p, .failed)
  | .conditions, _, _, h => if_pos (not_not.mp h)
  | .strings, _, _, h => if_pos (by simpa [Accepts] using h)
  | .int64s, _, _, h => absurd trivial h
  | .floats, _, _, h => absurd trivial h

/-- A slot that was given out reads its value, in every pool. -/
theorem readPool_given : (w : Which) → {p : w.Pool} → {v : w.Key} → {r : ℤ} → Inv w p →
    p.Given w.kind v r → (readPool w p r).2 = some v
  | .conditions, _, _, _, h, hgiven => readKnown_given h.toSound hgiven
  | .strings, _, _, _, h, hgiven => readKnown_given h.toSound hgiven
  | .int64s, _, _, _, h, hgiven => readCell_given h.toSound hgiven
  | .floats, _, _, _, h, hgiven => readCell_given h.toSound hgiven

/-- A reader leaves the array and the tables of the functions. -/
theorem readPool_fst : (w : Which) → {p : w.Pool} → Inv w p → (raw : ℤ) →
    Inv w (readPool w p raw).1 ∧ p.SameArray (readPool w p raw).1 ∧
      (readPool w p raw).1.slots = p.slots
  | .conditions, p, h, raw => by
    obtain ⟨known, heq, hsound⟩ := readKnown_fst h.toSound raw
    show Inv .conditions (p.readKnown conditionKind raw).1 ∧ _
    rw [show readPool .conditions p raw = p.readKnown conditionKind raw from rfl, heq]
    exact ⟨h.withKnown hsound, ⟨rfl, rfl, rfl⟩, rfl⟩
  | .strings, p, h, raw => by
    obtain ⟨known, heq, hsound⟩ := readKnown_fst h.toSound raw
    show Inv .strings (p.readKnown stringKind raw).1 ∧ _
    rw [show readPool .strings p raw = p.readKnown stringKind raw from rfl, heq]
    exact ⟨⟨hsound, h.covered⟩, ⟨rfl, rfl, rfl⟩, rfl⟩
  | .int64s, _, h, _ => ⟨h, ⟨rfl, rfl, rfl⟩, rfl⟩
  | .floats, _, h, _ => ⟨h, ⟨rfl, rfl, rfl⟩, rfl⟩

/-- The engine's appends change no slot, and what is left of an old buffer is not read. -/
theorem append_extends {values : List α} {move : Option (Move α)} (h : p.Shape)
    (happend : p.append values move = some p')
    (hleft : ∀ m ∈ move, p.header.buffer = p.ref.buffer → ∀ i < p.ref.size, m.left i = p.live i) :
    p.Extends p' := by
  have hcells (i : ℕ) (hi : i < p.header.used) :
      (if i < p.header.used then p.live i else values.getD (i - p.header.used) (p.live i)) = p.live i :=
    if_pos hi
  have hsize := h.size_le
  have hcapacity := h.capacity_lt
  unfold Pool.append at happend
  cases move with
  | none =>
    -- the buffer has room, and the values go behind what is used
    obtain ⟨hfits, hsome⟩ := Option.ite_none_right_eq_some.mp happend
    rw [← Option.some.inj hsome]
    have hlive (i : ℕ) (hi : i < p.header.used) :
        Function.update p.memory p.header.buffer (fun i => if i < p.header.used then p.live i
          else values.getD (i - p.header.used) (p.live i)) p.header.buffer i = p.live i := by
      rw [Function.update_self]
      exact hcells i hi
    refine ⟨⟨Nat.le_add_right _ _, le_rfl, hlive⟩, ⟨h.used_pos.trans (Nat.le_add_right _ _), hfits,
      hcapacity, hsize.trans (Nat.le_add_right _ _), ?_, h.header_lt, h.ref_lt⟩, rfl, rfl, rfl, rfl⟩
    intro i hi
    have hlt : i < p.header.used := hi.trans_le hsize
    refine Eq.trans ?_ (hlive i hlt).symm
    show Function.update p.memory p.header.buffer _ p.ref.buffer i = p.live i
    by_cases hbuffer : p.ref.buffer = p.header.buffer
    · rw [hbuffer]
      exact hlive i hlt
    · rw [Function.update_of_ne hbuffer]
      exact h.same i hi
  | some m =>
    -- the engine moves to a larger buffer; the kept one stays as the move leaves it
    obtain ⟨⟨hlarger, hfits, hbound⟩, hsome⟩ := Option.ite_none_right_eq_some.mp happend
    rw [← Option.some.inj hsome]
    have hlive (i : ℕ) (hi : i < p.header.used) :
        Function.update (Function.update p.memory p.header.buffer m.left) p.buffers
          (fun i => if i < p.header.used then p.live i
            else values.getD (i - p.header.used) (p.live i)) p.buffers i = p.live i := by
      rw [Function.update_self]
      exact hcells i hi
    refine ⟨⟨Nat.le_add_right _ _, le_rfl, hlive⟩, ⟨h.used_pos.trans (Nat.le_add_right _ _), hfits,
      hbound, hsize.trans (Nat.le_add_right _ _), ?_, Nat.lt_succ_self _,
      h.ref_lt.trans (Nat.lt_succ_self _)⟩, rfl, rfl, rfl, rfl⟩
    intro i hi
    have hlt : i < p.header.used := hi.trans_le hsize
    refine Eq.trans ?_ (hlive i hlt).symm
    show Function.update (Function.update p.memory p.header.buffer m.left) p.buffers _
      p.ref.buffer i = p.live i
    rw [Function.update_of_ne (Nat.ne_of_lt h.ref_lt)]
    by_cases hbuffer : p.header.buffer = p.ref.buffer
    · rw [← hbuffer, Function.update_self]
      exact hleft m rfl hbuffer i hi
    · rw [Function.update_of_ne (Ne.symm hbuffer)]
      exact h.same i hi

/-! ## Runs -/

/-- Every slot that was returned is in the table of its pool, and would be found again. -/
structure StateInv (s : State) : Prop where
  pools : ∀ w, Inv w (s.pools w)
  crashed : s.crashed = false
  returned : ∀ e ∈ s.history, 1 ≤ e.slot →
    (s.pools e.pool).slots e.value = some e.slot ∧
      (s.pools e.pool).Given e.pool.kind e.value e.slot ∧
      ∀ alloc, Accepts e.pool e.value (s.table e.pool e.value alloc)
  right : Throughout Right s.history

/-- A pool that was found has the shape of one. -/
theorem Pool.Found.shape (h : p.Found) : p.Shape := by
  have hsize : p.ref.size = p.header.used := by rw [h.ref_eq]
  have hbuffer : p.ref.buffer = p.header.buffer := by rw [h.ref_eq]
  have hcapacity := h.capacity_le
  refine ⟨h.used_pos, h.used_le, by omega, hsize.le, ?_, h.buffer_lt, hbuffer ▸ h.buffer_lt⟩
  intro i _
  unfold Pool.kept Pool.live
  rw [hbuffer]

/-- Every slot of it reads the engine's value. -/
theorem Pool.Found.sound (h : p.Found) (k : Kind α κ) : p.Sound k := by
  refine ⟨h.shape, ?_⟩
  intro i v hknown
  rw [h.known_eq] at hknown
  exact absurd hknown nofun

/-- An empty index is right for it. -/
theorem Pool.Found.liveIndex (h : p.Found) (k : Kind α κ) : p.LiveIndex k := by
  refine ⟨h.sound k, h.indexed_eq.ge, h.indexed_eq ▸ h.used_pos, ?_, ?_⟩
  · intro i v hi hat
    rw [h.indexed_eq] at hi
    have hpos := hat.1
    omega
  · intro v r hslots
    rw [h.slots_eq] at hslots
    exact absurd hslots nofun

theorem Pool.Found.onceIndex (h : p.Found) (k : Kind α κ) : p.OnceIndex k := by
  refine ⟨h.sound k, ?_⟩
  intro v r hslots
  rw [h.slots_eq] at hslots
  exact absurd hslots nofun

/-- The pools start right. -/
theorem StateInv.start (h : s.Found) : StateInv s where
  pools := fun w => match w with
    | .conditions => (h.pools .conditions).liveIndex conditionKind
    | .strings => (h.pools .strings).onceIndex stringKind
    | .int64s => (h.pools .int64s).onceIndex int64Kind
    | .floats => (h.pools .floats).onceIndex floatKind
  crashed := h.crashed_eq
  returned e he := by
    rw [h.history_eq] at he
    exact absurd he List.not_mem_nil
  right := by
    rw [h.history_eq]
    exact .nil

/-- A text that was accepted is held. -/
theorem accepts_held : (w : Which) → {v : w.Key} → (∀ text ∈ s.held, text ∈ s'.held) →
    (∀ alloc, Accepts w v (s.table w v alloc)) → ∀ alloc, Accepts w v (s'.table w v alloc)
  | .conditions, _, _, h => fun alloc => h alloc
  | .strings, text, hheld, h => fun alloc => by
    have hmem : text ∈ s.held := by simpa [Accepts, State.table] using h ⟨false, false, false, false⟩
    show (alloc.table || s'.held.contains text) = true
    rw [List.contains_iff_mem.mpr (hheld text hmem), Bool.or_true]
  | .int64s, _, _, _ => fun _ => trivial
  | .floats, _, _, _ => fun _ => trivial

/-- Every text that was accepted once is accepted later on. -/
theorem accepts_heldAfter : (w : Which) → {v : w.Key} → Accepts w v (s.table w v alloc) →
    s'.held = s.heldAfter w v alloc → (∀ text ∈ s.held, text ∈ s'.held) ∧
      ∀ alloc, Accepts w v (s'.table w v alloc)
  | .conditions, _, h, hheld => ⟨fun _ hmem => hheld ▸ hmem, fun _ => h⟩
  | .strings, text, h, hheld => by
    have hmem : text ∈ s'.held ∧ ∀ t ∈ s.held, t ∈ s'.held := by
      rw [hheld, show s.heldAfter .strings text alloc =
        if alloc.table then text :: s.held else s.held from rfl]
      cases htable : alloc.table with
      | true => exact ⟨List.mem_cons_self, fun t ht => List.mem_cons_of_mem _ ht⟩
      | false => exact ⟨by simpa [Accepts, State.table, htable] using h, fun t ht => ht⟩
    refine ⟨hmem.2, fun alloc => ?_⟩
    show (alloc.table || s'.held.contains text) = true
    rw [List.contains_iff_mem.mpr hmem.1, Bool.or_true]
  | .int64s, _, _, hheld => ⟨fun _ hmem => hheld ▸ hmem, fun _ => trivial⟩
  | .floats, _, _, hheld => ⟨fun _ hmem => hheld ▸ hmem, fun _ => trivial⟩

/-- What holds of the new pool and of the others holds of each pool after one was replaced. -/
theorem replaced (P : (w : Which) → w.Pool → Prop) (pools : (w : Which) → w.Pool) {w : Which}
    {p' : w.Pool} (hnew : P w p') (hother : ∀ w' ≠ w, P w' (pools w')) (w' : Which) :
    P w' (Function.update pools w p' w') := by
  by_cases heq : w' = w
  · subst heq
    rw [Function.update_self]
    exact hnew
  · rw [Function.update_of_ne heq]
    exact hother w' heq

/-- A pool is replaced by one that keeps its slots. -/
theorem StateInv.replace (h : StateInv s) {w : Which} {p' : w.Pool} (hinv : Inv w p')
    (hkeeps : (s.pools w).Keeps p') (hslots : ∀ v r, (s.pools w).slots v = some r → p'.slots v = some r)
    {held : List Bytes} (hheld : ∀ text ∈ s.held, text ∈ held) :
    StateInv { s with pools := Function.update s.pools w p', held } where
  pools := replaced Inv s.pools hinv fun w' _ => h.pools w'
  crashed := h.crashed
  returned e he hpos := by
    obtain ⟨hslot, hgiven, haccepts⟩ := h.returned e he hpos
    have hstill := replaced (fun w' q => (∀ v r, (s.pools w').slots v = some r → q.slots v = some r) ∧
      (s.pools w').Keeps q) s.pools ⟨hslots, hkeeps⟩ (fun w' _ => ⟨fun _ _ => id, .refl _⟩) e.pool
    exact ⟨hstill.1 _ _ hslot, hgiven.keeps hstill.2, accepts_held e.pool hheld haccepts⟩
  right := h.right

/-- In a right state all slots that were given out read back. -/
theorem StateInv.reads (h : StateInv s) : Reads s := by
  intro e he hpos
  obtain ⟨-, hgiven, -⟩ := h.returned e he hpos
  exact readPool_given e.pool (h.pools e.pool) hgiven

/-- The slots stay where each pool keeps them, and no call that returned -1 appended any. -/
theorem steady_of (h : StateInv s') (hkeeps : ∀ w, (s.pools w).Keeps (s'.pools w))
    (hfailed : ∀ w value, s'.history = s.history ++ [⟨w, value, -1⟩] →
      ∀ w, (s'.pools w).header.used = (s.pools w).header.used) : Steady s s' where
  grows w := (hkeeps w).used_le
  fits w := (h.pools w).sound.used_le
  same w := (hkeeps w).live_eq
  failed := hfailed

/-- What is held stays so. -/
theorem held_subset (s : State) : (w : Which) → (v : w.Key) → (alloc : Alloc) →
    ∀ text ∈ s.held, text ∈ s.heldAfter w v alloc
  | .conditions, _, _ => fun _ => id
  | .strings, text, alloc => by
    intro t ht
    show t ∈ if alloc.table then text :: s.held else s.held
    split
    · exact List.mem_cons_of_mem _ ht
    · exact ht
  | .int64s, _, _ => fun _ => id
  | .floats, _, _ => fun _ => id

/-- The state's own table appends like the allocator's. -/
theorem Appends.table : {w : Which} → {p : w.Pool} → (s : State) → (v : w.Key) →
    Appends w p alloc → Appends w p (s.table w v alloc)
  | .conditions, _, _, _, h => h
  | .strings, _, _, _, h => ⟨h.buffer, h.slot, h.grown, nofun⟩
  | .int64s, _, _, _, h => h
  | .floats, _, _, _, h => h

/-- A call is recorded. -/
theorem StateInv.record (h : StateInv s) {e : Interned}
    (hreturned : 1 ≤ e.slot → (s.pools e.pool).slots e.value = some e.slot ∧
      (s.pools e.pool).Given e.pool.kind e.value e.slot ∧
      ∀ alloc, Accepts e.pool e.value (s.table e.pool e.value alloc))
    (hright : Right s.history e) : StateInv { s with history := s.history ++ [e] } where
  pools := h.pools
  crashed := h.crashed
  returned e' he' hpos := by
    rcases List.mem_append.mp he' with hold | hnew
    · exact h.returned e' hold hpos
    · rw [List.mem_singleton] at hnew
      subst hnew
      exact hreturned hpos
  right := h.right.concat hright

/-- A call returns, and leaves its pool in order. -/
theorem StateInv.interned (h : StateInv s) {w : Which} {value : w.Key}
    (hclean : Clean s (.intern w value alloc)) :
    ∃ r, (internPool w (s.pools w) (s.table w value alloc) value).2.result = some r ∧
      StateInv { s with
        pools := Function.update s.pools w
          (internPool w (s.pools w) (s.table w value alloc) value).1
        held := s.heldAfter w value alloc
        history := s.history ++ [⟨w, value, r⟩] } ∧
      (s.pools w).Keeps (internPool w (s.pools w) (s.table w value alloc) value).1 ∧
      (r = -1 → (internPool w (s.pools w) (s.table w value alloc) value).1.header.used =
        (s.pools w).header.used) := by
  obtain ⟨hreach, happends⟩ := hclean
  have hheld := held_subset s w value alloc
  by_cases haccepts : Accepts w value (s.table w value alloc)
  · have hserved := served_pool w (h.pools w) haccepts hreach fun hnone =>
      (happends hnone).table s value
    obtain ⟨r, hresult, hgiven, hfailed⟩ := hserved.result
    refine ⟨r, hresult, ?_, hserved.keeps, hfailed⟩
    refine (h.replace hserved.inv hserved.keeps hserved.slots hheld).record (e := ⟨w, value, r⟩) ?_ ?_
    · intro hpos
      show (Function.update s.pools w _ w).slots value = _ ∧
        (Function.update s.pools w _ w).Given _ value r ∧ _
      rw [Function.update_self]
      obtain ⟨hslots, hgiven'⟩ := hgiven hpos
      exact ⟨hslots, hgiven', (accepts_heldAfter w haccepts rfl).2⟩
    · intro slot hmem hpos
      obtain ⟨hslots, -, -⟩ := h.returned _ hmem hpos
      have hagain := hserved.again slot hslots
      show 1 ≤ r
      rw [Option.some.inj (hresult.symm.trans hagain)]
      exact hpos
  · rw [internPool_refused w (s.pools w) haccepts]
    refine ⟨-1, rfl, ?_, .refl _, fun _ => rfl⟩
    refine (h.replace (h.pools w) (.refl _) (fun _ _ => id) hheld).record (e := ⟨w, value, -1⟩) ?_ ?_
    · intro hpos
      exact absurd hpos (by show ¬(1 : ℤ) ≤ -1; omega)
    · intro slot hmem hpos
      exact absurd ((h.returned _ hmem hpos).2.2 alloc) haccepts

/-- The same array keeps its values. -/
theorem Pool.SameArray.keeps (h : p.SameArray p') : p.Keeps p' :=
  ⟨h.header_eq ▸ le_rfl, h.ref_eq ▸ le_rfl, fun i _ => h.live i⟩

/-- A step that is no call replaces one pool. -/
theorem StateInv.replaced (h : StateInv s) {w : Which} {p' : w.Pool} (hinv : Inv w p')
    (hkeeps : (s.pools w).Keeps p')
    (hslots : ∀ v r, (s.pools w).slots v = some r → p'.slots v = some r) :
    StateInv { s with pools := Function.update s.pools w p' } ∧
      Steady s { s with pools := Function.update s.pools w p' } := by
  have hnext : StateInv { s with pools := Function.update s.pools w p' } :=
    h.replace hinv hkeeps hslots fun _ => id
  refine ⟨hnext, steady_of hnext ?_ ?_⟩
  · exact StatsPools.replaced (fun w' q => (s.pools w').Keeps q) s.pools hkeeps fun w' _ => .refl _
  · intro w' value hhistory
    exact absurd hhistory (by simp)

/-- Every step that is clean. -/
theorem StateInv.step {a : Action} (h : StateInv s) (hclean : Clean s a)
    (hstep : step s a = some s') : StateInv s' ∧ Steady s s' := by
  have hrunning : ¬s.crashed = true := by
    rw [h.crashed]
    exact Bool.false_ne_true
  cases a with
  | intern w value alloc =>
    obtain ⟨r, hresult, hinv, hkeeps, hfailed⟩ := h.interned hclean
    simp only [StatsPools.step, if_neg hrunning, hresult] at hstep
    obtain rfl := Option.some.inj hstep
    refine ⟨hinv, steady_of hinv ?_ ?_⟩
    · exact StatsPools.replaced (fun w' q => (s.pools w').Keeps q) s.pools hkeeps
        fun w' _ => .refl _
    · intro w' value' hhistory
      have hlast := List.append_cancel_left hhistory
      have hr : r = -1 := congrArg Interned.slot (List.cons.inj hlast).1
      exact StatsPools.replaced (fun w' q => q.header.used = (s.pools w').header.used) s.pools
        (hfailed hr) fun w' _ => rfl
  | read w raw =>
    obtain ⟨hinv, hsame, hslots⟩ := readPool_fst w (h.pools w) raw
    simp only [StatsPools.step, if_neg hrunning] at hstep
    obtain rfl := Option.some.inj hstep
    apply h.replaced hinv hsame.keeps
    intro v r hsome
    rw [hslots]
    exact hsome
  | append w values move =>
    simp only [StatsPools.step, if_neg hrunning] at hstep
    obtain ⟨p', happend, hsome⟩ := Option.map_eq_some_iff.mp hstep
    have hextends := append_extends (h.pools w).sound.toShape happend hclean
    rw [← hsome]
    apply h.replaced ((h.pools w).extends hextends) hextends.toKeeps
    intro v r hslot
    rw [hextends.slots_eq]
    exact hslot

/-- In a run whose steps are clean, every slot that was returned reads back as its value, a value
is not refused a slot that it had, and the engine's slots stay what they were. -/
theorem pools_of_run {s₀ : State} (hfound : s₀.Found) {actions : List Action}
    (h : Run step Clean s₀ actions s) : Reads s ∧ Throughout Right s.history ∧ s.crashed = false ∧
      ∀ a s', Clean s a → step s a = some s' → Steady s s' := by
  have hinv : StateInv s := h.invariant (StateInv.start hfound) fun _ _ _ hinv hclean hstep =>
    (hinv.step hclean hstep).1
  exact ⟨hinv.reads, hinv.right, hinv.crashed, fun _ _ hclean hstep => (hinv.step hclean hstep).2⟩

/-- A pool with some cells, as it is found. -/
def foundPool (cells : List α) (zero : α) (capacity : ℕ) : Pool α κ where
  memory _ i := cells.getD i zero
  buffers := 1
  header := ⟨0, capacity, cells.length⟩
  ref := ⟨0, cells.length⟩

theorem found_foundPool {cells : List α} {zero : α} {capacity : ℕ} (hpos : 0 < cells.length)
    (hle : cells.length ≤ capacity) (hcapacity : capacity ≤ 4000000) :
    (foundPool cells zero capacity : Pool α κ).Found :=
  ⟨rfl, Nat.one_pos, hpos, hle, hcapacity, rfl, rfl, rfl, rfl⟩

/-- The conditions are full, and the other pools have room. -/
def smallState : State where
  pools
    | .conditions => foundPool [[], bytes "Self()"] [] 2
    | .strings => foundPool [[], bytes "Melee"] [] 4
    | .int64s => foundPool [none, some 3] none 4
    | .floats => foundPool [0, 1065353216] 0 4

theorem found_smallState : smallState.Found where
  pools
    | .conditions => found_foundPool (by decide) (by decide) (by decide)
    | .strings => found_foundPool (by decide) (by decide) (by decide)
    | .int64s => found_foundPool (by decide) (by decide) (by decide)
    | .floats => found_foundPool (by decide) (by decide) (by decide)
  crashed_eq := rfl
  history_eq := rfl

/-- Everything can be had. -/
def plenty : Alloc := ⟨true, true, true, true⟩

/-- A condition moves its pool, the engine appends a string before one of ours, and a mask and a
float are asked for that have a slot. -/
def mixedRun : List Action :=
  [.intern .conditions (bytes "Enemy()") plenty, .read .conditions 2,
    .append .strings [bytes "Ranged"] none, .intern .strings (bytes "Thrown") plenty,
    .intern .int64s 3 plenty, .intern .floats 1065353216 plenty,
    .intern .conditions (bytes "Enemy()") ⟨false, false, false, false⟩]

/-- One value is found, one is appended twice at once, and each pool numbers its own. -/
theorem pools_of_run_demo : ∃ s, Run step Clean smallState mixedRun s ∧
    s.history.map Interned.slot = [2, 3, 1, 1, 2] ∧ Reads s := by
  obtain ⟨s, hrun, hslots⟩ := Run.exists_of_follow step Clean smallState mixedRun
    (fun s => s.history.map Interned.slot = [2, 3, 1, 1, 2]) (by decide +kernel)
  exact ⟨s, hrun, of_decide_eq_true hslots, (pools_of_run found_smallState hrun).1⟩

/-- The engine appends a condition, and a mod asks for the same one. -/
def appendedRun : List Action :=
  [.intern .conditions (bytes "Enemy()") plenty, .append .conditions [bytes "Ally()"] none,
    .intern .conditions (bytes "Ally()") plenty]

/-- The slot of the engine's is returned, but the readers take it to be out of range. -/
theorem appended_not_read : ∃ s, Run step (fun _ _ => True) smallState appendedRun s ∧ ¬Reads s := by
  obtain ⟨s, hrun, hs⟩ := Run.exists_of_follow step (fun _ _ => True) smallState appendedRun
    (fun s => decide (⟨.conditions, bytes "Ally()", 3⟩ ∈ s.history) &&
      decide ((readPool .conditions (s.pools .conditions) 3).2 = none)) (by decide +kernel)
  rw [Bool.and_eq_true, decide_eq_true_eq, decide_eq_true_eq] at hs
  refine ⟨s, hrun, ?_⟩
  intro hreads
  have hread := hreads _ hs.1 (by decide)
  rw [hs.2] at hread
  exact absurd hread nofun

end StatsPools
end Bg3le
