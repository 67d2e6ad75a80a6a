import Bg3le.Lua.Require

namespace Bg3le
namespace Require

variable {σ V F : Type} {mod : Mod σ V F} {s s' : State σ V} {origin : Origin} {code : Code σ V}
  {path path' : Bytes} {results : List V} {required : Bytes → Option (List V)}
  {history later : List (Event V)} {running : List Origin}

/-! ## What every clean step keeps -/

/-- The chunks that were executed are running or have their results kept. -/
structure Good (mod : Mod σ V F) (required : Bytes → Option (List V)) (history : List (Event V))
    (running : List Origin) : Prop where
  right : Throughout (Right mod) history
  executed : ∀ path, .executed path ∈ history →
    path = mod.boot ∨ .required path ∈ running ∨ required path ≠ none
  finished : ∀ path results, .finished path results ∈ history → required path = some results
  kept : ∀ path results, required path = some results → Right mod history (.answered path results)
  unfinished : ∀ path, .required path ∈ running →
    (mod.chunk path).isSome ∧ .executed path ∈ history ∧ required path = none
  distinct : running.Nodup

/-- A file whose chunk there is opens. -/
theorem same_self (h : (mod.chunk path).isSome) : mod.Same path path := by
  obtain ⟨chunk, hchunk⟩ := Option.isSome_iff_exists.mp h
  obtain ⟨f, hfile, -⟩ := Option.bind_eq_some_iff.mp hchunk
  refine ⟨?_, rfl⟩
  rw [hfile]
  rfl

/-- The paths that were executed are those of the history. -/
theorem mem_executedPaths : path ∈ executedPaths history ↔ .executed path ∈ history := by
  unfold executedPaths
  rw [List.mem_filterMap]
  constructor
  · rintro ⟨e, hmem, heq⟩
    cases e with
    | executed path' => exact Option.some.inj heq ▸ hmem
    | finished path' results => exact absurd heq nofun
    | answered path' results => exact absurd heq nofun
  · exact fun hmem => ⟨_, hmem, rfl⟩

/-- The answer for a file that is there is what it finished with. -/
theorem right_answered_of_chunk {chunk : σ → Code σ V} (h : mod.chunk path = some chunk) :
    Right mod history (.answered path results) ↔
      ∃ path', mod.Same path path' ∧ .finished path' results ∈ history := by
  rw [Right, h]
  exact Iff.of_eq (if_pos rfl)

/-- The answer for one that is not there is nothing. -/
theorem right_answered_of_none (h : mod.chunk path = none) :
    Right mod history (.answered path results) ↔ results = [] := by
  rw [Right, h]
  exact Iff.of_eq (if_neg nofun)

/-- An answer that was right stays so. -/
theorem Right.mono (h : Right mod history (.answered path results)) :
    Right mod (history ++ later) (.answered path results) := by
  cases hchunk : mod.chunk path with
  | none => exact (right_answered_of_none hchunk).mpr ((right_answered_of_none hchunk).mp h)
  | some chunk =>
    obtain ⟨path', hsame, hmem⟩ := (right_answered_of_chunk hchunk).mp h
    exact (right_answered_of_chunk hchunk).mpr ⟨path', hsame, List.mem_append_left _ hmem⟩

/-- An event of another kind than the last one came before. -/
theorem mem_of_mem_concat {e last : Event V} (h : e ∈ history ++ [last]) (hne : e ≠ last) :
    e ∈ history :=
  (List.mem_append.mp h).resolve_right fun hlast => hne (List.mem_singleton.mp hlast)

/-- An answer that is right is recorded. -/
theorem Good.answered (h : Good mod required history running)
    (hright : Right mod history (.answered path results)) :
    Good mod required (history ++ [.answered path results]) running where
  right := h.right.concat hright
  executed path' hmem := h.executed path' (mem_of_mem_concat hmem nofun)
  finished path' results' hmem := h.finished path' results' (mem_of_mem_concat hmem nofun)
  kept path' results' hkept := (h.kept path' results' hkept).mono
  unfinished path' hmem := by
    obtain ⟨hopens, hexecuted, hnone⟩ := h.unfinished path' hmem
    exact ⟨hopens, List.mem_append_left _ hexecuted, hnone⟩
  distinct := h.distinct

/-- Results are kept for a file that does not run, and that has none kept. -/
theorem Good.keep (h : Good mod required history running) (hnone : required path = none)
    (hidle : .required path ∉ running) (hright : Right mod history (.answered path results)) :
    Good mod (Function.update required path (some results)) history running := by
  have hself : Function.update required path (some results) path = some results :=
    Function.update_self _ _ _
  have hother {path' : Bytes} (hne : path' ≠ path) :
      Function.update required path (some results) path' = required path' :=
    Function.update_of_ne hne _ _
  refine ⟨h.right, ?_, ?_, ?_, ?_, h.distinct⟩
  · intro path' hmem
    by_cases heq : path' = path
    · right
      right
      rw [heq, hself]
      exact nofun
    · rw [hother heq]
      exact h.executed path' hmem
  · intro path' results' hmem
    have hkept := h.finished path' results' hmem
    rw [hother, hkept]
    intro heq
    rw [heq, hnone] at hkept
    exact absurd hkept nofun
  · intro path' results' hkept
    by_cases heq : path' = path
    · rw [heq, hself] at hkept
      rw [heq, ← Option.some.inj hkept]
      exact hright
    · rw [hother heq] at hkept
      exact h.kept path' results' hkept
  · intro path' hmem
    have hne : path' ≠ path := fun heq => hidle (heq ▸ hmem)
    rw [hother hne]
    exact h.unfinished path' hmem

/-- A chunk is over of which nothing has to be kept. -/
theorem Good.over (h : Good mod required history (origin :: running))
    (hover : ∀ path, origin = .required path → path = mod.boot) :
    Good mod required history running where
  right := h.right
  executed path hmem := by
    rcases h.executed path hmem with hboot | hrunning | hkept
    · exact Or.inl hboot
    · rcases List.mem_cons.mp hrunning with heq | hbelow
      · exact Or.inl (hover path heq.symm)
      · exact Or.inr (Or.inl hbelow)
    · exact Or.inr (Or.inr hkept)
  finished := h.finished
  kept := h.kept
  unfinished path hmem := h.unfinished path (List.mem_cons_of_mem _ hmem)
  distinct := (List.nodup_cons.mp h.distinct).2

/-- A file finishes: its results are kept before its chunk is over. -/
theorem Good.finish (h : Good mod required history (.required path :: running)) :
    Good mod (Function.update required path (some results))
      (history ++ [.finished path results]) running := by
  obtain ⟨hopens, hexecuted, hnone⟩ := h.unfinished path List.mem_cons_self
  obtain ⟨hidle, hdistinct⟩ := List.nodup_cons.mp h.distinct
  have hself : Function.update required path (some results) path = some results :=
    Function.update_self _ _ _
  have hother {path' : Bytes} (hne : path' ≠ path) :
      Function.update required path (some results) path' = required path' :=
    Function.update_of_ne hne _ _
  -- the fields in turn, each for this path and for the others
  refine ⟨h.right.concat hexecuted, ?_, ?_, ?_, ?_, hdistinct⟩
  · intro path' hmem
    by_cases heq : path' = path
    · right
      right
      rw [heq, hself]
      exact nofun
    · rw [hother heq]
      rcases h.executed path' (mem_of_mem_concat hmem nofun) with hboot | hrunning | hkept
      · exact Or.inl hboot
      · rcases List.mem_cons.mp hrunning with hpath | hbelow
        · exact absurd (Origin.required.inj hpath) heq
        · exact Or.inr (Or.inl hbelow)
      · exact Or.inr (Or.inr hkept)
  · intro path' results' hmem
    by_cases heq : path' = path
    · rcases List.mem_append.mp hmem with hold | hlast
      · rw [heq] at hold
        have hkept := h.finished path results' hold
        rw [hnone] at hkept
        exact absurd hkept nofun
      · rw [heq, hself, (Event.finished.inj (List.mem_singleton.mp hlast)).2]
    · rw [hother heq]
      apply h.finished path' results' (mem_of_mem_concat hmem _)
      exact fun hlast => heq (Event.finished.inj hlast).1
  · intro path' results' hkept
    by_cases heq : path' = path
    · obtain ⟨chunk, hchunk⟩ := Option.isSome_iff_exists.mp hopens
      rw [heq, hself] at hkept
      rw [heq, ← Option.some.inj hkept]
      apply (right_answered_of_chunk hchunk).mpr
      exact ⟨path, same_self hopens, List.mem_append_right _ List.mem_cons_self⟩
    · rw [hother heq] at hkept
      exact (h.kept path' results' hkept).mono
  · intro path' hmem
    have hne : path' ≠ path := fun heq => hidle (heq ▸ hmem)
    obtain ⟨hopens', hexecuted', hnone'⟩ := h.unfinished path' (List.mem_cons_of_mem _ hmem)
    exact ⟨hopens', List.mem_append_left _ hexecuted', (hother hne).trans hnone'⟩

/-- A file that is neither kept nor running was not executed under this path, nor under another. -/
theorem Good.new (h : Good mod required history running) (hnone : required path = none)
    (hidle : .required path ∉ running)
    (hspelled : ∀ path' ∈ executedPaths history, mod.Same path path' →
      path' = path ∧ path ≠ mod.boot) : Right mod history (.executed path) := by
  intro path' hmem hsame
  obtain ⟨rfl, hboot⟩ := hspelled path' (mem_executedPaths.mpr hmem) hsame
  rcases h.executed path' hmem with heq | hrunning | hkept
  · exact hboot heq
  · exact hidle hrunning
  · exact hkept hnone

/-- A file may be executed that was not yet, under any spelling. -/
theorem Good.execute (h : Good mod required history running) (hopens : (mod.chunk path).isSome)
    (hnone : required path = none) (hidle : .required path ∉ running)
    (hspelled : ∀ path' ∈ executedPaths history, mod.Same path path' →
      path' = path ∧ path ≠ mod.boot) :
    Good mod required (history ++ [.executed path]) (.required path :: running) where
  right := h.right.concat (h.new hnone hidle hspelled)
  executed path' hmem := by
    rcases List.mem_append.mp hmem with hold | hlast
    · rcases h.executed path' hold with heq | hrunning | hkept
      · exact Or.inl heq
      · exact Or.inr (Or.inl (List.mem_cons_of_mem _ hrunning))
      · exact Or.inr (Or.inr hkept)
    · rw [Event.executed.inj (List.mem_singleton.mp hlast)]
      exact Or.inr (Or.inl List.mem_cons_self)
  finished path' results' hmem := h.finished path' results' (mem_of_mem_concat hmem nofun)
  kept path' results' hkept := (h.kept path' results' hkept).mono
  unfinished path' hmem := by
    rcases List.mem_cons.mp hmem with heq | hbelow
    · rw [Origin.required.inj heq]
      exact ⟨hopens, List.mem_append_right _ List.mem_cons_self, hnone⟩
    · obtain ⟨hopens', hexecuted, hnone'⟩ := h.unfinished path' hbelow
      exact ⟨hopens', List.mem_append_left _ hexecuted, hnone'⟩
  distinct := List.nodup_cons.mpr ⟨hidle, h.distinct⟩

/-! ## The steps -/

/-- The file on top is running. -/
theorem running_of_current (h : s.current = some (origin, code)) :
    s.running = origin :: s.stack.map Frame.origin := by
  unfold State.running
  rw [h]
  rfl

theorem running_pop (s : State σ V) (answer : Option (List V)) :
    (s.pop answer).running = s.stack.map Frame.origin := by
  unfold State.pop
  split
  · next hstack =>
    unfold State.running
    rw [hstack]
    rfl
  · next frame rest hstack =>
    rw [hstack]
    rfl

/-- Going back to the caller changes neither history nor cache. -/
theorem frame_pop (s : State σ V) (answer : Option (List V)) :
    (s.pop answer).history = s.history ∧ (s.pop answer).required = s.required := by
  unfold State.pop
  split
  · exact ⟨rfl, rfl⟩
  · exact ⟨rfl, rfl⟩

/-- Where no chunk runs, none waits. -/
structure Inv (mod : Mod σ V F) (s : State σ V) : Prop
    extends Good mod s.required s.history s.running where
  idle : s.current = none → s.stack = []

/-- Nothing was required at the start. -/
theorem Inv.start (mod : Mod σ V F) (globals : σ) : Inv mod (start mod globals) := by
  unfold Require.start
  split
  · exact ⟨⟨.nil, nofun, nofun, nofun, nofun, List.nodup_nil⟩, fun _ => rfl⟩
  · refine ⟨⟨Throughout.nil.concat nofun, ?_, ?_, nofun, ?_, List.nodup_singleton _⟩, nofun⟩
    · intro path hmem
      left
      exact Event.executed.inj (List.mem_singleton.mp hmem)
    · intro path results hmem
      exact absurd (List.mem_singleton.mp hmem) nofun
    · intro path hmem
      exact absurd (List.mem_singleton.mp hmem) nofun

/-- What a require does. -/
theorem modRequire_cases (mod : Mod σ V F) (s : State σ V) (origin : Origin) (named : Bool)
    (path : Bytes) (next : σ → Option (List V) → Code σ V) :
    ((named || s.moduleUuid) = false ∧
      modRequire mod s origin named path next = s.resume origin (next s.globals none)) ∨
    (∃ results, s.required path = some results ∧ (named || s.moduleUuid) = true ∧
      modRequire mod s origin named path next =
        (s.record (.answered path results)).resume origin (next s.globals (some results))) ∨
    (s.required path = none ∧ mod.chunk path = none ∧
      modRequire mod s origin named path next =
        ((s.keep path []).record (.answered path [])).resume origin (next s.globals (some []))) ∨
    ∃ chunk, s.required path = none ∧ mod.chunk path = some chunk ∧
      (named || s.moduleUuid) = true ∧
      modRequire mod s origin named path next =
        { (s.record (.executed path)) with
          current := some (.required path, chunk s.globals)
          stack := ⟨origin, next⟩ :: s.stack } := by
  unfold modRequire
  by_cases hallowed : (named || s.moduleUuid) = true
  · rw [if_neg (by revert hallowed; cases named <;> simp)]
    right
    cases hkept : s.required path with
    | some results => exact Or.inl ⟨results, rfl, hallowed, rfl⟩
    | none =>
      right
      cases hchunk : mod.chunk path with
      | none => exact Or.inl ⟨rfl, rfl, rfl⟩
      | some chunk => exact Or.inr ⟨chunk, rfl, rfl, hallowed, rfl⟩
  · rw [Bool.not_eq_true] at hallowed
    rw [if_pos (by revert hallowed; cases named <;> simp)]
    exact Or.inl ⟨hallowed, rfl⟩

/-- What the end of a chunk does: its results are kept, or it is only over. -/
theorem finish_cases (s : State σ V) (origin : Origin) (results : Option (List V)) :
    (∃ path kept, origin = .required path ∧ results = some kept ∧ finish s origin results =
      (((s.record (.finished path kept)).keep path kept).record (.answered path kept)).pop
        (some kept)) ∨
    ((results = none ∨ ∀ path, origin ≠ .required path) ∧ finish s origin results = s.pop none) := by
  unfold finish
  split
  · next path kept => exact Or.inl ⟨path, kept, rfl, rfl, rfl⟩
  · next hother =>
    right
    refine ⟨?_, rfl⟩
    cases results with
    | none => exact Or.inl rfl
    | some kept => exact Or.inr fun path heq => hother path kept heq rfl

theorem Inv.good (h : Inv mod s) (hcurrent : s.current = some (origin, code)) :
    Good mod s.required s.history (origin :: s.stack.map Frame.origin) := by
  rw [← running_of_current hcurrent]
  exact h.toGood

/-- The code on top may go on. -/
theorem Good.resume (h : Good mod s.required s.history (origin :: s.stack.map Frame.origin)) :
    Inv mod (s.resume origin code) :=
  ⟨h, nofun⟩

/-- A call may return to the one below. -/
theorem Good.pop (h : Good mod s.required s.history (s.stack.map Frame.origin))
    (answer : Option (List V)) : Inv mod (s.pop answer) where
  toGood := by
    obtain ⟨hhistory, hrequired⟩ := frame_pop s answer
    rw [hhistory, hrequired, running_pop]
    exact h
  idle := by
    unfold State.pop
    split
    · next hstack => exact fun _ => hstack
    · exact nofun

/-- A clean require. -/
theorem Inv.modRequire (h : Inv mod s) (hcurrent : s.current = some (origin, code)) {named : Bool}
    (hclean : (named || s.moduleUuid) = true → .required path ∉ s.running ∧
      ∀ path' ∈ executedPaths s.history, mod.Same path path' → path' = path ∧ path ≠ mod.boot)
    (next : σ → Option (List V) → Code σ V) :
    Inv mod (modRequire mod s origin named path next) := by
  have hgood := h.good hcurrent
  rcases modRequire_cases mod s origin named path next with
    ⟨-, heq⟩ | ⟨results, hkept, -, heq⟩ | ⟨hnone, hchunk, heq⟩ | ⟨chunk, hnone, hchunk, hallowed, heq⟩
  · rw [heq]
    exact hgood.resume
  · rw [heq]
    apply Good.resume
    exact hgood.answered (h.kept path results hkept)
  · rw [heq]
    have hright : Right mod s.history (.answered path []) := (right_answered_of_none hchunk).mpr rfl
    have hidle : .required path ∉ origin :: s.stack.map Frame.origin := by
      intro hmem
      have hopens := (hgood.unfinished path hmem).1
      rw [hchunk] at hopens
      exact absurd hopens nofun
    apply Good.resume
    exact (hgood.keep hnone hidle hright).answered hright
  · rw [heq]
    obtain ⟨hidle, hspelled⟩ := hclean hallowed
    rw [running_of_current hcurrent] at hidle
    refine ⟨?_, nofun⟩
    exact hgood.execute (by rw [hchunk]; rfl) hnone hidle hspelled

/-- The end of a chunk whose error, if it is one, is printed. -/
theorem Inv.finish (h : Inv mod s) (hcurrent : s.current = some (origin, code))
    {results : Option (List V)} (hclean : ∀ path, origin = .required path → results ≠ none) :
    Inv mod (finish s origin results) := by
  have hgood := h.good hcurrent
  rcases finish_cases s origin results with ⟨path, kept, horigin, -, heq⟩ | ⟨hover, heq⟩
  · rw [heq]
    rw [horigin] at hgood
    have hopens := (hgood.unfinished path List.mem_cons_self).1
    obtain ⟨chunk, hchunk⟩ := Option.isSome_iff_exists.mp hopens
    apply Good.pop
    apply hgood.finish.answered
    apply (right_answered_of_chunk hchunk).mpr
    exact ⟨path, same_self hopens, List.mem_append_right _ List.mem_cons_self⟩
  · rw [heq]
    apply Good.pop
    apply hgood.over
    intro path horigin
    rcases hover with hnone | hother
    · exact absurd hnone (hclean path horigin)
    · exact absurd horigin (hother path)

/-- A chunk that returns is finished. -/
theorem step_returns {globals : σ} (h : s.current = some (origin, .returns globals results)) :
    step mod s .step = some (finish { s with globals } origin (some results)) := by
  simp only [step, h]

/-- So is one that raises, without results. -/
theorem step_raises {globals : σ} {printed : Bool}
    (h : s.current = some (origin, .raises globals printed)) : step mod s .step =
      some (finish { s with globals } origin (if printed then some [] else none)) := by
  simp only [step, h]

/-- A chunk may require another file. -/
theorem step_require {globals : σ} {named : Bool} {next : σ → Option (List V) → Code σ V}
    (h : s.current = some (origin, .require globals named path next)) :
    step mod s .step = some (modRequire mod { s with globals } origin named path next) := by
  simp only [step, h]

/-- The globals do not matter. -/
theorem Inv.withGlobals (h : Inv mod s) (globals : σ) : Inv mod { s with globals } :=
  ⟨h.toGood, h.idle⟩

/-- A call from outside starts where nothing runs. -/
theorem Inv.call (h : Inv mod s) (hnone : s.current = none) (moduleUuid : Bool) (code : Code σ V) :
    Inv mod { s with moduleUuid, current := some (.outside, code) } := by
  have hstack := h.idle hnone
  have hrunning : s.running = [] := by
    unfold State.running
    rw [hnone, hstack]
    rfl
  have hgood := h.toGood
  rw [hrunning] at hgood
  refine ⟨?_, nofun⟩
  show Good mod s.required s.history (.outside :: s.stack.map Frame.origin)
  rw [hstack]
  refine { hgood with executed := ?_, unfinished := ?_, distinct := List.nodup_singleton _ }
  · intro path hmem
    rcases hgood.executed path hmem with hboot | hrunning | hkept
    · exact Or.inl hboot
    · exact absurd hrunning List.not_mem_nil
    · exact Or.inr (Or.inr hkept)
  · intro path hmem
    exact absurd (List.mem_singleton.mp hmem) nofun

/-- Every step of a clean run keeps the history right. -/
theorem Inv.step {a : Action σ V} (h : Inv mod s) (hclean : Clean mod s a)
    (hstep : step mod s a = some s') : Inv mod s' := by
  cases a with
  | call moduleUuid code =>
    obtain ⟨hidle, hsome⟩ := Option.ite_none_right_eq_some.mp hstep
    rw [← Option.some.inj hsome]
    exact h.call (Option.isNone_iff_eq_none.mp hidle) moduleUuid code
  | step =>
    cases hcurrent : s.current with
    | none =>
      simp only [Require.step, hcurrent] at hstep
      exact absurd hstep nofun
    | some chunk =>
      obtain ⟨origin, code⟩ := chunk
      have hchunk := hclean _ hcurrent
      cases code with
      | returns globals results =>
        rw [step_returns hcurrent] at hstep
        rw [← Option.some.inj hstep]
        exact (h.withGlobals globals).finish hcurrent fun _ _ => nofun
      | raises globals printed =>
        rw [step_raises hcurrent] at hstep
        rw [← Option.some.inj hstep]
        apply (h.withGlobals globals).finish hcurrent
        intro path horigin
        rw [horigin] at hchunk
        rw [if_pos (show printed = true from hchunk)]
        exact nofun
      | require globals named path next =>
        rw [step_require hcurrent] at hstep
        rw [← Option.some.inj hstep]
        exact (h.withGlobals globals).modRequire hcurrent hchunk next

/-- So does the whole run. -/
theorem Inv.of_run {globals : σ} {actions : List (Action σ V)}
    (h : Run (Require.step mod) (Clean mod) (Require.start mod globals) actions s) : Inv mod s :=
  h.invariant (Inv.start mod globals) fun _ _ _ hinv hclean hstep => hinv.step hclean hstep

/-- A file that has finished is not executed for a require. -/
theorem Inv.answers (h : Inv mod s) : Answers mod s := by
  intro origin globals named path path' next results hcurrent hclean hsame hfinished hallowed
  refine ⟨_, step_require hcurrent, ?_⟩
  have hkept : s.required path = some results := by
    obtain ⟨past, later, hsplit, hexecuted⟩ := h.right.of_mem hfinished
    have hmem : .executed path' ∈ s.history := by
      rw [hsplit]
      exact List.mem_append_left _ hexecuted
    obtain ⟨rfl, -⟩ := (hclean _ hcurrent hallowed).2 path' (mem_executedPaths.mpr hmem) hsame
    exact h.finished path' results hfinished
  rcases modRequire_cases mod { s with globals } origin named path next with
    ⟨hrefused, -⟩ | ⟨results', hkept', -, heq⟩ | ⟨hnone, -⟩ | ⟨chunk, hnone, -⟩
  · exact absurd (hallowed.symm.trans hrefused) nofun
  · rw [heq, Option.some.inj (hkept.symm.trans hkept')]
    rfl
  · exact absurd (hkept.symm.trans hnone) nofun
  · exact absurd (hkept.symm.trans hnone) nofun

/-! ## The end of a load -/

/-- The files of the mod that were executed. -/
def executedFiles (mod : Mod σ V F) (history : List (Event V)) : List F :=
  (executedPaths history).filterMap mod.file

/-- The files that were executed are those of the paths. -/
theorem mem_executedFiles {f : F} : f ∈ executedFiles mod history ↔
    ∃ path, .executed path ∈ history ∧ mod.file path = some f := by
  unfold executedFiles
  rw [List.mem_filterMap]
  simp only [mem_executedPaths]

open Classical in
/-- The number of files of the mod that were not executed. -/
noncomputable def remaining (mod : Mod σ V F) (history : List (Event V)) : ℕ :=
  (mod.files \ (executedFiles mod history).toFinset).card

open Classical in
/-- A file remains if none of its paths was executed. -/
theorem mem_remaining {f : F} : f ∈ mod.files \ (executedFiles mod history).toFinset ↔
    f ∈ mod.files ∧ ∀ path, .executed path ∈ history → mod.file path ≠ some f := by
  rw [Finset.mem_sdiff, List.mem_toFinset, mem_executedFiles, not_exists]
  simp only [not_and, ne_eq]

/-- No file remains that did not before. -/
theorem remaining_le (hstart : history <+: later) : remaining mod later ≤ remaining mod history := by
  apply Finset.card_le_card
  intro f hmem
  rw [mem_remaining] at hmem ⊢
  exact ⟨hmem.1, fun path hold => hmem.2 path (hstart.subset hold)⟩

/-- Each file that is executed leaves one fewer. -/
theorem remaining_executed {chunk : σ → Code σ V} (hchunk : mod.chunk path = some chunk)
    (hnew : Right mod history (.executed path)) :
    remaining mod (history ++ [.executed path]) < remaining mod history := by
  obtain ⟨f, hfile, -⟩ := Option.bind_eq_some_iff.mp hchunk
  apply Finset.card_lt_card
  refine Finset.ssubset_iff_of_subset ?_ |>.mpr ⟨f, ?_, ?_⟩
  · intro f' hmem
    rw [mem_remaining] at hmem ⊢
    exact ⟨hmem.1, fun path' hold => hmem.2 path' (List.mem_append_left _ hold)⟩
  · rw [mem_remaining]
    refine ⟨mod.mem_files path f hfile, fun path' hold hother => hnew path' hold ?_⟩
    exact ⟨by rw [hfile]; rfl, hother.trans hfile.symm⟩
  · rw [mem_remaining]
    exact fun h => h.2 path (List.mem_append_right _ List.mem_cons_self) hfile

/-- Some number of clean steps leads from one state to the other. -/
def Leads (mod : Mod σ V F) (s s' : State σ V) : Prop :=
  ∃ n, Run (step mod) (Clean mod) s (List.replicate n .step) s'

theorem Leads.refl (s : State σ V) : Leads mod s s := ⟨0, .refl s⟩

/-- One run may go on with another. -/
theorem Leads.trans {s'' : State σ V} (h : Leads mod s s') (h' : Leads mod s' s'') :
    Leads mod s s'' := by
  obtain ⟨n, hrun⟩ := h
  obtain ⟨m, hrun'⟩ := h'
  refine ⟨n + m, ?_⟩
  rw [← List.replicate_append_replicate]
  exact hrun.append hrun'

/-- A clean step is a run. -/
theorem Leads.single (hclean : Clean mod s .step) (hstep : step mod s .step = some s') :
    Leads mod s s' :=
  ⟨1, Run.cons hclean hstep (.refl s')⟩

/-- The chunk that ran is over, and the one that waited for it goes on. -/
structure Popped (mod : Mod σ V F) (s s' : State σ V) : Prop where
  inv : Inv mod s'
  stack : s'.stack = s.stack.tail
  current : ∃ globals answer, s'.current =
    s.stack.head?.map fun frame => (frame.origin, frame.next globals answer)
  history : s.history <+: s'.history

/-- A call that returns is back where it was made. -/
theorem popped_pop (s t : State σ V) (hstack : t.stack = s.stack) (hhistory : s.history <+: t.history)
    {answer : Option (List V)} (hinv : Inv mod (t.pop answer)) : Popped mod s (t.pop answer) where
  inv := hinv
  stack := by
    unfold State.pop
    split
    · next hnil =>
      rw [← hstack, hnil]
      rfl
    · next frame rest hcons =>
      rw [← hstack, hcons]
      rfl
  current := by
    refine ⟨t.globals, answer, ?_⟩
    unfold State.pop
    split
    · next hnil =>
      rw [← hstack, hnil]
      rfl
    · next frame rest hcons =>
      rw [← hstack, hcons]
      rfl
  history := by
    rw [(frame_pop t answer).1]
    exact hhistory

/-- A chunk that is finished is back where it was required. -/
theorem popped_finish (s t : State σ V) (hstack : t.stack = s.stack)
    (hhistory : t.history = s.history) {results : Option (List V)} (h : Inv mod (finish t origin results)) :
    Popped mod s (finish t origin results) := by
  rcases finish_cases t origin results with ⟨path, kept, -, -, heq⟩ | ⟨-, heq⟩
  · rw [heq] at h ⊢
    refine popped_pop s (((t.record _).keep path kept).record _) hstack ?_ h
    rw [← hhistory]
    exact (List.prefix_append _ _).trans (List.prefix_append _ _)
  · rw [heq] at h ⊢
    apply popped_pop s t hstack _ h
    rw [hhistory]

/-- The chunk below is that of the state before, so it is over when that one is. -/
theorem Popped.trans {s'' : State σ V} (hstack : s'.stack = s.stack)
    (hhistory : s.history <+: s'.history) (h : Popped mod s' s'') : Popped mod s s'' where
  inv := h.inv
  stack := by rw [h.stack, hstack]
  current := by
    rw [← hstack]
    exact h.current
  history := hhistory.trans h.history

/-- What a clean require leads to: the chunk goes on, or the chunk of a file starts. -/
theorem require_cases (h : Inv mod s) {globals : σ} {named : Bool}
    {next : σ → Option (List V) → Code σ V}
    (hcurrent : s.current = some (origin, .require globals named path next))
    (hclean : Clean mod s .step) :
    ∃ s', step mod s .step = some s' ∧ s.history <+: s'.history ∧
      ((s'.stack = s.stack ∧ ∃ answer, s'.current = some (origin, next globals answer)) ∨
        ∃ code, s'.stack = ⟨origin, next⟩ :: s.stack ∧ s'.current = some (.required path, code) ∧
          remaining mod s'.history < remaining mod s.history) := by
  refine ⟨_, step_require hcurrent, ?_⟩
  rcases modRequire_cases mod { s with globals } origin named path next with
    ⟨-, heq⟩ | ⟨results, -, -, heq⟩ | ⟨-, -, heq⟩ | ⟨chunk, hnone, hchunk, hallowed, heq⟩
  · rw [heq]
    exact ⟨List.prefix_rfl, Or.inl ⟨rfl, _, rfl⟩⟩
  · rw [heq]
    exact ⟨List.prefix_append _ _, Or.inl ⟨rfl, _, rfl⟩⟩
  · rw [heq]
    exact ⟨List.prefix_append _ _, Or.inl ⟨rfl, _, rfl⟩⟩
  · rw [heq]
    obtain ⟨hidle, hspelled⟩ := hclean _ hcurrent hallowed
    refine ⟨List.prefix_append _ _, Or.inr ⟨_, rfl, rfl, ?_⟩⟩
    exact remaining_executed hchunk (h.new hnone hidle hspelled)

/-- A chunk comes to its end, or to a step that is not clean: by induction on the files that are
left, and on what is left of the chunk. -/
theorem ends (k : ℕ) (code : Code σ V) {s : State σ V} {origin : Origin} (h : Inv mod s)
    (hcurrent : s.current = some (origin, code)) (hk : remaining mod s.history ≤ k) :
    ∃ s', Leads mod s s' ∧ (¬Clean mod s' .step ∨ Popped mod s s') := by
  induction k using Nat.strong_induction_on generalizing code s origin with
  | _ k ihFiles =>
    induction code generalizing s with
    | returns globals results =>
      have hclean : Clean mod s .step := by
        intro chunk hchunk
        rw [← Option.some.inj (hcurrent.symm.trans hchunk)]
        cases origin with
        | boot | required _ | outside => trivial
      have hstep : step mod s .step = some _ := step_returns hcurrent
      exact ⟨_, .single hclean hstep, Or.inr (popped_finish s { s with globals } rfl rfl (h.step hclean hstep))⟩
    | raises globals printed =>
      by_cases hclean : Clean mod s .step
      · have hstep : step mod s .step = some _ := step_raises hcurrent
        exact ⟨_, .single hclean hstep, Or.inr (popped_finish s { s with globals } rfl rfl (h.step hclean hstep))⟩
      · exact ⟨s, .refl s, Or.inl hclean⟩
    | require globals named path next ihCode =>
      by_cases hclean : Clean mod s .step
      · obtain ⟨s₁, hstep, hhistory, hwhere⟩ := require_cases h hcurrent hclean
        have hfirst : Leads mod s s₁ := .single hclean hstep
        have hinv := h.step hclean hstep
        rcases hwhere with ⟨hstack, answer, hnext⟩ | ⟨code, hstack, hrequired, hfewer⟩
        · obtain ⟨s₂, hleads, hend⟩ := ihCode _ _ hinv hnext ((remaining_le hhistory).trans hk)
          refine ⟨s₂, hfirst.trans hleads, hend.imp_right ?_⟩
          exact fun hpopped => hpopped.trans hstack hhistory
        · -- the file runs to its end, and then this chunk goes on
          obtain ⟨s₂, hleads, hunclean | hpopped⟩ :=
            ihFiles _ (hfewer.trans_le hk) code hinv hrequired le_rfl
          · exact ⟨s₂, hfirst.trans hleads, Or.inl hunclean⟩
          · obtain ⟨globals', answer, hnext⟩ := hpopped.current
            rw [hstack] at hnext
            have hhistory' := hhistory.trans hpopped.history
            have hstack' : s₂.stack = s.stack := by rw [hpopped.stack, hstack, List.tail_cons]
            obtain ⟨s₃, hleads', hend⟩ :=
              ihCode _ _ hpopped.inv hnext ((remaining_le hhistory').trans hk)
            refine ⟨s₃, (hfirst.trans hleads).trans hleads', hend.imp_right ?_⟩
            exact fun hlast => hlast.trans hstack' hhistory'
      · exact ⟨s, .refl s, Or.inl hclean⟩

/-- A load comes to its end, or to a step that is not clean. -/
theorem load_ends (mod : Mod σ V F) (globals : σ) : ∃ s, Leads mod (start mod globals) s ∧
    (s.current = none ∨ ¬Clean mod s .step) := by
  have hinv := Inv.start mod globals
  unfold Require.start at hinv ⊢
  split
  · exact ⟨_, .refl _, Or.inl rfl⟩
  · next chunk hchunk =>
    rw [hchunk] at hinv
    obtain ⟨s, hleads, hunclean | hpopped⟩ := ends _ (chunk globals) hinv rfl le_rfl
    · exact ⟨s, hleads, Or.inr hunclean⟩
    · obtain ⟨_, _, hcurrent⟩ := hpopped.current
      exact ⟨s, hleads, Or.inl hcurrent⟩

/-- With clean requires only, no chunk is executed again, a require of a file that has finished
returns the results of its execution, and the load ends. -/
theorem requires_of_run (mod : Mod σ V F) (globals : σ) :
    (∀ actions s, Run (step mod) (Clean mod) (start mod globals) actions s →
      Throughout (Right mod) s.history ∧ Answers mod s) ∧
    ∃ n s, Run (step mod) (Clean mod) (start mod globals) (List.replicate n .step) s ∧
      (s.current = none ∨ ¬Clean mod s .step) := by
  constructor
  · intro actions s hrun
    have hinv := Inv.of_run hrun
    exact ⟨hinv.right, hinv.answers⟩
  · obtain ⟨s, ⟨n, hrun⟩, hend⟩ := load_ends mod globals
    exact ⟨n, s, hrun, hend⟩

def bootFile : Bytes := bytes "BootstrapServer.lua"

def firstFile : Bytes := bytes "First.lua"

def secondFile : Bytes := bytes "Second.lua"

/-- A mod of three files on the disk, the text of each being its name. -/
def smallMod (load : Bytes → Option (ℕ → Code ℕ ℕ)) : Mod ℕ ℕ Bytes where
  identified := true
  boot := bootFile
  file path :=
    let name := if bytes "./" <+: path then path.drop 2 else path
    if [bootFile, firstFile, secondFile].contains name then some name else none
  text := id
  load := load
  files := [bootFile, firstFile, secondFile].toFinset
  mem_files path f h := by
    obtain ⟨hmem, heq⟩ := Option.ite_none_right_eq_some.mp h
    rw [List.mem_toFinset, ← Option.some.inj heq]
    exact List.contains_iff_mem.mp hmem

/-- The bootstrap requires both files, and the second again; the first requires the second, which
fails, and a file that does not exist. -/
def treeMod : Mod ℕ ℕ Bytes := smallMod fun text =>
  if text = bootFile then some fun g =>
    .require g false firstFile fun g _ => .require g true secondFile fun g _ => .returns g []
  else if text = firstFile then some fun g =>
    .require g false secondFile fun g _ => .require g false (bytes "Third.lua") fun g results =>
      .returns (g + 1) (results.getD [] ++ [7])
  else some fun g => .raises g true

/-- A file that requires another, which is required again. -/
theorem requires_of_run_demo : ∃ s, Run (step treeMod) (Clean treeMod) (start treeMod 0)
    (List.replicate 7 .step) s ∧ s.current.isNone = true ∧
    .answered firstFile [7] ∈ s.history ∧ Throughout (Right treeMod) s.history := by
  obtain ⟨s, hrun, hs⟩ := Run.exists_of_follow (step treeMod) (Clean treeMod) (start treeMod 0)
    (List.replicate 7 .step)
    (fun s => s.current.isNone && decide (.answered firstFile [7] ∈ s.history)) (by decide +kernel)
  rw [Bool.and_eq_true, decide_eq_true_eq] at hs
  exact ⟨s, hrun, hs.1, hs.2, ((requires_of_run treeMod 0).1 _ s hrun).1⟩

/-- The first file requires itself. -/
def cycleMod : Mod ℕ ℕ Bytes := smallMod fun text =>
  if text = bootFile then some fun g => .require g false firstFile fun g _ => .returns g []
  else some fun g => .require g false firstFile fun g _ => .returns g []

/-- It is executed again before it has finished. -/
theorem cycle_executes_again : ∃ s, Run (step cycleMod) (fun _ _ => True) (start cycleMod 0)
    [.step, .step] s ∧ ¬Throughout (Right cycleMod) s.history := by
  obtain ⟨s, hrun, hhistory⟩ := Run.exists_of_follow (step cycleMod) (fun _ _ => True)
    (start cycleMod 0) [.step, .step]
    (fun s => s.history = [.executed bootFile, .executed firstFile, .executed firstFile])
    (by decide +kernel)
  refine ⟨s, hrun, ?_⟩
  intro hright
  have hsecond := hright [.executed bootFile, .executed firstFile] (.executed firstFile) []
    (of_decide_eq_true hhistory)
  exact hsecond firstFile (List.mem_cons_of_mem _ List.mem_cons_self) (by decide +kernel)

/-- The bootstrap requires the first file by two spellings of its path. -/
def spelledMod : Mod ℕ ℕ Bytes := smallMod fun text =>
  if text = bootFile then some fun g => .require g false firstFile fun g _ =>
    .require g false (bytes "./First.lua") fun g _ => .returns g []
  else some fun g => .returns g []

-- the file runs once for each of them
example : ∃ s, Run (step spelledMod) (fun _ _ => True) (start spelledMod 0) [.step, .step, .step] s ∧
    decide (.executed firstFile ∈ s.history ∧ .executed (bytes "./First.lua") ∈ s.history) = true :=
  Run.exists_of_follow _ _ _ _ _ (by decide +kernel)

end Require
end Bg3le
