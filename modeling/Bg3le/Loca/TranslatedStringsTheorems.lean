import Mathlib.Tactic.Common
import Bg3le.Loca.TranslatedStrings
import Bg3le.Library.Run

/-!
# Last write wins

The text of every handle is the one set last, in every run where no direct store overtakes a
write that the monitor has swapped out and not replayed yet. Nothing in `translated_string_set`
prevents the overtaking: the queue it looks at is empty as soon as the monitor swapped it.
-/

namespace Bg3le
namespace Loca

/-- The text of the last write to the handle. -/
def lastText (handle : Handle) : List (Handle × Text) → Option Text
  | [] => none
  | (h, text) :: writes => (lastText handle writes).or (if h = handle then some text else none)

/-- The writes that took effect in the queue and are still to be stored, in order. -/
def State.queue (s : State) : List (Handle × Text) := s.monitor.pending ++ s.pending

/-- The repository is up and every queued write was stored. -/
structure Applied (s : State) : Prop where
  up : s.up = true
  queue : s.queue = []

/-- Every handle has the text of the last call for it, save where the repository refused that
call's write or the version line came after it. -/
def LastWriteWins (s : State) : Prop :=
  ∀ handle text, lastText handle s.effects = some text → s.excepted handle = false →
    s.stored handle = some text

/-- The write that an action stores directly. -/
def storesDirectly (s : State) : Action → Option (Handle × Text)
  | .direct caller true =>
    match s.callers caller with
    | .found handle text =>
      if s.pending = [] ∧ s.suffix = [] then some (handle, text) else none
    | _ => none
  | _ => none

/-- No direct store to a handle while the writes the monitor swapped out still end, for that
handle, in another text. -/
def KeepsOrder (s : State) (a : Action) : Prop :=
  ∀ write ∈ storesDirectly s a, ∀ text ∈ lastText write.1 s.monitor.pending, text = write.2

instance (s : State) (a : Action) : Decidable (KeepsOrder s a) :=
  inferInstanceAs (Decidable (∀ write ∈ storesDirectly s a, _))

/-! ## The last of several writes -/

@[simp] theorem lastText_nil (handle : Handle) : lastText handle [] = none := rfl

theorem lastText_append (handle : Handle) (writes more : List (Handle × Text)) :
    lastText handle (writes ++ more) = (lastText handle more).or (lastText handle writes) := by
  induction writes with
  | nil => simp
  | cons write writes ih => simp [lastText, ih, Option.or_assoc]

@[simp] theorem lastText_concat (handle h : Handle) (writes : List (Handle × Text)) (text : Text) :
    lastText handle (writes ++ [(h, text)]) =
      if h = handle then some text else lastText handle writes := by
  rw [lastText_append]
  by_cases hh : h = handle <;> simp [lastText, hh]

/-! ## What every run keeps -/

/-- A handle's last call is the last queued write for it, or it is stored and nothing is queued
for it. -/
structure InOrder (s : State) : Prop where
  last : ∀ handle text, lastText handle s.effects = some text →
    lastText handle s.queue = some text ∨
      lastText handle s.queue = none ∧ (s.excepted handle = true ∨ s.stored handle = some text)
  down : s.up = false → s.effects = s.queue
  monitor : s.up = false → s.monitor = .off ∨ s.monitor = .waiting
  found : ∀ caller handle text, s.callers caller = .found handle text → s.up = true

theorem InOrder.init : InOrder {} where
  last := by simp
  down _ := rfl
  monitor _ := .inl rfl
  found := by simp

section
variable {s s' : State}

/-- A step that writes nothing and leaves the queue as it was. -/
theorem InOrder.of_queue_eq (h : InOrder s) (effects : s'.effects = s.effects)
    (queue : s'.queue = s.queue) (stored : s'.stored = s.stored)
    (excepted : s'.excepted = s.excepted) (up : s'.up = s.up)
    (monitor : s.up = false → s'.monitor = .off ∨ s'.monitor = .waiting)
    (found : ∀ caller handle text, s'.callers caller = .found handle text → s.up = true) :
    InOrder s' where
  last := by rw [effects, queue, stored, excepted]; exact h.last
  down := by rw [effects, queue, up]; exact h.down
  monitor := by rwa [up]
  found := by rwa [up]

/-- A thread whose next step is not a direct store. -/
theorem InOrder.found_setCaller (h : InOrder s) {c : ℕ} {next : Caller}
    (hnext : ∀ handle text, next = .found handle text → s.up = true) (caller : ℕ)
    (handle : Handle) (text : Text)
    (hc : (s.setCaller c next).callers caller = .found handle text) : s.up = true := by
  by_cases hcaller : caller = c
  · subst hcaller
    exact hnext handle text (by simpa [State.setCaller] using hc)
  · exact h.found caller handle text (by simpa [State.setCaller, hcaller] using hc)

theorem InOrder.setCaller (h : InOrder s) (c : ℕ) (next : Caller)
    (hnext : ∀ handle text, next = .found handle text → s.up = true) :
    InOrder (s.setCaller c next) :=
  h.of_queue_eq rfl rfl rfl rfl rfl h.monitor (h.found_setCaller hnext)

theorem InOrder.setMonitor (h : InOrder s) {monitor : Monitor}
    (pending : monitor.pending = s.monitor.pending)
    (hdown : s.up = false → monitor = .off ∨ monitor = .waiting) :
    InOrder { s with monitor } :=
  h.of_queue_eq rfl (by simp only [State.queue, pending]) rfl rfl rfl hdown h.found

theorem InOrder.startMonitor (h : InOrder s) : InOrder s.startMonitor := by
  unfold State.startMonitor
  split
  next hoff => exact h.setMonitor (by simp [hoff]) fun _ => .inr rfl
  next => exact h

theorem InOrder.up_of_monitor (h : InOrder s) (hoff : s.monitor ≠ .off)
    (hwaiting : s.monitor ≠ .waiting) : s.up = true := by
  by_contra hup
  rcases h.monitor (by simpa using hup) with h | h
  · exact hoff h
  · exact hwaiting h

/-- Before the repository is up nothing was stored, so what it loads with is no write's text. -/
theorem InOrder.load (h : InOrder s) (hup : s.up = false) (texts : Handle → Option Text) :
    InOrder { s with up := true, stored := texts } where
  last handle text htext := by
    rw [h.down hup] at htext
    exact .inl htext
  down hup := by simp at hup
  monitor hup := by simp at hup
  found _ _ _ _ := rfl

/-- The queue is empty and the swapped-out writes do not end in another text, so the direct store
is the last write wherever it is replayed over. -/
theorem InOrder.direct (h : InOrder s) {c : ℕ} {handle : Handle} {text : Text}
    (hc : s.callers c = .found handle text) (hpending : s.pending = [])
    (horder : ∀ t ∈ lastText handle s.monitor.pending, t = text) :
    InOrder { (s.store handle text true).setCaller c .idle with
      effects := s.effects ++ [(handle, text)]
      excepted := Function.update s.excepted handle false } := by
  have hup : s.up = true := h.found c handle text hc
  have hqueue : s.queue = s.monitor.pending := by simp [State.queue, hpending]
  refine ⟨fun other t ht => ?_, fun hdown => ?_, fun hdown => ?_, ?_⟩
  · simp only [lastText_concat] at ht
    change lastText other s.queue = some t ∨ lastText other s.queue = none ∧
      (Function.update s.excepted handle false other = true ∨
        (s.store handle text true).stored other = some t)
    by_cases hother : handle = other
    · subst hother
      obtain rfl : text = t := by simpa using ht
      rw [hqueue]
      cases hlast : lastText handle s.monitor.pending with
      | none => exact .inr ⟨rfl, .inr (by simp [State.store])⟩
      | some last => exact .inl (by rw [horder last hlast])
    · rw [if_neg hother] at ht
      simpa [State.store, Ne.symm hother] using h.last other t ht
  · exact absurd hdown (by simp [State.setCaller, State.store, hup])
  · exact absurd hdown (by simp [State.setCaller, State.store, hup])
  · intro caller handle' text' _
    simp [State.setCaller, State.store, hup]

theorem InOrder.enqueue (h : InOrder s) (c : ℕ) (handle : Handle) (text : Text) :
    InOrder { s.setCaller c .queued with
      pending := s.pending ++ [(handle, text)], effects := s.effects ++ [(handle, text)] } := by
  refine ⟨fun other t ht => ?_, fun hup => ?_, h.monitor, h.found_setCaller (by simp)⟩
  · simp only [lastText_concat] at ht
    simp only [State.queue, State.setCaller, ← List.append_assoc, lastText_concat]
    split_ifs at ht ⊢ with hother
    · exact .inl ht
    · exact h.last other t ht
  · simp [State.queue, State.setCaller, h.down hup, List.append_assoc]

theorem InOrder.swap (h : InOrder s) (hfound : s.monitor = .found) {monitor : Monitor}
    (pending : monitor.pending = s.pending) :
    InOrder { s with pending := [], suffix := [], monitor } := by
  have hup : s.up = true := h.up_of_monitor (by simp [hfound]) (by simp [hfound])
  have hqueue : s.queue = s.pending := by simp [State.queue, hfound]
  refine h.of_queue_eq rfl ?_ rfl rfl rfl (by simp [hup]) h.found
  rw [hqueue, State.queue, pending, List.append_nil]

theorem InOrder.storeVersion (h : InOrder s) {line : Text} {pending : List (Handle × Text)}
    (hm : s.monitor = .versionStore line pending) (ok : Bool) :
    InOrder { s.store kCheckHandle line ok with
      monitor := .replaying pending
      excepted := if ok then Function.update s.excepted kCheckHandle true else s.excepted } := by
  have hup : s.up = true := h.up_of_monitor (by simp [hm]) (by simp [hm])
  cases ok with
  | false => exact h.setMonitor (by simp [hm]) (by simp [hup])
  | true =>
    refine ⟨fun handle t ht => ?_, ?_, ?_, fun _ _ _ _ => by simp [State.store, hup]⟩
    · have hqueue : s.queue = pending ++ s.pending := by simp [State.queue, hm]
      have hlast := h.last handle t ht
      rw [hqueue] at hlast
      by_cases hcheck : handle = kCheckHandle
      · rcases hlast with hlast | hlast
        · exact .inl hlast
        · exact .inr ⟨hlast.1, .inl (by simp [hcheck])⟩
      · simpa [State.queue, State.store, hcheck] using hlast
    all_goals simp [State.store, hup]

theorem InOrder.replay (h : InOrder s) {handle : Handle} {text : Text}
    {pending : List (Handle × Text)} (hm : s.monitor = .replaying ((handle, text) :: pending))
    (ok : Bool) :
    InOrder { s.store handle text ok with
      monitor := .replaying pending, excepted := Function.update s.excepted handle (!ok) } := by
  have hup : s.up = true := h.up_of_monitor (by simp [hm]) (by simp [hm])
  have hup' : (s.store handle text ok).up = true := by cases ok <;> simpa [State.store]
  refine ⟨fun other t ht => ?_, by simp [hup'], by simp [hup'], fun _ _ _ _ => hup'⟩
  have heffects : (s.store handle text ok).effects = s.effects := by
    cases ok <;> simp [State.store]
  have hpending : (s.store handle text ok).pending = s.pending := by
    cases ok <;> simp [State.store]
  have hlast := h.last other t (heffects ▸ ht)
  simp only [State.queue, hm, hpending, Monitor.pending, List.cons_append, lastText] at hlast ⊢
  cases hrest : lastText other (pending ++ s.pending) with
  | some last => simpa [hrest] using hlast
  | none =>
    -- the write just replayed was the last one queued for its handle
    by_cases hother : handle = other
    · subst hother
      obtain rfl : text = t := by simpa [hrest] using hlast
      cases ok <;> simp [State.store]
    · have hother' : other ≠ handle := Ne.symm hother
      cases ok <;> simpa [hrest, hother, hother', State.store] using hlast

theorem InOrder.step (h : InOrder s) {a : Action} (horder : KeepsOrder s a)
    (hs : Loca.step s a = some s') : InOrder s' := by
  cases a with
  | load texts =>
    simp only [Loca.step, Option.ite_none_left_eq_some, Option.some.injEq] at hs
    obtain ⟨hup, rfl⟩ := hs
    exact h.load (by simpa using hup) texts
  | set c handle text seen =>
    simp only [Loca.step] at hs
    split at hs
    next =>
      split_ifs at hs with hseen hup
      · obtain rfl := Option.some.inj hs
        exact h.setCaller c _ fun _ _ _ => hup
      · obtain rfl := Option.some.inj hs
        exact h.setCaller c _ (by simp)
    next => cases hs
  | direct c ok =>
    simp only [Loca.step] at hs
    split at hs
    next handle text hc =>
      split_ifs at hs with hdirect
      · obtain ⟨hpending, hsuffix, rfl⟩ := hdirect
        obtain rfl := Option.some.inj hs
        -- a direct store only keeps the order where nothing for its handle is still pending
        refine h.direct hc hpending fun t ht => ?_
        exact horder (handle, text) (by simp [storesDirectly, hc, hpending, hsuffix]) t ht
      · obtain rfl := Option.some.inj hs
        exact h.setCaller c _ (by simp)
    next => cases hs
  | enqueue c =>
    simp only [Loca.step] at hs
    split at hs
    next handle text _ =>
      obtain rfl := Option.some.inj hs
      exact h.enqueue c handle text
    next => cases hs
  | showVersion c suffix =>
    simp only [Loca.step] at hs
    split at hs
    next =>
      obtain rfl := Option.some.inj hs
      exact (h.setCaller c .queued (by simp)).of_queue_eq rfl rfl rfl rfl rfl h.monitor
        (h.found_setCaller (by simp))
    next => cases hs
  | start c =>
    simp only [Loca.step] at hs
    split at hs
    next =>
      obtain rfl := Option.some.inj hs
      -- the last step of a call hands the queue to the monitor thread
      exact h.startMonitor.setCaller c _ (by simp)
    next => cases hs
  | populated =>
    simp only [Loca.step] at hs
    split at hs
    next hm =>
      split_ifs at hs with hup
      obtain rfl := Option.some.inj hs
      exact h.setMonitor (by simp [hm]) (by simp [hup])
    next => cases hs
  | giveUp =>
    simp only [Loca.step] at hs
    split at hs
    next hm =>
      obtain rfl := Option.some.inj hs
      exact h.setMonitor (by simp [hm]) fun _ => .inl rfl
    next => cases hs
  | swap =>
    simp only [Loca.step] at hs
    split at hs
    next hm =>
      obtain rfl := Option.some.inj hs
      -- the batch keeps its order, and what is queued from now on comes behind it
      exact h.swap hm (by split_ifs <;> rfl)
    next => cases hs
  | readVersion ok =>
    simp only [Loca.step] at hs
    split at hs
    next suffix pending hm =>
      have hup : s.up = true := h.up_of_monitor (by simp [hm]) (by simp [hm])
      split at hs
      next =>
        split_ifs at hs <;> obtain rfl := Option.some.inj hs <;>
          exact h.setMonitor (by simp [hm]) (by simp [hup])
      next =>
        obtain rfl := Option.some.inj hs
        exact h.setMonitor (by simp [hm]) (by simp [hup])
    next => cases hs
  | storeVersion ok =>
    simp only [Loca.step] at hs
    split at hs
    next line pending hm =>
      obtain rfl := Option.some.inj hs
      exact h.storeVersion hm ok
    next => cases hs
  | replay ok =>
    simp only [Loca.step] at hs
    split at hs
    next handle text pending hm =>
      obtain rfl := Option.some.inj hs
      exact h.replay hm ok
    next => cases hs
  | finish =>
    simp only [Loca.step] at hs
    split at hs
    next hm =>
      obtain rfl := Option.some.inj hs
      exact h.of_queue_eq rfl (by simp [State.queue, hm]) rfl rfl rfl (fun _ => .inl rfl) h.found
    next => cases hs
  | recheck =>
    simp only [Loca.step] at hs
    split at hs
    next => cases hs
    next n _ =>
      split_ifs at hs <;> obtain rfl := Option.some.inj hs <;>
        exact h.of_queue_eq rfl rfl rfl rfl rfl h.monitor h.found
  | restart =>
    simp only [Loca.step] at hs
    split at hs
    next => cases hs
    next n _ =>
      obtain rfl := Option.some.inj hs
      -- the monitor begins anew: nothing of an earlier one is left in its hands
      have hstart := h.startMonitor
      exact hstart.of_queue_eq rfl rfl rfl rfl rfl hstart.monitor hstart.found

end

/-- In a run where no direct store overtakes a swapped-out write, the last write wins in every
state where all queued writes are applied. -/
theorem set_lastWriteWins {as : List Action} {s : State} (hrun : Run step KeepsOrder {} as s)
    (happlied : Applied s) : LastWriteWins s := by
  have h : InOrder s := hrun.invariant .init fun _ _ _ h ha hs => h.step ha hs
  intro handle text htext hexcepted
  have hlast := h.last handle text htext
  simpa [happlied.queue, hexcepted] using hlast

/-! ## A call that the replay overtakes -/

def handle : Handle := bytes "h1"

/-- The first call is queued, the repository loads and the monitor swaps the queue out. -/
def firstQueued : List Action :=
  [.set 0 handle (bytes "first") false, .enqueue 0, .start 0, .load fun _ => none, .populated, .swap]

/-- The second call, after the first returned, stores directly. -/
def secondDirect : List Action := [.set 0 handle (bytes "second") true, .direct 0 true]

def replayed : List Action := [.replay true, .finish, .recheck]

/-- Whether everything queued is applied and the handle was last set to the second text and has
`text`. -/
def endsIn (text : Text) (s : State) : Bool :=
  s.up && s.queue.isEmpty && !s.excepted handle &&
    lastText handle s.effects == some (bytes "second") && s.stored handle == some text

/-- The second call sees an empty queue and stores its text; the replay then stores the first
call's text over it. -/
theorem overtaken_not_lastWriteWins :
    ∃ s, Run step (fun _ _ => True) {} (firstQueued ++ secondDirect ++ replayed) s ∧ Applied s ∧
      ¬ LastWriteWins s := by
  obtain ⟨s, hrun, hs⟩ := Run.exists_of_follow step (fun _ _ => True) {}
    (firstQueued ++ secondDirect ++ replayed) (endsIn (bytes "first")) (by decide)
  simp only [endsIn, Bool.and_eq_true, List.isEmpty_iff, Bool.not_eq_true', beq_iff_eq] at hs
  obtain ⟨⟨⟨⟨hup, hqueue⟩, hexcepted⟩, hlast⟩, hstored⟩ := hs
  refine ⟨s, hrun, ⟨hup, hqueue⟩, fun h => ?_⟩
  have hsecond := h handle _ hlast hexcepted
  exact absurd (hstored.symm.trans hsecond) (by decide)

/-- With the replay first, the second call's text stays. -/
theorem set_lastWriteWins_inTurn :
    ∃ s, Run step KeepsOrder {} (firstQueued ++ replayed ++ secondDirect) s ∧ LastWriteWins s ∧
      s.stored handle = some (bytes "second") := by
  obtain ⟨s, hrun, hs⟩ := Run.exists_of_follow step KeepsOrder {}
    (firstQueued ++ replayed ++ secondDirect) (endsIn (bytes "second")) (by decide)
  simp only [endsIn, Bool.and_eq_true, List.isEmpty_iff, Bool.not_eq_true', beq_iff_eq] at hs
  obtain ⟨⟨⟨⟨hup, hqueue⟩, -⟩, -⟩, hstored⟩ := hs
  exact ⟨s, hrun, set_lastWriteWins hrun ⟨hup, hqueue⟩, hstored⟩

end Loca
end Bg3le
