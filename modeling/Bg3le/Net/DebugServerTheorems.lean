import Bg3le.Library.Tally
import Bg3le.Net.DebugServer
import Mathlib.Data.List.Nodup

/-!
# What the debugger's server keeps

A job leaves the queue once: for a pump, which evaluates it, or for its own connection, which
has stopped waiting for it. The counter is behind the queue by the threads that have changed the
one and not yet the other. The list of clients is right as long as no connection is lost in the
replay of the history, which is the one way out of `handle_client` that does not take it off.
-/

namespace Bg3le
namespace Net
namespace DebugServer

variable {n m : ℕ}

/-! ## Connections -/

/-- How far a connection's thread is. -/
inductive Phase where
  | outside
  | starting
  | underWay
deriving DecidableEq

def Place.phase : Place → Phase
  | .outside => .outside
  | .starting => .starting
  | _ => .underWay

/-- The connections: what descriptor each has, which are open, and which are in `g_clients`. -/
structure Table (n : ℕ) where
  fd : Fin n → ℕ
  opened : List ℕ
  clients : List ℕ
  phase : Fin n → Phase

def State.table (s : State n m) : Table n :=
  ⟨s.fd, s.opened, s.clients, fun i => (s.client i).phase⟩

namespace Table

variable {t u : Table n}

/-- What happens to the connections. -/
inductive Step : Table n → Table n → Prop
  | refl (t : Table n) : Step t t
  | accept {t : Table n} (i : Fin n) (fd : ℕ) (hphase : t.phase i = .outside)
      (hfd : fd ∉ t.opened) : Step t
        { t with
          opened := fd :: t.opened
          fd := Function.update t.fd i fd
          phase := Function.update t.phase i .starting }
  | attach {t : Table n} (i : Fin n) (hphase : t.phase i = .starting) : Step t
      { t with
        clients := t.clients ++ [t.fd i]
        phase := Function.update t.phase i .underWay }
  | detach {t : Table n} (i : Fin n) (hphase : t.phase i = .underWay) : Step t
      { t with
        clients := t.clients.filter fun fd => fd != t.fd i
        opened := t.opened.erase (t.fd i)
        phase := Function.update t.phase i .outside }

/-- Who is not outside after one has gone was so before, and is another. -/
theorem of_update_outside {phase : Fin n → Phase} {i j : Fin n} {p : Phase}
    (h : Function.update phase i .outside j = p) (hp : p ≠ .outside) : j ≠ i ∧ phase j = p := by
  have hji : j ≠ i := by
    intro hji
    rw [hji, Function.update_self] at h
    exact hp h.symm
  rw [Function.update_of_ne hji] at h
  exact ⟨hji, h⟩

/-- The thread ends, and its connection stays. -/
def lose (t : Table n) (i : Fin n) : Table n :=
  { t with phase := Function.update t.phase i .outside }

/-- The descriptors of the threads are open and distinct, and those that have attached are in the
list. -/
structure Kept (t : Table n) : Prop where
  opened : ∀ i, t.phase i ≠ .outside → t.fd i ∈ t.opened
  distinct : ∀ i j, t.phase i ≠ .outside → t.phase j ≠ .outside → t.fd i = t.fd j → i = j
  attached : ∀ i, t.phase i = .underWay → t.fd i ∈ t.clients
  starting : ∀ i, t.phase i = .starting → t.fd i ∉ t.clients
  clients : ∀ fd ∈ t.clients, fd ∈ t.opened
  nodup : t.clients.Nodup

/-- Nothing else is in the list. -/
def Exact (t : Table n) : Prop :=
  ∀ fd ∈ t.clients, ∃ i, t.phase i = .underWay ∧ t.fd i = fd

/-- A descriptor is in the list that no thread has. -/
def Leaks (t : Table n) : Prop :=
  ∃ fd ∈ t.clients, ∀ i, t.phase i ≠ .outside → t.fd i ≠ fd

/-- The lock and the descriptors are kept by every step. -/
theorem Kept.step (h : t.Kept) (hstep : Step t u) : u.Kept := by
  cases hstep with
  | refl => exact h
  | accept i fd hphase hfd =>
    have hother (j : Fin n) (hj : t.phase j ≠ .outside) : j ≠ i := by
      intro heq
      exact hj (heq ▸ hphase)
    -- a descriptor that is accepted was not open
    have hne (j : Fin n) (hj : t.phase j ≠ .outside) : t.fd j ≠ fd := by
      intro heq
      exact hfd (heq ▸ h.opened j hj)
    refine ⟨?_, ?_, ?_, ?_, ?_, h.nodup⟩
    · intro j hj
      by_cases hji : j = i
      · simp [hji]
      · simp only [Function.update_of_ne hji] at hj ⊢
        exact List.mem_cons_of_mem _ (h.opened j hj)
    · intro j k hj hk hsame
      by_cases hji : j = i <;> by_cases hki : k = i
      · rw [hji, hki]
      · simp only [hji, Function.update_self, Function.update_of_ne hki] at hk hsame
        exact absurd hsame.symm (hne k hk)
      · simp only [hki, Function.update_self, Function.update_of_ne hji] at hj hsame
        exact absurd hsame (hne j hj)
      · simp only [Function.update_of_ne hji, Function.update_of_ne hki] at hj hk hsame
        exact h.distinct j k hj hk hsame
    · intro j hj
      by_cases hji : j = i
      · simp [hji] at hj
      · simp only [Function.update_of_ne hji] at hj ⊢
        exact h.attached j hj
    · intro j hj
      by_cases hji : j = i
      · simp only [hji, Function.update_self]
        exact fun hmem => hfd (h.clients fd hmem)
      · simp only [Function.update_of_ne hji] at hj ⊢
        exact h.starting j hj
    · intro c hc
      exact List.mem_cons_of_mem _ (h.clients c hc)
  | attach i hphase =>
    have hin : t.phase i ≠ .outside := by simp [hphase]
    have hphases (j : Fin n) (hj : Function.update t.phase i .underWay j ≠ .outside) :
        t.phase j ≠ .outside := by
      by_cases hji : j = i
      · rw [hji]
        exact hin
      · rwa [Function.update_of_ne hji] at hj
    refine ⟨fun j hj => h.opened j (hphases j hj),
      fun j k hj hk => h.distinct j k (hphases j hj) (hphases k hk), ?_, ?_, ?_, ?_⟩
    · intro j hj
      by_cases hji : j = i
      · simp [hji]
      · simp only [Function.update_of_ne hji] at hj
        exact List.mem_append_left _ (h.attached j hj)
    · intro j hj hmem
      by_cases hji : j = i
      · simp [hji] at hj
      · simp only [Function.update_of_ne hji] at hj
        simp only [List.mem_append, List.mem_singleton] at hmem
        -- another thread with this descriptor would be this thread
        have hsame := hmem.resolve_left (h.starting j hj)
        exact hji (h.distinct j i (by simp [hj]) hin hsame)
    · intro c hc
      simp only [List.mem_append, List.mem_singleton] at hc
      cases hc with
      | inl hc => exact h.clients c hc
      | inr hc => exact hc ▸ h.opened i hin
    · exact h.nodup.append (List.nodup_singleton _)
        (List.disjoint_singleton.mpr (h.starting i hphase))
  | detach i hphase =>
    have hin : t.phase i ≠ .outside := by simp [hphase]
    have hne (j : Fin n) {p : Phase} (hj : Function.update t.phase i .outside j = p)
        (hp : p ≠ .outside) : t.phase j = p ∧ t.fd j ≠ t.fd i := by
      -- whoever is still inside has another descriptor than the one that is closed
      have hj' := of_update_outside hj hp
      exact ⟨hj'.2, fun hsame => hj'.1 (h.distinct j i (by rwa [hj'.2]) hin hsame)⟩
    have hphases (j : Fin n) (hj : Function.update t.phase i .outside j ≠ .outside) :
        t.phase j ≠ .outside := by
      rwa [(hne j rfl hj).1]
    refine ⟨?_, ?_, ?_, ?_, ?_, h.nodup.filter _⟩
    · intro j hj
      exact (List.mem_erase_of_ne (hne j rfl hj).2).mpr (h.opened j (hphases j hj))
    · intro j k hj hk
      exact h.distinct j k (hphases j hj) (hphases k hk)
    · intro j hj
      have hj' := hne j hj (by simp)
      simpa using ⟨h.attached j hj'.1, hj'.2⟩
    · intro j hj hmem
      exact h.starting j (hne j hj (by simp)).1 (List.mem_filter.mp hmem).1
    · intro c hc
      simp only [List.mem_filter, bne_iff_ne, ne_eq] at hc
      exact (List.mem_erase_of_ne hc.2).mpr (h.clients c hc.1)

/-- A client that is lost takes none along but its own. -/
theorem Kept.lose (h : t.Kept) (i : Fin n) : (t.lose i).Kept := by
  have hphases (j : Fin n) (hj : Function.update t.phase i .outside j ≠ .outside) :
      t.phase j ≠ .outside := by
    rwa [(of_update_outside rfl hj).2]
  exact ⟨fun j hj => h.opened j (hphases j hj),
    fun j k hj hk => h.distinct j k (hphases j hj) (hphases k hk),
    fun j hj => h.attached j (of_update_outside hj (by simp)).2,
    fun j hj => h.starting j (of_update_outside hj (by simp)).2, h.clients, h.nodup⟩

/-- Every step keeps the count of clients exact. -/
theorem Exact.step (h : t.Exact) (hstep : Step t u) : u.Exact := by
  cases hstep with
  | refl => exact h
  | accept i fd hphase hfd =>
    intro c hc
    obtain ⟨j, hj, hfdj⟩ := h c hc
    have hji : j ≠ i := by
      intro hji
      simp [hji, hphase] at hj
    exact ⟨j, by simpa only [Function.update_of_ne hji] using ⟨hj, hfdj⟩⟩
  | attach i hphase =>
    intro c hc
    simp only [List.mem_append, List.mem_singleton] at hc
    cases hc with
    | inl hc =>
      obtain ⟨j, hj, hfdj⟩ := h c hc
      have hji : j ≠ i := by
        intro hji
        simp [hji, hphase] at hj
      exact ⟨j, by simpa only [Function.update_of_ne hji] using ⟨hj, hfdj⟩⟩
    | inr hc => exact ⟨i, by simp [hc]⟩
  | detach i hphase =>
    intro c hc
    simp only [List.mem_filter, bne_iff_ne, ne_eq] at hc
    obtain ⟨j, hj, hfdj⟩ := h c hc.1
    have hji : j ≠ i := by
      intro hji
      exact hc.2 (by rw [← hfdj, hji])
    exact ⟨j, by simpa only [Function.update_of_ne hji] using ⟨hj, hfdj⟩⟩

/-- What is lost stays in the list: no thread comes to its descriptor, which is never closed. -/
theorem Leaks.step (h : t.Leaks) (hkept : t.Kept) (hstep : Step t u) : u.Leaks := by
  obtain ⟨c, hc, hnone⟩ := h
  cases hstep with
  | refl => exact ⟨c, hc, hnone⟩
  | accept i fd hphase hfd =>
    refine ⟨c, hc, fun j hj => ?_⟩
    by_cases hji : j = i
    · simp only [hji, Function.update_self]
      exact fun heq => hfd (heq ▸ hkept.clients c hc)
    · simp only [Function.update_of_ne hji] at hj ⊢
      exact hnone j hj
  | attach i hphase =>
    refine ⟨c, List.mem_append_left _ hc, fun j hj => hnone j ?_⟩
    by_cases hji : j = i
    · simp [hji, hphase]
    · simp only [Function.update_of_ne hji] at hj
      exact hj
  | detach i hphase =>
    have hci : c ≠ t.fd i := (hnone i (by simp [hphase])).symm
    refine ⟨c, by simpa using ⟨hc, hci⟩, fun j hj => hnone j ?_⟩
    rwa [(of_update_outside rfl hj).2]

/-- A descriptor that leaked stays open. -/
theorem Leaks.lose (h : t.Leaks) (i : Fin n) : (t.lose i).Leaks := by
  obtain ⟨c, hc, hnone⟩ := h
  refine ⟨c, hc, fun j hj => hnone j ?_⟩
  rwa [(of_update_outside rfl hj).2]

/-- A thread that ends without taking its connection off leaves it in the list. -/
theorem Kept.leaks_lose (h : t.Kept) {i : Fin n} (hphase : t.phase i = .underWay) :
    (t.lose i).Leaks := by
  refine ⟨t.fd i, h.attached i hphase, fun j hj heq => ?_⟩
  have hj' := of_update_outside rfl hj
  exact hj'.1 (h.distinct j i (by rwa [hj'.2]) (by simp [hphase]) heq)

end Table

/-! ## What a step can do -/

/-- The job that a connection still waits for. -/
def Place.awaits : Place → Option ℕ
  | .counting _ job | .waiting _ job | .forgetting _ job _ => some job
  | _ => none

/-- The job that a connection no longer waits for, and whose response is not sent yet. -/
def Place.drops : Place → Option ℕ
  | .uncounting _ job _ => some job
  | .sending _ job => job
  | _ => none

/-- In `handle_client`, and with no job. -/
def Place.Plain (place : Place) : Prop :=
  place.phase = .underWay ∧ place.awaits = none ∧ place.drops = none

/-- The queue has the job, and `g_pending` does not count it. -/
def Place.ahead : Place → Bool
  | .counting _ _ => true
  | _ => false

/-- `g_pending` counts a job that is taken off the queue. -/
def Place.behind : Place → Bool
  | .uncounting _ _ _ => true
  | _ => false

def Pump.behind : Pump → Bool
  | .discounting _ _ => true
  | _ => false

/-- The job that a pump has. -/
def Pump.job : Pump → Option ℕ
  | .discounting _ job | .evaluating _ job | .finishing _ job _ _ => some job
  | _ => none

/-- The job that a pump has yet to evaluate. -/
def Pump.owes : Pump → Option ℕ
  | .discounting _ job | .evaluating _ job => some job
  | _ => none

/-- A pump owes an answer to the job it has. -/
theorem Pump.job_of_owes {place : Pump} {job : ℕ} (h : place.owes = some job) :
    place.job = some job := by
  cases place with
  | discounting clientJobs job => exact h
  | evaluating clientJobs job => exact h
  | _ => exact absurd h.symm (Option.some_ne_none _)

/-- What a step of a connection does, other than in the replay where a line is not sent. -/
inductive ClientStep (s : State n m) (i : Fin n) : State n m → Prop
  | attach (hat : s.client i = .starting) :
      ClientStep s i ({ s with clients := s.clients ++ [s.fd i] }.put i .attached)
  /-- From one place without a job to another. -/
  | walk (place : Place) (statusLock : Bool) (hat : (s.client i).Plain) (hplace : place.Plain) :
      ClientStep s i ({ s with statusLock }.put i place)
  | submit (seq : UInt64) (code : Bytes) (client : Bool) (hat : (s.client i).Plain) :
      ClientStep s i ({ s with
        jobs := Function.update s.jobs s.made { code, client }
        made := s.made + 1
        queue := s.queue ++ [s.made] }.put i (.counting seq s.made))
  | count (seq : UInt64) (job : ℕ) (hat : s.client i = .counting seq job) :
      ClientStep s i ({ s with pending := s.pending + 1 }.put i (.waiting seq job))
  | finished (seq : UInt64) (job : ℕ) (payload : Bytes) (hat : s.client i = .waiting seq job)
      (hdone : (s.jobs job).done = true) : ClientStep s i (s.put i (.sending payload (some job)))
  | giveUp (seq : UInt64) (job : ℕ) (result : Bytes) (hat : s.client i = .waiting seq job) :
      ClientStep s i (s.put i (.forgetting seq job result))
  | forget (seq : UInt64) (job : ℕ) (result : Bytes) (hat : s.client i = .forgetting seq job result)
      (hmem : job ∈ s.queue) :
      ClientStep s i ({ s with queueLock := true, queue := s.queue.erase job }.put i
        (.uncounting seq job result))
  | missing (seq : UInt64) (job : ℕ) (result payload : Bytes)
      (hat : s.client i = .forgetting seq job result) (hmem : job ∉ s.queue) :
      ClientStep s i (s.put i (.sending payload (some job)))
  | uncount (seq : UInt64) (job : ℕ) (result payload : Bytes)
      (hat : s.client i = .uncounting seq job result) :
      ClientStep s i ({ s with queueLock := false, pending := s.pending - 1 }.put i
        (.sending payload (some job)))
  | answer (payload : Bytes) (job : ℕ) (place : Place)
      (hat : s.client i = .sending payload (some job)) (hplace : place.Plain) :
      ClientStep s i ({ s with answered := s.answered ++ [job] }.put i place)
  | detach (hat : (s.client i).Plain) :
      ClientStep s i ({ s with
        clients := s.clients.filter fun fd => fd != s.fd i
        opened := s.opened.erase (s.fd i) }.put i .outside)

variable {s t : State n m} {i : Fin n} {p : Fin m} {input : Input} {place : Place}

/-- A request that is answered at once has no job. -/
theorem handle_plain (payload : Bytes) (storyReady : Bool) :
    (handle payload storyReady).Plain := by
  simp only [handle]
  split
  · exact ⟨rfl, rfl, rfl⟩
  · split
    · exact ⟨rfl, rfl, rfl⟩
    · split <;> exact ⟨rfl, rfl, rfl⟩

/-- What a client receives begins without a job. -/
theorem receive_plain {header : Option UInt32} {payload : Option Bytes} {storyReady : Bool}
    (h : receive header payload storyReady = some place) : place.Plain := by
  have hleaving : Place.leaving.Plain := ⟨rfl, rfl, rfl⟩
  cases header with
  | none =>
    simp only [receive, Option.some.injEq] at h
    exact h ▸ hleaving
  | some total =>
    simp only [receive] at h
    split at h
    · exact Option.some.inj h ▸ hleaving
    · split at h
      · exact Option.some.inj h ▸ handle_plain _ _
      · cases payload with
        | none => exact Option.some.inj h ▸ hleaving
        | some payload =>
          simp only [Option.ite_none_right_eq_some, Option.some.injEq] at h
          exact h.2 ▸ handle_plain _ _

/-- In the replay, a line that is not sent ends the thread and does nothing else. -/
theorem clientStep_lost (h : clientStep s i (s.client i) (.line false) = some t) :
    (s.client i).Plain ∧ t = { s with statusLock := false }.put i .outside := by
  cases hat : s.client i with
  | replaying lines =>
    cases lines with
    | nil => simp [hat, clientStep] at h
    | cons line lines =>
      simp only [hat, clientStep, Bool.false_eq_true, if_false, Option.some.injEq] at h
      exact ⟨⟨rfl, rfl, rfl⟩, h.symm⟩
  | _ => simp [hat, clientStep] at h

/-- What a client can do, but for losing its line under the lock. -/
theorem clientStep_cases (h : clientStep s i (s.client i) input = some t)
    (hinput : input ≠ .line false) : ClientStep s i t := by
  have hplain {place : Place} (hat : s.client i = place) (hplace : place.Plain) :
      (s.client i).Plain := hat ▸ hplace
  cases hat : s.client i with
  | outside => simp [hat, clientStep] at h
  | starting =>
    cases input with
    | go =>
      simp only [hat, clientStep, Option.some.injEq] at h
      exact h ▸ .attach hat
    | _ => simp [hat, clientStep] at h
  | attached =>
    cases input with
    | go =>
      simp only [hat, clientStep, Option.ite_none_left_eq_some, Option.some.injEq] at h
      -- the history is copied while the status lock is held
      exact h.2 ▸ .walk _ _ (hplain hat ⟨rfl, rfl, rfl⟩) ⟨rfl, rfl, rfl⟩
    | _ => simp [hat, clientStep] at h
  | replaying lines =>
    cases lines with
    | nil =>
      cases input with
      | go =>
        simp only [hat, clientStep, Option.some.injEq] at h
        exact h ▸ .walk _ _ (hplain hat ⟨rfl, rfl, rfl⟩) ⟨rfl, rfl, rfl⟩
      | _ => simp [hat, clientStep] at h
    | cons line lines =>
      cases input with
      | line sent =>
        cases sent
        -- a line that cannot be sent ends the connection, which is ruled out here
        · exact absurd rfl hinput
        · simp only [hat, clientStep, if_true, Option.some.injEq] at h
          exact h ▸ .walk _ s.statusLock (hplain hat ⟨rfl, rfl, rfl⟩) ⟨rfl, rfl, rfl⟩
      | _ => simp [hat, clientStep] at h
  | receiving =>
    cases input with
    | packet header payload storyReady =>
      simp only [hat, clientStep, Option.map_eq_some_iff] at h
      obtain ⟨place, hplace, rfl⟩ := h
      exact .walk place s.statusLock (hplain hat ⟨rfl, rfl, rfl⟩) (receive_plain hplace)
    | _ => simp [hat, clientStep] at h
  | sending payload job =>
    cases input with
    | response sent =>
      have hplace : (if sent then Place.receiving else .leaving).Plain := by
        cases sent <;> exact ⟨rfl, rfl, rfl⟩
      simp only [hat, clientStep, Option.some.injEq] at h
      cases job with
      | none =>
        simp only [Option.toList_none, List.append_nil] at h
        exact h ▸ .walk _ s.statusLock (hplain hat ⟨rfl, rfl, rfl⟩) hplace
      | some job => exact h ▸ .answer payload job _ hat hplace
    | _ => simp [hat, clientStep] at h
  | submitting seq code client =>
    cases input with
    | go =>
      simp only [hat, clientStep, Option.ite_none_left_eq_some, Option.some.injEq] at h
      exact h.2 ▸ .submit seq code client (hplain hat ⟨rfl, rfl, rfl⟩)
    | _ => simp [hat, clientStep] at h
  | counting seq job =>
    cases input with
    | go =>
      simp only [hat, clientStep, Option.some.injEq] at h
      exact h ▸ .count seq job hat
    | _ => simp [hat, clientStep] at h
  | waiting seq job =>
    cases input with
    | go =>
      simp only [hat, clientStep, Option.ite_none_left_eq_some, Option.some.injEq] at h
      -- a thread that wakes before its time has been answered
      have hdone : (s.jobs job).done = true := by
        have hfree := h.1
        simp only [Bool.or_eq_true, Bool.not_eq_true', not_or, Bool.not_eq_false] at hfree
        exact hfree.2
      exact h.2 ▸ .finished seq job _ hat hdone
    | timeOut =>
      simp only [hat, clientStep, Option.ite_none_left_eq_some] at h
      cases hdone : (s.jobs job).done
      · simp only [hdone, Bool.false_eq_true, if_false, Option.some.injEq] at h
        -- the time is up, but a pump may have taken the job off the queue
        exact h.2 ▸ .giveUp seq job _ hat
      · simp only [hdone, if_true, Option.some.injEq] at h
        exact h.2 ▸ .finished seq job _ hat hdone
    | _ => simp [hat, clientStep] at h
  | forgetting seq job result =>
    cases input with
    | go =>
      simp only [hat, clientStep, Option.ite_none_left_eq_some] at h
      cases hmem : s.queue.contains job
      · simp only [hmem, Bool.false_eq_true, if_false, Option.some.injEq] at h
        exact h.2 ▸ .missing seq job result _ hat (by simpa using hmem)
      · simp only [hmem, if_true, Option.some.injEq] at h
        exact h.2 ▸ .forget seq job result hat (by simpa using hmem)
    | _ => simp [hat, clientStep] at h
  | uncounting seq job result =>
    cases input with
    | go =>
      simp only [hat, clientStep, Option.some.injEq] at h
      exact h ▸ .uncount seq job result _ hat
    | _ => simp [hat, clientStep] at h
  | leaving =>
    cases input with
    | go =>
      simp only [hat, clientStep, Option.some.injEq] at h
      exact h ▸ .detach (hplain hat ⟨rfl, rfl, rfl⟩)
    | _ => simp [hat, clientStep] at h

/-- What a step of a pump does. -/
inductive PumpStep (s : State n m) (p : Fin m) : State n m → Prop
  /-- From one place without a job to another. -/
  | walk (place : Pump) (clientPumps : Bool) (hat : (s.pump p).job = none)
      (hplace : place.job = none) : PumpStep s p ({ s with clientPumps }.putPump p place)
  | take (clientJobs : Bool) (job : ℕ) (hat : (s.pump p).job = none) (hmem : job ∈ s.queue) :
      PumpStep s p
        ({ s with queue := s.queue.erase job }.putPump p (.discounting clientJobs job))
  | discount (clientJobs : Bool) (job : ℕ) (hat : s.pump p = .discounting clientJobs job) :
      PumpStep s p
        ({ s with pending := s.pending - 1 }.putPump p (.evaluating clientJobs job))
  | evaluate (clientJobs : Bool) (job : ℕ) (result error : Bytes)
      (hat : s.pump p = .evaluating clientJobs job) :
      PumpStep s p ({ s with evaluated := s.evaluated ++ [job] }.putPump p
        (.finishing clientJobs job result error))
  | finish (clientJobs : Bool) (job : ℕ) (result error : Bytes)
      (hat : s.pump p = .finishing clientJobs job result error) :
      PumpStep s p ({ s with
        jobs := Function.update s.jobs job { s.jobs job with result, error, done := true } }.putPump
          p (.looping clientJobs))

/-- What a pump can do. -/
theorem pumpStep_cases {result error : Bytes}
    (h : pumpStep s p result error (s.pump p) = some t) : PumpStep s p t := by
  have hnone {place : Pump} (hat : s.pump p = place) (hplace : place.job = none) :
      (s.pump p).job = none := hat ▸ hplace
  cases hat : s.pump p with
  | idle => simp [hat, pumpStep] at h
  | entering =>
    simp only [hat, pumpStep, Option.some.injEq] at h
    exact h ▸ .walk _ s.clientPumps (hnone hat rfl) (by split <;> rfl)
  | looping clientJobs =>
    simp only [hat, pumpStep, Option.ite_none_left_eq_some] at h
    cases hfind : s.queue.find? fun job =>
        (s.jobs job).client == clientJobs || (!clientJobs && !s.clientPumps) with
    | none =>
      simp only [hfind, Option.some.injEq] at h
      exact h.2 ▸ .walk _ s.clientPumps (hnone hat rfl) rfl
    | some job =>
      simp only [hfind, Option.some.injEq] at h
      exact h.2 ▸ .take clientJobs job (hnone hat rfl) (List.mem_of_find?_eq_some hfind)
  | discounting clientJobs job =>
    simp only [hat, pumpStep, Option.some.injEq] at h
    exact h ▸ .discount clientJobs job hat
  | evaluating clientJobs job =>
    simp only [hat, pumpStep, Option.some.injEq] at h
    exact h ▸ .evaluate clientJobs job result error hat
  | finishing clientJobs job result error =>
    simp only [hat, pumpStep, Option.ite_none_left_eq_some, Option.some.injEq] at h
    exact h.2 ▸ .finish clientJobs job result error hat

/-- What an action does. -/
inductive Moves (s : State n m) : State n m → Prop
  | accept (i : Fin n) (fd : ℕ) (hat : s.client i = .outside) (hfd : fd ∉ s.opened) :
      Moves s ({ s with
        opened := fd :: s.opened
        fd := Function.update s.fd i fd }.put i .starting)
  | client (i : Fin n) {t : State n m} (h : ClientStep s i t) : Moves s t
  | pump (p : Fin m) {t : State n m} (h : PumpStep s p t) : Moves s t
  | aside (storyTid : ℕ) (status : List Bytes) : Moves s { s with storyTid, status }

/-- What one step can do, but for a client that loses its line under the lock. -/
theorem step_cases {a : Action n m} (h : step s a = some t)
    (ha : ∀ i, a ≠ .client i (.line false)) : Moves s t := by
  cases a with
  | accept i fd =>
    cases hat : s.client i with
    | outside =>
      simp only [step, hat, Option.ite_none_left_eq_some, Option.some.injEq] at h
      exact h.2 ▸ .accept i fd hat (by simpa using h.1)
    | _ => simp [step, hat] at h
  | client i input => exact .client i (clientStep_cases h fun heq => ha i (heq ▸ rfl))
  | noteStoryThread tid =>
    simp only [step, Option.some.injEq] at h
    split at h
    · exact h ▸ .aside tid s.status
    · exact h ▸ .aside s.storyTid s.status
  | tick p tid =>
    cases hat : s.pump p with
    | idle =>
      simp only [step, hat] at h
      split at h
      · exact Option.some.inj h ▸ .aside s.storyTid s.status
      · exact Option.some.inj h ▸ .pump p (.walk _ s.clientPumps (by simp [hat, Pump.job]) rfl)
    | _ => simp [step, hat] at h
  | debugServerPump p =>
    cases hat : s.pump p with
    | idle =>
      simp only [step, hat, Option.some.injEq] at h
      exact h ▸ .pump p (.walk _ s.clientPumps (by simp [hat, Pump.job]) rfl)
    | _ => simp [step, hat] at h
  | debugServerPumpClient p =>
    cases hat : s.pump p with
    | idle =>
      simp only [step, hat, Option.some.injEq] at h
      exact h ▸ .pump p (.walk _ true (by simp [hat, Pump.job]) rfl)
    | _ => simp [step, hat] at h
  | pump p result error => exact .pump p (pumpStep_cases h)
  | status line =>
    simp only [step, Option.ite_none_left_eq_some, Option.some.injEq] at h
    exact h.2 ▸ .aside s.storyTid _

/-! ## The table of connections -/

theorem table_put (s : State n m) (i : Fin n) (place : Place) :
    (s.put i place).table =
      { s.table with phase := Function.update s.table.phase i place.phase } := by
  have hphase : (fun j => (Function.update s.client i place j).phase) =
      Function.update (fun j => (s.client j).phase) i place.phase :=
    funext fun j => Function.apply_update (fun _ place => place.phase) s.client i place j
  simp only [State.table, State.put, hphase]

/-- A client that stays in its phase leaves the table. -/
theorem table_put_of_phase (h : (s.client i).phase = place.phase) :
    (s.put i place).table = s.table := by
  have hself : Function.update s.table.phase i place.phase = s.table.phase := by
    rw [← h]
    exact Function.update_eq_self i s.table.phase
  rw [table_put, hself]

theorem table_lost (s : State n m) (i : Fin n) :
    ({ s with statusLock := false }.put i .outside).table = s.table.lose i :=
  table_put _ i .outside

/-- To the table a client's step is one of its own steps. -/
theorem ClientStep.table (h : ClientStep s i t) : Table.Step s.table t.table := by
  have hsame (s' : State n m) (place : Place) (htable : s'.table = s.table)
      (hclient : s'.client = s.client) (hphase : (s.client i).phase = place.phase) :
      Table.Step s.table (s'.put i place).table := by
    rw [table_put_of_phase (hclient ▸ hphase), htable]
    exact .refl _
  cases h with
  | attach hat =>
    rw [table_put]
    exact .attach i (by simp only [State.table, hat, Place.phase])
  | walk place statusLock hat hplace =>
    exact hsame { s with statusLock } place rfl rfl (hat.1.trans hplace.1.symm)
  | submit seq code client hat => exact hsame _ _ (by rfl) rfl hat.1
  | count seq job hat => exact hsame _ _ (by rfl) rfl (by rw [hat]; rfl)
  | finished seq job payload hat hdone => exact hsame _ _ rfl rfl (by rw [hat]; rfl)
  | giveUp seq job result hat => exact hsame _ _ rfl rfl (by rw [hat]; rfl)
  | forget seq job result hat hmem => exact hsame _ _ (by rfl) rfl (by rw [hat]; rfl)
  | missing seq job result payload hat hmem => exact hsame _ _ rfl rfl (by rw [hat]; rfl)
  | uncount seq job result payload hat => exact hsame _ _ (by rfl) rfl (by rw [hat]; rfl)
  | answer payload job place hat hplace =>
    exact hsame _ _ (by rfl) rfl (by rw [hat, hplace.1]; rfl)
  | detach hat =>
    rw [table_put]
    exact .detach i hat.1

/-- So is every step. -/
theorem Moves.table (h : Moves s t) : Table.Step s.table t.table := by
  cases h with
  | accept i fd hat hfd =>
    rw [table_put]
    exact .accept i fd (by simp only [State.table, hat, Place.phase]) hfd
  | client i h => exact h.table
  | pump p h => cases h <;> exact .refl _
  | aside storyTid status => exact .refl _

/-! ## The counter -/

/-- `g_pending` is the length of the queue, but for the threads that have changed one of them. -/
def State.Counted (s : State n m) : Prop :=
  s.pending + tally Place.ahead s.client =
    s.queue.length + tally Pump.behind s.pump + tally Place.behind s.client

theorem Place.behind_of_plain (h : place.Plain) : place.behind = false := by
  cases place with
  | uncounting seq job result => exact absurd h.2.2 (Option.some_ne_none _)
  | _ => rfl

theorem Place.ahead_of_plain (h : place.Plain) : place.ahead = false := by
  cases place with
  | counting seq job => exact absurd h.2.1 (Option.some_ne_none _)
  | _ => rfl

theorem Pump.behind_of_none {place : Pump} (h : place.job = none) : place.behind = false := by
  cases place with
  | discounting clientJobs job => exact absurd h (Option.some_ne_none _)
  | _ => rfl

/-- A thread's move shifts the balance by what its two places count for. -/
theorem State.Counted.put (hs : s.Counted) {s' : State n m} (place : Place)
    (hclient : s'.client = s.client) (hpump : s'.pump = s.pump)
    (hbalance : s'.pending + place.ahead.toNat + (s.client i).behind.toNat + s.queue.length =
      s.pending + (s.client i).ahead.toNat + place.behind.toNat + s'.queue.length) :
    (s'.put i place).Counted := by
  have hahead := tally_update Place.ahead s.client i place
  have hbehind := tally_update Place.behind s.client i place
  simp only [State.Counted, State.put, hclient, hpump] at hs ⊢
  omega

/-- A pump that changes its place keeps the count if what is pending changes with it. -/
theorem State.Counted.putPump (hs : s.Counted) {s' : State n m} (place : Pump)
    (hclient : s'.client = s.client) (hpump : s'.pump = s.pump)
    (hbalance : s'.pending + (s.pump p).behind.toNat + s.queue.length =
      s.pending + place.behind.toNat + s'.queue.length) : (s'.putPump p place).Counted := by
  have hbehind := tally_update Pump.behind s.pump p place
  simp only [State.Counted, State.putPump, hclient, hpump] at hs ⊢
  omega

theorem length_erase {queue : List ℕ} {job : ℕ} (h : job ∈ queue) :
    (queue.erase job).length + 1 = queue.length := by
  have hpos := List.length_pos_of_mem h
  rw [List.length_erase_of_mem h]
  omega

/-- A client's step keeps the count of pending jobs. -/
theorem ClientStep.counted (h : ClientStep s i t) (hs : s.Counted) : t.Counted := by
  cases h with
  | attach hat => exact hs.put _ rfl rfl (by simp [hat, Place.ahead, Place.behind])
  | walk place statusLock hat hplace =>
    exact hs.put _ rfl rfl (by simp [Place.ahead_of_plain hat, Place.ahead_of_plain hplace,
      Place.behind_of_plain hat, Place.behind_of_plain hplace])
  | submit seq code client hat =>
    refine hs.put _ rfl rfl ?_
    rw [Place.ahead_of_plain hat, Place.behind_of_plain hat]
    simp only [Place.ahead, Place.behind, List.length_append, List.length_singleton,
      Bool.toNat_true, Bool.toNat_false]
    omega
  | count seq job hat => exact hs.put _ rfl rfl (by simp [hat, Place.ahead, Place.behind])
  | finished seq job payload hat hdone =>
    exact hs.put _ rfl rfl (by simp [hat, Place.ahead, Place.behind])
  | giveUp seq job result hat =>
    exact hs.put _ rfl rfl (by simp [hat, Place.ahead, Place.behind])
  | forget seq job result hat hmem =>
    have hlength := length_erase hmem
    refine hs.put _ rfl rfl ?_
    simp only [hat, Place.ahead, Place.behind, Bool.toNat_true, Bool.toNat_false]
    omega
  | missing seq job result payload hat hmem =>
    exact hs.put _ rfl rfl (by simp [hat, Place.ahead, Place.behind])
  | uncount seq job result payload hat =>
    exact hs.put _ rfl rfl (by simp [hat, Place.ahead, Place.behind])
  | answer payload job place hat hplace =>
    refine hs.put _ rfl rfl ?_
    rw [Place.ahead_of_plain hplace, Place.behind_of_plain hplace, hat]
    rfl
  | detach hat =>
    refine hs.put _ rfl rfl ?_
    rw [Place.ahead_of_plain hat, Place.behind_of_plain hat]
    rfl

/-- A pump's step does. -/
theorem PumpStep.counted (h : PumpStep s p t) (hs : s.Counted) : t.Counted := by
  cases h with
  | walk place clientPumps hat hplace =>
    exact hs.putPump _ rfl rfl (by simp [Pump.behind_of_none hat, Pump.behind_of_none hplace])
  | take clientJobs job hat hmem =>
    have hlength := length_erase hmem
    refine hs.putPump _ rfl rfl ?_
    rw [Pump.behind_of_none hat]
    simp only [Pump.behind, Bool.toNat_true, Bool.toNat_false]
    omega
  | discount clientJobs job hat => exact hs.putPump _ rfl rfl (by simp [hat, Pump.behind])
  | evaluate clientJobs job result error hat =>
    exact hs.putPump _ rfl rfl (by simp [hat, Pump.behind])
  | finish clientJobs job result error hat =>
    exact hs.putPump _ rfl rfl (by simp [hat, Pump.behind])

/-- Every step does. -/
theorem Moves.counted (h : Moves s t) (hs : s.Counted) : t.Counted := by
  cases h with
  | accept i fd hat hfd => exact hs.put _ rfl rfl (by simp [hat, Place.ahead, Place.behind])
  | client i h => exact h.counted hs
  | pump p h => exact h.counted hs
  | aside storyTid status => exact hs

/-! ## Jobs -/

/-- What is off the queue for good. -/
def Gone (queue : List ℕ) (made job : ℕ) : Prop := job < made ∧ job ∉ queue

/-- Whatever a thread has done with a job or has yet to do with it, other than to wait for it,
the job is off the queue. -/
structure Jobs (queue : List ℕ) (made : ℕ) (evaluated answered : List ℕ) (jobs : ℕ → Job)
    (client : Fin n → Place) (pump : Fin m → Pump) : Prop where
  queued : ∀ job ∈ queue, job < made
  nodup : queue.Nodup
  awaited : ∀ i job, (client i).awaits = some job → job < made
  dropped : ∀ i job, (client i).drops = some job → Gone queue made job
  pumped : ∀ p job, (pump p).job = some job → Gone queue made job
  finished : ∀ job, (jobs job).done = true → Gone queue made job
  responded : ∀ job ∈ answered, Gone queue made job
  ran : ∀ job ∈ evaluated, Gone queue made job
  /-- No job is evaluated twice: one that is evaluated is owed by no pump, and one that is owed
  by a pump is owed by no other. -/
  once : evaluated.Nodup
  owed : ∀ p job, (pump p).owes = some job → job ∉ evaluated
  alone : ∀ p q job, (pump p).owes = some job → (pump q).owes = some job → p = q

def State.Jobs (s : State n m) : Prop :=
  DebugServer.Jobs s.queue s.made s.evaluated s.answered s.jobs s.client s.pump

namespace Jobs

variable {queue evaluated answered : List ℕ} {made job : ℕ} {jobs : ℕ → Job}
  {client : Fin n → Place} {pump : Fin m → Pump}

/-- A client may come to a place that awaits a job that was made, or drops one that is gone. -/
theorem put (h : Jobs queue made evaluated answered jobs client pump) (i : Fin n) (place : Place)
    (hawaits : ∀ job, place.awaits = some job → job < made)
    (hdrops : ∀ job, place.drops = some job → Gone queue made job) :
    Jobs queue made evaluated answered jobs (Function.update client i place) pump := by
  refine { h with awaited := fun j job hj => ?_, dropped := fun j job hj => ?_ }
  · by_cases hji : j = i
    · rw [hji, Function.update_self] at hj
      exact hawaits job hj
    · rw [Function.update_of_ne hji] at hj
      exact h.awaited j job hj
  · by_cases hji : j = i
    · rw [hji, Function.update_self] at hj
      exact hdrops job hj
    · rw [Function.update_of_ne hji] at hj
      exact h.dropped j job hj

/-- A pump goes to another place: what it owes there, it owed before, or nobody has. -/
theorem putPump (h : Jobs queue made evaluated answered jobs client pump) (p : Fin m)
    (place : Pump) (hjob : ∀ job, place.job = some job → Gone queue made job)
    (howes : ∀ job, place.owes = some job →
      job ∉ evaluated ∧ ∀ q, q ≠ p → (pump q).owes ≠ some job) :
    Jobs queue made evaluated answered jobs client (Function.update pump p place) := by
  refine { h with
    pumped := fun q job hq => ?_
    owed := fun q job hq => ?_
    alone := fun q r job hq hr => ?_ }
  · by_cases hqp : q = p
    · rw [hqp, Function.update_self] at hq
      exact hjob job hq
    · rw [Function.update_of_ne hqp] at hq
      exact h.pumped q job hq
  · by_cases hqp : q = p
    · rw [hqp, Function.update_self] at hq
      exact (howes job hq).1
    · rw [Function.update_of_ne hqp] at hq
      exact h.owed q job hq
  · by_cases hqp : q = p <;> by_cases hrp : r = p
    · rw [hqp, hrp]
    · rw [hqp, Function.update_self] at hq
      rw [Function.update_of_ne hrp] at hr
      exact absurd hr ((howes job hq).2 r hrp)
    · rw [hrp, Function.update_self] at hr
      rw [Function.update_of_ne hqp] at hq
      exact absurd hq ((howes job hr).2 q hqp)
    · rw [Function.update_of_ne hqp] at hq
      rw [Function.update_of_ne hrp] at hr
      exact h.alone q r job hq hr

/-- A new job goes to the end of the queue. -/
theorem submit (h : Jobs queue made evaluated answered jobs client pump) {new : Job}
    (hnew : new.done = false) :
    Jobs (queue ++ [made]) (made + 1) evaluated answered (Function.update jobs made new) client
      pump := by
  have hgone (job : ℕ) (hjob : Gone queue made job) : Gone (queue ++ [made]) (made + 1) job := by
    have hlt := hjob.1
    refine ⟨by omega, ?_⟩
    rw [List.mem_append, List.mem_singleton]
    exact fun hmem => hmem.elim hjob.2 (by omega)
  refine { h with
    queued := fun job hjob => ?_
    nodup := ?_
    awaited := fun i job hi => (h.awaited i job hi).trans (Nat.lt_succ_self made)
    dropped := fun i job hi => hgone job (h.dropped i job hi)
    pumped := fun p job hp => hgone job (h.pumped p job hp)
    finished := fun job hdone => ?_
    responded := fun job hjob => hgone job (h.responded job hjob)
    ran := fun job hjob => hgone job (h.ran job hjob) }
  · rw [List.mem_append, List.mem_singleton] at hjob
    cases hjob with
    | inl hjob => exact (h.queued job hjob).trans (Nat.lt_succ_self made)
    | inr hjob => omega
  · refine h.nodup.append (List.nodup_singleton _) (List.disjoint_singleton.mpr fun hmem => ?_)
    exact absurd (h.queued made hmem) (lt_irrefl made)
  · by_cases hjob : job = made
    · rw [hjob, Function.update_self, hnew] at hdone
      exact absurd hdone Bool.false_ne_true
    · rw [Function.update_of_ne hjob] at hdone
      exact hgone job (h.finished job hdone)

/-- A job that is taken from the queue is gone from it. -/
theorem gone_erase (h : Jobs queue made evaluated answered jobs client pump) (hmem : job ∈ queue) :
    Gone (queue.erase job) made job :=
  ⟨h.queued job hmem, h.nodup.not_mem_erase⟩

/-- So it may be. -/
theorem erase (h : Jobs queue made evaluated answered jobs client pump) (job : ℕ) :
    Jobs (queue.erase job) made evaluated answered jobs client pump := by
  have hgone (other : ℕ) (hother : Gone queue made other) :
      Gone (queue.erase job) made other :=
    ⟨hother.1, fun hmem => hother.2 (List.mem_of_mem_erase hmem)⟩
  exact { h with
    queued := fun other hother => h.queued other (List.mem_of_mem_erase hother)
    nodup := h.nodup.erase job
    dropped := fun i other hi => hgone other (h.dropped i other hi)
    pumped := fun p other hp => hgone other (h.pumped p other hp)
    finished := fun other hdone => hgone other (h.finished other hdone)
    responded := fun other hother => hgone other (h.responded other hother)
    ran := fun other hother => hgone other (h.ran other hother) }

/-- A job that is gone from the queue may be answered. -/
theorem answer (h : Jobs queue made evaluated answered jobs client pump)
    (hjob : Gone queue made job) :
    Jobs queue made evaluated (answered ++ [job]) jobs client pump := by
  refine { h with responded := fun other hother => ?_ }
  rw [List.mem_append, List.mem_singleton] at hother
  cases hother with
  | inl hother => exact h.responded other hother
  | inr hother => exact hother ▸ hjob

/-- Its result may be set. -/
theorem finish (h : Jobs queue made evaluated answered jobs client pump) {new : Job}
    (hjob : Gone queue made job) :
    Jobs queue made evaluated answered (Function.update jobs job new) client pump := by
  refine { h with finished := fun other hdone => ?_ }
  by_cases hother : other = job
  · exact hother ▸ hjob
  · rw [Function.update_of_ne hother] at hdone
    exact h.finished other hdone

/-- It may be evaluated once. -/
theorem evaluate (h : Jobs queue made evaluated answered jobs client pump)
    (hjob : Gone queue made job) (hnew : job ∉ evaluated)
    (hfree : ∀ p, (pump p).owes ≠ some job) :
    Jobs queue made (evaluated ++ [job]) answered jobs client pump := by
  refine { h with ran := fun other hother => ?_, once := ?_, owed := fun p other hp => ?_ }
  · rw [List.mem_append, List.mem_singleton] at hother
    cases hother with
    | inl hother => exact h.ran other hother
    | inr hother => exact hother ▸ hjob
  · exact h.once.append (List.nodup_singleton _) (List.disjoint_singleton.mpr hnew)
  · rw [List.mem_append, List.mem_singleton]
    rintro (hother | rfl)
    · exact h.owed p other hp hother
    · exact hfree p hp

end Jobs

/-- A client's step keeps the jobs right. -/
theorem ClientStep.jobs (h : ClientStep s i t) (hs : s.Jobs) : t.Jobs := by
  -- a place that awaits or drops no job asks for nothing
  have hnone {place : Place} (hplace : place.awaits = none) :
      ∀ job, place.awaits = some job → job < s.made := by
    intro job hjob
    rw [hplace] at hjob
    exact absurd hjob.symm (Option.some_ne_none _)
  have hdropped {place : Place} {queue : List ℕ} {made : ℕ} (hplace : place.drops = none) :
      ∀ job, place.drops = some job → Gone queue made job := by
    intro job hjob
    rw [hplace] at hjob
    exact absurd hjob.symm (Option.some_ne_none _)
  have hsending {payload : Bytes} {job : ℕ} (hjob : Gone s.queue s.made job) :
      ∀ other, (Place.sending payload (some job)).drops = some other →
        Gone s.queue s.made other := by
    intro other hother
    exact Option.some.inj hother ▸ hjob
  cases h with
  | attach hat => exact Jobs.put hs i _ (hnone rfl) (hdropped rfl)
  | walk place statusLock hat hplace =>
    exact Jobs.put hs i place (hnone hplace.2.1) (hdropped hplace.2.2)
  | submit seq code client hat =>
    refine Jobs.put (Jobs.submit hs rfl) i _ (fun job hjob => ?_) (hdropped rfl)
    exact Option.some.inj hjob ▸ Nat.lt_succ_self s.made
  | count seq job hat =>
    exact Jobs.put hs i _ (fun other hother => hs.awaited i other (by rw [hat]; exact hother))
      (hdropped rfl)
  | finished seq job payload hat hdone =>
    exact Jobs.put hs i _ (hnone rfl) (hsending (hs.finished job hdone))
  | giveUp seq job result hat =>
    exact Jobs.put hs i _ (fun other hother => hs.awaited i other (by rw [hat]; exact hother))
      (hdropped rfl)
  | forget seq job result hat hmem =>
    refine Jobs.put (Jobs.erase hs job) i _ (hnone rfl) fun other hother => ?_
    exact Option.some.inj hother ▸ Jobs.gone_erase hs hmem
  | missing seq job result payload hat hmem =>
    exact Jobs.put hs i _ (hnone rfl) (hsending ⟨hs.awaited i job (by rw [hat]; rfl), hmem⟩)
  | uncount seq job result payload hat =>
    exact Jobs.put hs i _ (hnone rfl) (hsending (hs.dropped i job (by rw [hat]; rfl)))
  | answer payload job place hat hplace =>
    exact Jobs.put (Jobs.answer hs (hs.dropped i job (by rw [hat]; rfl))) i place
      (hnone hplace.2.1) (hdropped hplace.2.2)
  | detach hat => exact Jobs.put hs i _ (hnone rfl) (hdropped rfl)

/-- A pump's step does. -/
theorem PumpStep.jobs (h : PumpStep s p t) (hs : s.Jobs) : t.Jobs := by
  have hnone {place : Pump} {queue : List ℕ} {made : ℕ} (hplace : place.job = none) :
      ∀ job, place.job = some job → Gone queue made job := by
    intro job hjob
    rw [hplace] at hjob
    exact absurd hjob.symm (Option.some_ne_none _)
  -- what a pump owes where it is, it may owe where it goes
  have howes {place : Pump} (hplace : ∀ job, place.owes = some job → (s.pump p).owes = some job) :
      ∀ job, place.owes = some job →
        job ∉ s.evaluated ∧ ∀ q, q ≠ p → (s.pump q).owes ≠ some job := by
    intro job hjob
    have hown := hplace job hjob
    exact ⟨hs.owed p job hown, fun q hq hother => hq (hs.alone q p job hother hown)⟩
  have hidle {place : Pump} (hplace : place.job = none) :
      ∀ job, place.owes = some job → (s.pump p).owes = some job := by
    intro job hjob
    cases place with
    | discounting clientJobs job => exact absurd hplace (Option.some_ne_none _)
    | evaluating clientJobs job => exact absurd hplace (Option.some_ne_none _)
    | _ => exact absurd hjob.symm (Option.some_ne_none _)
  cases h with
  | walk place clientPumps hat hplace =>
    exact Jobs.putPump hs p place (hnone hplace) (howes (hidle hplace))
  | take clientJobs job hat hmem =>
    refine Jobs.putPump (Jobs.erase hs job) p _ (fun other hother => ?_) fun other hother => ?_
    · exact Option.some.inj hother ▸ Jobs.gone_erase hs hmem
    · rw [← Option.some.inj hother]
      -- what is still in the queue no pump has, and it has not been evaluated
      have howed (q : Fin m) : (s.pump q).owes ≠ some job := by
        intro hq
        exact (hs.pumped q job (Pump.job_of_owes hq)).2 hmem
      exact ⟨fun hran => (hs.ran job hran).2 hmem, fun q _ => howed q⟩
  | discount clientJobs job hat =>
    refine Jobs.putPump hs p _ (fun other hother => ?_) (howes fun other hother => ?_)
    · exact hs.pumped p other (by rw [hat]; exact hother)
    · rw [hat]
      exact hother
  | evaluate clientJobs job result error hat =>
    have howed : (s.pump p).owes = some job := by rw [hat]; rfl
    have hgone := hs.pumped p job (Pump.job_of_owes howed)
    have hmoved := Jobs.putPump hs p (.finishing clientJobs job result error)
      (fun other hother => Option.some.inj hother ▸ hgone)
      (fun other hother => absurd hother.symm (Option.some_ne_none _))
    refine Jobs.evaluate hmoved hgone (hs.owed p job howed) fun q hq => ?_
    simp only [State.putPump] at hq
    by_cases hqp : q = p
    · rw [hqp, Function.update_self] at hq
      exact absurd hq.symm (Option.some_ne_none _)
    · rw [Function.update_of_ne hqp] at hq
      exact hqp (hs.alone q p job hq howed)
  | finish clientJobs job result error hat =>
    have hgone := hs.pumped p job (by rw [hat]; rfl)
    exact Jobs.putPump (Jobs.finish hs hgone) p _ (hnone rfl)
      (fun other hother => absurd hother.symm (Option.some_ne_none _))

/-- Every step does. -/
theorem Moves.jobs (h : Moves s t) (hs : s.Jobs) : t.Jobs := by
  cases h with
  | accept i fd hat hfd =>
    exact Jobs.put hs i _ (fun job hjob => absurd hjob.symm (Option.some_ne_none _))
      (fun job hjob => absurd hjob.symm (Option.some_ne_none _))
  | client i h => exact h.jobs hs
  | pump p h => exact h.jobs hs
  | aside storyTid status => exact hs

/-! ## Runs -/

/-- No thread is between a change of the queue and the change of the counter. -/
def State.Settled (s : State n m) : Prop :=
  (∀ i, (s.client i).ahead = false ∧ (s.client i).behind = false) ∧ ∀ p, (s.pump p).behind = false

/-- What the server promises of its queue, its counter and its list of clients. A connection's
`handle_client` is under way from its first critical section to its last. -/
structure State.Holds (s : State n m) : Prop where
  evaluatedOnce : s.evaluated.Nodup
  answeredOut : ∀ job ∈ s.answered, job ∉ s.queue
  counted : s.Settled → s.pending = s.queue.length
  clientsOnce : s.clients.Nodup
  clients : ∀ fd, fd ∈ s.clients ↔ ∃ i, (s.client i).phase = .underWay ∧ s.fd i = fd

/-- What every state has, whatever is lost. -/
structure State.Inv (s : State n m) : Prop where
  table : s.table.Kept
  counted : s.Counted
  jobs : s.Jobs

theorem kept_start (status : List Bytes) (opened : List ℕ) :
    (State.start status opened : State n m).table.Kept where
  opened := fun _ hi => absurd rfl hi
  distinct := fun _ _ hi => absurd rfl hi
  attached := fun _ hi => absurd hi (by simp [State.table, State.start, Place.phase])
  starting := fun _ hi => absurd hi (by simp [State.table, State.start, Place.phase])
  clients := fun _ hfd => absurd hfd List.not_mem_nil
  nodup := List.nodup_nil

theorem counted_start (status : List Bytes) (opened : List ℕ) :
    (State.start status opened : State n m).Counted := by
  have hplace (p : Place → Bool) (hp : p .outside = false) :
      tally p (State.start status opened : State n m).client = 0 :=
    (tally_eq_zero_iff _ _).mpr fun _ => hp
  have hpump : tally Pump.behind (State.start status opened : State n m).pump = 0 :=
    (tally_eq_zero_iff _ _).mpr fun _ => rfl
  rw [State.Counted, hplace _ rfl, hplace _ rfl, hpump]
  rfl

theorem jobs_start (status : List Bytes) (opened : List ℕ) :
    (State.start status opened : State n m).Jobs where
  queued := fun _ hjob => absurd hjob List.not_mem_nil
  nodup := List.nodup_nil
  awaited := fun _ _ hjob => absurd hjob.symm (Option.some_ne_none _)
  dropped := fun _ _ hjob => absurd hjob.symm (Option.some_ne_none _)
  pumped := fun _ _ hjob => absurd hjob.symm (Option.some_ne_none _)
  finished := fun _ hdone => absurd hdone Bool.false_ne_true
  responded := fun _ hjob => absurd hjob List.not_mem_nil
  ran := fun _ hjob => absurd hjob List.not_mem_nil
  once := List.nodup_nil
  owed := fun _ _ hjob => absurd hjob.symm (Option.some_ne_none _)
  alone := fun _ _ _ hjob => absurd hjob.symm (Option.some_ne_none _)

/-- A connection that is lost takes nothing along but its thread. -/
theorem State.Inv.lost (h : s.Inv) (hat : (s.client i).Plain) :
    ({ s with statusLock := false }.put i .outside).Inv := by
  refine ⟨?_, h.counted.put _ rfl rfl ?_, Jobs.put h.jobs i _ ?_ ?_⟩
  · rw [table_lost]
    exact h.table.lose i
  · rw [Place.ahead_of_plain hat, Place.behind_of_plain hat]
    rfl
  · exact fun job hjob => absurd hjob.symm (Option.some_ne_none _)
  · exact fun job hjob => absurd hjob.symm (Option.some_ne_none _)

/-- All of it is kept by every step. -/
theorem State.Inv.step {a : Action n m} (h : s.Inv) (hstep : DebugServer.step s a = some t) :
    t.Inv := by
  by_cases ha : ∃ i, a = .client i (.line false)
  · obtain ⟨i, rfl⟩ := ha
    have hlost := clientStep_lost hstep
    exact hlost.2 ▸ h.lost hlost.1
  · have hmoves := step_cases hstep fun i heq => ha ⟨i, heq⟩
    exact ⟨h.table.step hmoves.table, hmoves.counted h.counted, hmoves.jobs h.jobs⟩

variable {status : List Bytes} {opened : List ℕ} {as : List (Action n m)}

/-- So it holds along every run. -/
theorem inv_of_run (hrun : Run step (fun _ _ => True) (State.start status opened) as s) :
    s.Inv :=
  hrun.invariant ⟨kept_start status opened, counted_start status opened, jobs_start status opened⟩
    fun _ _ _ h _ hstep => h.step hstep

/-- In the replay, a line is not sent. -/
def Lost (as : List (Action n m)) : Prop := ∃ i, Action.client i (.line false) ∈ as

/-- The list of clients is exact until a connection is lost, and then has it forever. -/
theorem exact_or_leaks (hrun : Run step (fun _ _ => True) (State.start status opened) as s) :
    (¬ Lost as → s.table.Exact) ∧ (Lost as → s.table.Leaks) := by
  generalize hstart : (State.start status opened : State n m) = s₀ at hrun
  induction hrun with
  | refl =>
    subst hstart
    refine ⟨fun _ fd hfd => absurd hfd List.not_mem_nil, fun hlost => ?_⟩
    obtain ⟨i, hi⟩ := hlost
    exact absurd hi List.not_mem_nil
  | @step t u as a hrun _ hstep ih =>
    subst hstart
    have hinv := inv_of_run hrun
    by_cases ha : ∃ i, a = .client i (.line false)
    · obtain ⟨i, rfl⟩ := ha
      have hlost := clientStep_lost hstep
      refine ⟨fun hnot => absurd ⟨i, List.mem_append_right _ (List.mem_singleton_self _)⟩ hnot,
        fun _ => ?_⟩
      rw [hlost.2, table_lost]
      exact hinv.table.leaks_lose hlost.1.1
    · have hmoves := step_cases hstep fun i heq => ha ⟨i, heq⟩
      have hsame : Lost (as ++ [a]) ↔ Lost as := by
        refine exists_congr fun i => ?_
        rw [List.mem_append, List.mem_singleton]
        exact or_iff_left fun heq => ha ⟨i, heq.symm⟩
      rw [hsame]
      exact ⟨fun hnot => (ih.1 hnot).step hmoves.table,
        fun hlost => (ih.2 hlost).step hinv.table hmoves.table⟩

/-- When all is settled, what is pending is what is in the queue. -/
theorem State.Counted.settled (h : s.Counted) (hsettled : s.Settled) :
    s.pending = s.queue.length := by
  have hahead := (tally_eq_zero_iff Place.ahead s.client).mpr fun i => (hsettled.1 i).1
  have hbehind := (tally_eq_zero_iff Place.behind s.client).mpr fun i => (hsettled.1 i).2
  have hpump := (tally_eq_zero_iff Pump.behind s.pump).mpr hsettled.2
  rw [State.Counted, hahead, hbehind, hpump] at h
  omega

/-- In every run, the server has what it promises just as long as no connection is lost in the
replay of the history. -/
theorem holds_iff_of_run (hrun : Run step (fun _ _ => True) (State.start status opened) as s) :
    s.Holds ↔ ∀ i, Action.client i (.line false) ∉ as := by
  have hinv := inv_of_run hrun
  have hclients := exact_or_leaks hrun
  constructor
  · intro h i hi
    obtain ⟨fd, hfd, hnone⟩ := hclients.2 ⟨i, hi⟩
    obtain ⟨j, hj, hsame⟩ := (h.clients fd).mp hfd
    exact hnone j (by simp [State.table, hj]) hsame
  · intro h
    have hexact := hclients.1 fun hlost => hlost.elim h
    refine ⟨hinv.jobs.once, fun job hjob => (hinv.jobs.responded job hjob).2,
      hinv.counted.settled, hinv.table.nodup, fun fd => ⟨hexact fd, fun hfd => ?_⟩⟩
    obtain ⟨i, hi, rfl⟩ := hfd
    exact hinv.table.attached i hi

/-- A client that has one expression evaluated in the client's context and goes. -/
def oneEvaluation : List (Action 1 1) :=
  [.accept 0 7, .client 0 .go, .client 0 .go, .client 0 .go,
    .client 0 (.packet (some 11) (some [0x3a, 5, 0x08, 1, 0x12, 1, 0x78]) false),
    .client 0 .go, .client 0 .go, .debugServerPumpClient 0, .pump 0 [] [], .pump 0 [] [],
    .pump 0 [] [], .pump 0 (bytes "1") [], .pump 0 [] [], .client 0 .go,
    .client 0 (.response true), .client 0 (.packet none none false), .client 0 .go]

/-- One evaluation, from the client's line to its answer. -/
theorem holds_iff_of_run_evaluation :
    ∃ s, Run step (fun _ _ => True) (State.start [] []) oneEvaluation s ∧
      s.evaluated = [0] ∧ (s.Holds ↔ ∀ i, Action.client i (.line false) ∉ oneEvaluation) := by
  obtain ⟨s, hrun, hs⟩ := Run.exists_of_follow step (fun _ _ => True) (State.start [] [])
    oneEvaluation (fun s => s.evaluated = [0]) (by decide +kernel)
  exact ⟨s, hrun, by simpa using hs, holds_iff_of_run hrun⟩

/-- A client that has gone before its first line is sent stays in the list. -/
theorem lost_client_stays :
    ∃ s, Run step (fun _ _ => True) (State.start [bytes "bg3le"] [] : State 1 0)
      [.accept 0 7, .client 0 .go, .client 0 .go, .client 0 (.line false)] s ∧ ¬ s.Holds := by
  obtain ⟨s, hrun, hs⟩ := Run.exists_of_follow step (fun _ _ => True)
    (State.start [bytes "bg3le"] [] : State 1 0)
    [.accept 0 7, .client 0 .go, .client 0 .go, .client 0 (.line false)]
    (fun s => s.clients = [7] ∧ (s.client 0).phase = .outside) (by decide +kernel)
  refine ⟨s, hrun, fun h => ?_⟩
  simp only [decide_eq_true_eq] at hs
  obtain ⟨i, hi, _⟩ := (h.clients 7).mp (by simp [hs.1])
  rw [Subsingleton.elim i 0, hs.2] at hi
  exact absurd hi (by simp)

end DebugServer
end Net
end Bg3le
