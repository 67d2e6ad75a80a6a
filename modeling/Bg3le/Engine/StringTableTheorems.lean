import Bg3le.Engine.StringTable
import Bg3le.Library.TaggedStack

/-!
# Interned texts are kept, and the free lists whole

A call of `bg3le_fixed_string_intern` takes an entry that nobody else has, whatever the engine does
between its accesses to the table, and gives up only if the engine has moved as often as it tried.
-/

namespace Bg3le
namespace StringTable

variable {tables : ℕ → SubTable} {s t : State} {sub id head : ℕ} {text : Bytes} {c : Call}
  {nodes : List (ℕ × ℕ)}

/-! ## Free lists -/

/-- The links of the free entries. -/
def State.next (s : State) (id : ℕ) : ℕ := (s.headers id).nextFreeIndex

/-- A free list is whole: it has every free entry of its sub-table once, and all of them read as
free. -/
structure Whole (tables : ℕ → SubTable) (s : State) (sub : ℕ) (nodes : List (ℕ × ℕ)) : Prop where
  stack : TaggedStack (nodeOf tables sub) s.next (s.heads sub) nodes
  nodup : (nodes.map Prod.snd).Nodup
  used : ∀ head ∈ nodes.map Prod.fst, head ∈ s.used sub
  free : ∀ id ∈ nodes.map Prod.snd,
    s.owner id = .list ∧ (s.headers id).refCount = 0 ∧ (s.headers id).length = 0
  all : ∀ id, subOf id = sub → s.owner id = .list → id ∈ nodes.map Prod.snd

theorem nodeOf_eq_some : nodeOf tables sub head = some id ↔
    head % 2 ^ 32 = id ∧ subOf id = sub ∧ (tables sub).has id = true := by
  unfold nodeOf
  constructor
  · intro h
    split at h
    · next hnode =>
      obtain rfl := Option.some.inj h
      exact ⟨rfl, hnode⟩
    · cases h
  · rintro ⟨rfl, hnode⟩
    exact if_pos hnode

/-- An entry on a list is one of its sub-table. -/
theorem Whole.sub_eq (h : Whole tables s sub nodes) (hmem : id ∈ nodes.map Prod.snd) : subOf id = sub := by
  obtain ⟨⟨head, id⟩, hpair, rfl⟩ := List.mem_map.mp hmem
  exact (nodeOf_eq_some.mp (h.stack.nodeOf_of_mem hpair)).2.1

/-- What happens elsewhere does not matter to a list. -/
theorem Whole.frame (h : Whole tables s sub nodes) (hheads : t.heads sub = s.heads sub)
    (hused : t.used sub = s.used sub)
    (hheaders : ∀ id ∈ nodes.map Prod.snd, t.headers id = s.headers id)
    (howner : ∀ id, subOf id = sub → (t.owner id = .list ↔ s.owner id = .list)) :
    Whole tables t sub nodes where
  stack := by
    rw [hheads]
    refine h.stack.congr fun id hid => ?_
    unfold State.next
    rw [hheaders id hid]
  nodup := h.nodup
  used := by
    rw [hused]
    exact h.used
  free id hid := by
    rw [howner id (h.sub_eq hid), hheaders id hid]
    exact h.free id hid
  all id hsub hlist := h.all id hsub ((howner id hsub).mp hlist)

/-- The entry on top is taken off. -/
theorem Whole.pop (h : Whole tables s sub nodes) (hnode : nodeOf tables sub (s.heads sub) = some id)
    (hheads : t.heads sub = s.next id) (hused : t.used sub = s.used sub)
    (hheaders : t.headers = s.headers) (owner : Owner) (hne : owner ≠ .list)
    (howner : t.owner = Function.update s.owner id owner) :
    ∃ rest, nodes = (s.heads sub, id) :: rest ∧ Whole tables t sub rest := by
  obtain ⟨rest, rfl, hstack⟩ := h.stack.pop hnode
  have hnodup := List.nodup_cons.mp h.nodup
  have hother {other : ℕ} (hother : other ∈ rest.map Prod.snd) : other ≠ id := by
    rintro rfl
    exact hnodup.1 hother
  refine ⟨rest, rfl, ?_, hnodup.2, ?_, fun other hmem => ?_, fun other hsub hlist => ?_⟩
  · rw [hheads]
    refine hstack.congr fun other hother => ?_
    unfold State.next
    rw [hheaders]
  · rw [hused]
    exact fun v hv => h.used v (List.mem_cons_of_mem _ hv)
  · rw [howner, Function.update_of_ne (hother hmem), hheaders]
    exact h.free other (List.mem_cons_of_mem _ hmem)
  · rw [howner] at hlist
    by_cases heq : other = id
    · rw [heq, Function.update_self] at hlist
      exact absurd hlist hne
    · rw [Function.update_of_ne heq] at hlist
      exact (List.mem_cons.mp (h.all other hsub hlist)).resolve_left heq

/-- An entry is put on top. -/
theorem Whole.push (h : Whole tables s sub nodes) (hrelease : Releasable tables s sub head)
    (hheads : t.heads sub = head) (hused : t.used sub = head :: s.used sub)
    (hheaders : t.headers = s.headers)
    (howner : t.owner = Function.update s.owner (head % 2 ^ 32) .list) :
    Whole tables t sub ((head, head % 2 ^ 32) :: nodes) := by
  obtain ⟨id, hnode, hengine, -, hcount, hlength, hlink⟩ := hrelease
  obtain ⟨rfl, -, -⟩ := nodeOf_eq_some.mp hnode
  -- the engine's entry cannot be on the list it is put on
  have hnew : head % 2 ^ 32 ∉ nodes.map Prod.snd := by
    intro hmem
    have hlist := (h.free _ hmem).1
    rw [hengine] at hlist
    cases hlist
  have hstack : TaggedStack (nodeOf tables sub) t.next (s.heads sub) nodes :=
    h.stack.congr fun id hid => by
      unfold State.next
      rw [hheaders]
  refine ⟨?_, List.nodup_cons.mpr ⟨hnew, h.nodup⟩, ?_, fun id hid => ?_, fun id hsub hlist => ?_⟩
  · rw [hheads]
    refine hstack.push hnode ?_
    unfold State.next
    rw [hheaders, hlink]
  · rw [hused]
    intro v hv
    rcases List.mem_cons.mp hv with rfl | hv
    · exact List.mem_cons_self
    · exact List.mem_cons_of_mem _ (h.used v hv)
  · rw [howner, hheaders]
    rcases List.mem_cons.mp hid with rfl | hid
    · rw [Function.update_self]
      exact ⟨rfl, hcount, hlength⟩
    · have hne : id ≠ head % 2 ^ 32 := by
        rintro rfl
        exact hnew hid
      rw [Function.update_of_ne hne]
      exact h.free id hid
  · rw [howner] at hlist
    by_cases heq : id = head % 2 ^ 32
    · rw [heq]
      exact List.mem_cons_self
    · rw [Function.update_of_ne heq] at hlist
      exact List.mem_cons_of_mem _ (h.all id hsub hlist)

/-- The entry of a head that the list comes to. -/
theorem Whole.node_mem (h : Whole tables s sub nodes) (hmem : head ∈ nodes.map Prod.fst) :
    head % 2 ^ 32 ∈ nodes.map Prod.snd := by
  obtain ⟨⟨head, id⟩, hpair, rfl⟩ := List.mem_map.mp hmem
  obtain ⟨rfl, -⟩ := nodeOf_eq_some.mp (h.stack.nodeOf_of_mem hpair)
  exact List.mem_map_of_mem (f := Prod.snd) hpair

/-- The head of a list that has an entry on top is one that the list comes to. -/
theorem Whole.head_mem (h : Whole tables s sub nodes) (hnode : nodeOf tables sub (s.heads sub) = some id) :
    s.heads sub ∈ nodes.map Prod.fst := by
  obtain ⟨rest, rfl, -⟩ := h.stack.pop hnode
  exact List.mem_cons_self

/-! ## Calls -/

/-- What a call knows of a head that it has loaded, with what it has seen below it. -/
structure Loaded (tables : ℕ → SubTable) (s : State) (c : Call) (nodes : List (ℕ × ℕ)) (head : ℕ)
    (seen : Prop) : Prop where
  node : nodeOf tables c.sub head = some (head % 2 ^ 32)
  still (h : s.moves c.sub = c.began) : s.heads c.sub = head
  seen : TaggedStack.Seen (s.used c.sub) nodes head seen

/-- An entry that a call has taken. -/
structure Taken (tables : ℕ → SubTable) (s : State) (c : Call) (id : ℕ) : Prop where
  sub_eq : subOf id = c.sub
  has : (tables c.sub).has id = true
  owner : s.owner id = .ours
  new : ∀ text, (text, Outcome.interned id) ∉ s.outcomes

/-- What a call knows at a stage. -/
def Stage.Right (tables : ℕ → SubTable) (s : State) (c : Call) (nodes : List (ℕ × ℕ)) : Stage → Prop
  | .load => True
  | .readCount head => Loaded tables s c nodes head True
  | .readLength head refCount => Loaded tables s c nodes head (refCount = 0)
  | .readNext head refCount length => Loaded tables s c nodes head (refCount = 0 ∧ length = 0)
  | .exchange head next => Loaded tables s c nodes head (next = s.next (head % 2 ^ 32))
  | .write id => Taken tables s c id
  | .check id => Taken tables s c id ∧ (s.headers id).length = c.text.length ∧ s.texts id = c.text

/-- A call that is going on. Every attempt that was lost was lost to a move of the engine. -/
structure Call.Right (tables : ℕ → SubTable) (s : State) (nodes : List (ℕ × ℕ)) (c : Call) : Prop where
  began : c.began ≤ s.moves c.sub
  attempts : c.attempts + c.start ≤ c.began
  takes : (tables c.sub).takes c.text.length = true
  sub_lt : c.sub < kSubTableCount
  new : s.ours c.text = none
  stage : c.stage.Right tables s c nodes

/-- A text that was interned under an id. -/
structure Interned (tables : ℕ → SubTable) (s : State) (text : Bytes) (id : ℕ) : Prop where
  ours : s.ours text = some id
  owner : s.owner id = .ours
  resolves : resolve tables s.headers s.texts id = some (text, text.length)

/-- What holds between any two steps. -/
structure Sound (tables : ℕ → SubTable) (s : State) : Prop where
  whole (sub : ℕ) : ∃ nodes, Whole tables s sub nodes
  call {c : Call} (h : s.call = some c) :
    ∃ nodes, Whole tables s c.sub nodes ∧ c.Right tables s nodes
  interned {text : Bytes} {id : ℕ} (h : (text, Outcome.interned id) ∈ s.outcomes) :
    Interned tables s text id
  misread {text : Bytes} {id : ℕ} : (text, Outcome.misread id) ∉ s.outcomes
  lost {text : Bytes} {moves : ℕ} (h : (text, Outcome.lost moves) ∈ s.outcomes) : kAttempts ≤ moves

/-- What a call knows goes over to another state. -/
theorem Stage.Right.imp {stage : Stage} {nodes' : List (ℕ × ℕ)} (h : stage.Right tables s c nodes)
    (hwhole : Whole tables t c.sub nodes')
    (hloaded : ∀ head seen, Loaded tables s c nodes head seen → Loaded tables t c nodes' head seen)
    (hheaders : ∀ id ∈ nodes'.map Prod.snd, t.headers id = s.headers id)
    (houtcomes : t.outcomes = s.outcomes)
    (hours : ∀ id, s.owner id = .ours → t.owner id = .ours ∧
      (t.headers id).length = (s.headers id).length ∧ t.texts id = s.texts id) :
    stage.Right tables t c nodes' := by
  have htaken {id : ℕ} (h : Taken tables s c id) : Taken tables t c id :=
    ⟨h.sub_eq, h.has, (hours id h.owner).1, houtcomes ▸ h.new⟩
  cases stage with
  | load => trivial
  | readCount head => exact hloaded _ _ h
  | readLength head refCount => exact hloaded _ _ h
  | readNext head refCount length => exact hloaded _ _ h
  | exchange head next =>
    obtain ⟨hnode, hstill, hseen⟩ := hloaded _ _ h
    refine ⟨hnode, hstill, hseen.imp fun hmem hnext => ?_⟩
    unfold State.next at hnext ⊢
    rw [hnext, hheaders _ (hwhole.node_mem hmem)]
  | write id => exact htaken h
  | check id =>
    obtain ⟨htook, hlength, htext⟩ := h
    obtain ⟨-, hlength', htext'⟩ := hours id htook.owner
    exact ⟨htaken htook, hlength'.trans hlength, htext'.trans htext⟩

/-- What happens elsewhere does not matter to a call. -/
theorem Call.Right.frame (h : c.Right tables s nodes) (hwhole : Whole tables t c.sub nodes)
    (hheads : t.heads c.sub = s.heads c.sub) (hused : t.used c.sub = s.used c.sub)
    (hmoves : t.moves c.sub = s.moves c.sub)
    (hheaders : ∀ id ∈ nodes.map Prod.snd, t.headers id = s.headers id) (hknown : t.ours = s.ours)
    (houtcomes : t.outcomes = s.outcomes)
    (hours : ∀ id, s.owner id = .ours → t.owner id = .ours ∧
      (t.headers id).length = (s.headers id).length ∧ t.texts id = s.texts id) :
    c.Right tables t nodes where
  began := hmoves ▸ h.began
  attempts := h.attempts
  takes := h.takes
  sub_lt := h.sub_lt
  new := hknown ▸ h.new
  stage := by
    refine h.stage.imp hwhole (fun head seen hload => ?_) hheaders houtcomes hours
    exact ⟨hload.node, fun hsame => hheads.trans (hload.still (hmoves ▸ hsame)), hused ▸ hload.seen⟩

/-- A move of the engine on the list that a call takes an entry from. -/
theorem Call.Right.moved {nodes' : List (ℕ × ℕ)} (h : c.Right tables s nodes)
    (hwhole : Whole tables t c.sub nodes') (hmoves : t.moves c.sub = s.moves c.sub + 1)
    (hseen : ∀ head seen, TaggedStack.Seen (s.used c.sub) nodes head seen →
      TaggedStack.Seen (t.used c.sub) nodes' head seen)
    (hheaders : t.headers = s.headers) (htexts : t.texts = s.texts) (hknown : t.ours = s.ours)
    (houtcomes : t.outcomes = s.outcomes) (howner : ∀ id, s.owner id = .ours → t.owner id = .ours) :
    c.Right tables t nodes' where
  began := by
    have hbegan := h.began
    omega
  attempts := h.attempts
  takes := h.takes
  sub_lt := h.sub_lt
  new := hknown ▸ h.new
  stage := by
    refine h.stage.imp hwhole (fun head seen hload => ?_) (fun id hid => by rw [hheaders]) houtcomes
      fun id hid => ⟨howner id hid, by rw [hheaders], by rw [htexts]⟩
    refine ⟨hload.node, fun hsame => ?_, hseen head seen hload.seen⟩
    have hbegan := h.began
    omega

/-! ## Steps of the engine -/

theorem Interned.frame (h : Interned tables s text id) (hknown : t.ours text = s.ours text)
    (howner : t.owner id = s.owner id) (hlength : (t.headers id).length = (s.headers id).length)
    (htext : t.texts id = s.texts id) : Interned tables t text id := by
  refine ⟨hknown.trans h.ours, howner.trans h.owner, ?_⟩
  have hresolves := h.resolves
  unfold resolve at hresolves ⊢
  rw [hlength, htext]
  exact hresolves

/-- The engine's steps leave our entries and the calls that were made alone. -/
structure Foreign (s t : State) : Prop where
  ours : t.ours = s.ours
  call : t.call = s.call
  outcomes : t.outcomes = s.outcomes
  kept : ∀ id, s.owner id = .ours → t.owner id = .ours ∧
    (t.headers id).length = (s.headers id).length ∧ t.texts id = s.texts id

/-- A step of the engine after which the lists are whole, and the call that is going on is right. -/
theorem Sound.foreign (h : Sound tables s) (hforeign : Foreign s t)
    (hwhole : ∀ sub nodes, Whole tables s sub nodes → ∃ nodes', Whole tables t sub nodes' ∧
      ∀ c : Call, c.sub = sub → c.Right tables s nodes → c.Right tables t nodes') : Sound tables t := by
  refine ⟨fun sub => ?_, fun {c} hc => ?_, fun {text id} hmem => ?_, fun {text id} => ?_,
    fun {text moves} hmem => ?_⟩
  · obtain ⟨nodes, hnodes⟩ := h.whole sub
    obtain ⟨nodes', hnodes', -⟩ := hwhole sub nodes hnodes
    exact ⟨nodes', hnodes'⟩
  · rw [hforeign.call] at hc
    obtain ⟨nodes, hnodes, hright⟩ := h.call hc
    obtain ⟨nodes', hnodes', hkeep⟩ := hwhole c.sub nodes hnodes
    exact ⟨nodes', hnodes', hkeep c rfl hright⟩
  · rw [hforeign.outcomes] at hmem
    have hinterned := h.interned hmem
    obtain ⟨howner, hlength, htext⟩ := hforeign.kept id hinterned.owner
    exact hinterned.frame (by rw [hforeign.ours]) (howner.trans hinterned.owner.symm) hlength htext
  · rw [hforeign.outcomes]
    exact h.misread
  · rw [hforeign.outcomes] at hmem
    exact h.lost hmem

/-- An entry of another list. -/
theorem ne_of_sub {sub' other : ℕ} (hsub : sub' ≠ sub) (hid : subOf id = sub) (hother : subOf other = sub') :
    other ≠ id := by
  rintro rfl
  exact hsub (hother.symm.trans hid)

theorem ne_of_owner {owner owner' : Owner} {other : ℕ} (hid : s.owner id = owner)
    (hother : s.owner other = owner') (hne : owner' ≠ owner) : other ≠ id := by
  rintro rfl
  exact hne (hother.symm.trans hid)

theorem Sound.take (h : Sound tables s) (hnode : nodeOf tables sub (s.heads sub) = some id) :
    Sound tables (s.take sub id) := by
  have hid := (nodeOf_eq_some.mp hnode).2.1
  have hlist : s.owner id = .list := by
    obtain ⟨top, htop⟩ := h.whole sub
    obtain ⟨rest, rfl, -⟩ := htop.stack.pop hnode
    exact (htop.free id List.mem_cons_self).1
  have hours (other : ℕ) (hother : s.owner other = .ours) : (s.take sub id).owner other = .ours :=
    (Function.update_of_ne (ne_of_owner hlist hother nofun) _ _).trans hother
  refine h.foreign ⟨rfl, rfl, rfl, fun other hother => ⟨hours other hother, rfl, rfl⟩⟩
    fun sub' nodes hnodes => ?_
  by_cases hsub : sub' = sub
  · subst hsub
    obtain ⟨rest, rfl, hrest⟩ := hnodes.pop (t := s.take sub' id) hnode
      (Function.update_self ..) rfl rfl .engine nofun rfl
    refine ⟨rest, hrest, fun c hc hright => ?_⟩
    subst hc
    exact hright.moved hrest (Function.update_self ..) (fun _ _ => TaggedStack.Seen.pop) rfl rfl rfl rfl
      hours
  · have howner (other : ℕ) (hother : subOf other = sub') :
        (s.take sub id).owner other = .list ↔ s.owner other = .list :=
      iff_of_eq (congrArg (· = Owner.list) (Function.update_of_ne (ne_of_sub hsub hid hother) _ _))
    have hframe := hnodes.frame (t := s.take sub id) (Function.update_of_ne hsub _ _) rfl
      (fun _ _ => rfl) howner
    refine ⟨nodes, hframe, fun c hc hright => ?_⟩
    subst hc
    exact hright.frame hframe (Function.update_of_ne hsub _ _) rfl (Function.update_of_ne hsub _ _)
      (fun _ _ => rfl) rfl rfl fun other hother => ⟨hours other hother, rfl, rfl⟩

theorem Sound.release (h : Sound tables s) (hrelease : Releasable tables s sub head) :
    Sound tables (s.release sub head) := by
  obtain ⟨id, hnode, hengine, hnew, -⟩ := id hrelease
  obtain ⟨rfl, hid, -⟩ := nodeOf_eq_some.mp hnode
  have hours (other : ℕ) (hother : s.owner other = .ours) : (s.release sub head).owner other = .ours :=
    (Function.update_of_ne (ne_of_owner hengine hother nofun) _ _).trans hother
  refine h.foreign ⟨rfl, rfl, rfl, fun other hother => ⟨hours other hother, rfl, rfl⟩⟩
    fun sub' nodes hnodes => ?_
  by_cases hsub : sub' = sub
  · subst hsub
    have hpush := hnodes.push (t := s.release sub' head) hrelease (Function.update_self ..)
      (Function.update_self ..) rfl rfl
    refine ⟨_, hpush, fun c hc hright => ?_⟩
    subst hc
    refine hright.moved hpush (Function.update_self ..) (fun head' seen hseen => ?_) rfl rfl rfl rfl hours
    have hused : (s.release c.sub head).used c.sub = head :: s.used c.sub := Function.update_self ..
    rw [hused]
    exact hseen.push hnew
  · have howner (other : ℕ) (hother : subOf other = sub') :
        (s.release sub head).owner other = .list ↔ s.owner other = .list :=
      iff_of_eq (congrArg (· = Owner.list) (Function.update_of_ne (ne_of_sub hsub hid hother) _ _))
    have hframe := hnodes.frame (t := s.release sub head) (Function.update_of_ne hsub _ _)
      (Function.update_of_ne hsub _ _) (fun _ _ => rfl) howner
    refine ⟨nodes, hframe, fun c hc hright => ?_⟩
    subst hc
    exact hright.frame hframe (Function.update_of_ne hsub _ _) (Function.update_of_ne hsub _ _)
      (Function.update_of_ne hsub _ _) (fun _ _ => rfl) rfl rfl
      fun other hother => ⟨hours other hother, rfl, rfl⟩

/-- Writing to the header of an entry that is on no list. -/
theorem Sound.header (h : Sound tables s) (hforeign : Foreign s t) (hheads : t.heads = s.heads)
    (hused : t.used = s.used) (hmoves : t.moves = s.moves) (howner : t.owner = s.owner)
    (hheaders : ∀ other, s.owner other = .list → t.headers other = s.headers other) : Sound tables t := by
  refine h.foreign hforeign fun sub nodes hnodes => ?_
  have hsame (other : ℕ) (hother : other ∈ nodes.map Prod.snd) : t.headers other = s.headers other :=
    hheaders other (hnodes.free other hother).1
  have hframe := hnodes.frame (by rw [hheads]) (by rw [hused]) hsame fun other _ => by rw [howner]
  refine ⟨nodes, hframe, fun c hc hright => ?_⟩
  subst hc
  exact hright.frame hframe (by rw [hheads]) (by rw [hused]) (by rw [hmoves]) hsame hforeign.ours
    hforeign.outcomes hforeign.kept

theorem Sound.fill (h : Sound tables s) (hengine : s.owner id = .engine) (header : Header) (text : Bytes) :
    Sound tables (s.fill id header text) := by
  have hother {other : ℕ} {owner : Owner} (hother : s.owner other = owner) (hne : owner ≠ .engine) :
      (s.fill id header text).headers other = s.headers other :=
    Function.update_of_ne (ne_of_owner hengine hother hne) _ _
  refine h.header ⟨rfl, rfl, rfl, fun other hours => ⟨hours, ?_, ?_⟩⟩ rfl rfl rfl rfl
    fun other hlist => hother hlist nofun
  · rw [hother hours nofun]
  · exact Function.update_of_ne (ne_of_owner hengine hours nofun) _ _

theorem Sound.count (h : Sound tables s) (hours : s.owner id = .ours) (refCount : ℕ) :
    Sound tables (s.count id refCount) := by
  refine h.header ⟨rfl, rfl, rfl, fun other hother => ⟨hother, ?_, rfl⟩⟩ rfl rfl rfl rfl
    fun other hlist => Function.update_of_ne (ne_of_owner hours hlist nofun) _ _
  unfold State.count
  by_cases heq : other = id
  · rw [heq]
    simp only [Function.update_self]
  · simp only [Function.update_of_ne heq]

/-! ## Steps of a call -/

theorem Sound.wholeAs (h : Sound tables s) (hheads : t.heads = s.heads) (hused : t.used = s.used)
    (hheaders : t.headers = s.headers) (howner : t.owner = s.owner) (sub : ℕ) :
    ∃ nodes, Whole tables t sub nodes := by
  obtain ⟨nodes, hnodes⟩ := h.whole sub
  exact ⟨nodes, hnodes.frame (by rw [hheads]) (by rw [hused]) (fun _ _ => by rw [hheaders])
    fun _ _ => by rw [howner]⟩

/-- The table as it was, and the call somewhere else. -/
theorem Sound.goto (h : Sound tables s) (hnodes : Whole tables s c.sub nodes)
    (hright : c.Right tables s nodes) : Sound tables { s with call := some c } where
  whole := h.wholeAs rfl rfl rfl rfl
  call {c'} hc := by
    obtain rfl := Option.some.inj hc
    exact ⟨nodes, hnodes.frame rfl rfl (fun _ _ => rfl) fun _ _ => Iff.rfl,
      hright.frame (hnodes.frame rfl rfl (fun _ _ => rfl) fun _ _ => Iff.rfl) rfl rfl rfl
        (fun _ _ => rfl) rfl rfl fun _ hours => ⟨hours, rfl, rfl⟩⟩
  interned hmem := (h.interned hmem).frame rfl rfl rfl rfl
  misread := h.misread
  lost := h.lost

theorem Sound.finish (h : Sound tables s) {outcome : Outcome}
    (hinterned : ∀ id, outcome = .interned id → Interned tables s text id)
    (hmisread : ∀ id, outcome ≠ .misread id) (hlost : ∀ moves, outcome = .lost moves → kAttempts ≤ moves) :
    Sound tables (s.finish text outcome) where
  whole := h.wholeAs rfl rfl rfl rfl
  call hc := nomatch hc
  interned {text' id} hmem := by
    rcases List.mem_append.mp hmem with hold | hnew
    · exact (h.interned hold).frame rfl rfl rfl rfl
    · obtain ⟨rfl, heq⟩ := Prod.mk.inj (List.mem_singleton.mp hnew)
      exact (hinterned id heq.symm).frame rfl rfl rfl rfl
  misread {text' id} hmem := by
    rcases List.mem_append.mp hmem with hold | hnew
    · exact h.misread hold
    · exact hmisread id (Prod.mk.inj (List.mem_singleton.mp hnew)).2.symm
  lost {text' moves} hmem := by
    rcases List.mem_append.mp hmem with hold | hnew
    · exact h.lost hold
    · exact hlost moves (Prod.mk.inj (List.mem_singleton.mp hnew)).2.symm

/-- A text that was not known is put into `ours`. -/
theorem Sound.know (h : Sound tables s) (hcall : s.call = none) (hnew : s.ours text = none) (id : ℕ) :
    Sound tables { s with ours := Function.update s.ours text (some id) } where
  whole := h.wholeAs rfl rfl rfl rfl
  call hc := absurd (hcall.symm.trans hc) nofun
  interned {text' id'} hmem := by
    have hinterned := h.interned hmem
    have hne : text' ≠ text := by
      rintro rfl
      exact absurd (hnew.symm.trans hinterned.ours) nofun
    exact hinterned.frame (Function.update_of_ne hne _ _) rfl rfl rfl
  misread := h.misread
  lost := h.lost

theorem Sound.intern (h : Sound tables s) (hcall : s.call = none) (text : Bytes)
    (created index : Option ℕ) : Sound tables (s.intern tables text created index) := by
  unfold State.intern
  cases created with
  | some id => exact h.finish nofun nofun nofun
  | none =>
    simp only
    cases hknown : s.ours text with
    | some id => exact h.finish nofun nofun nofun
    | none =>
      cases index with
      | some id => exact (h.know hcall hknown id).finish nofun nofun nofun
      | none =>
        simp only
        cases hsub : chooseSub tables text.length with
        | none => exact h.finish nofun nofun nofun
        | some sub =>
          obtain ⟨nodes, hnodes⟩ := h.whole sub
          have htakes := List.find?_some hsub
          have hlt := List.mem_range.mp (List.mem_of_find?_eq_some hsub)
          exact h.goto (c := ⟨text, sub, 0, .load, s.moves sub, s.moves sub⟩) hnodes
            ⟨le_rfl, (Nat.zero_add _).le, htakes, hlt, hknown, trivial⟩

/-- An attempt that comes to nothing has seen the list change. -/
theorem Sound.retry (h : Sound tables s) (hnodes : Whole tables s c.sub nodes)
    (hright : c.Right tables s nodes) (hmoved : s.moves c.sub ≠ c.began) : Sound tables (s.retry c) := by
  have hbegan := hright.began
  have hattempts := hright.attempts
  refine h.goto (c := { c with attempts := c.attempts + 1, stage := .load, began := s.moves c.sub })
    hnodes ⟨le_rfl, ?_, hright.takes, hright.sub_lt, hright.new, trivial⟩
  show c.attempts + 1 + c.start ≤ s.moves c.sub
  omega

/-- A head that has not moved is still on top, and what was seen of it holds. -/
theorem Loaded.holds {seen : Prop} (h : Loaded tables s c nodes head seen)
    (hnodes : Whole tables s c.sub nodes) (hsame : s.heads c.sub = head) : seen := by
  refine h.seen.seen ?_
  subst hsame
  exact hnodes.head_mem h.node

/-- What is read of an entry on the list is that it is free. -/
theorem Loaded.read {seen seen' : Prop} (h : Loaded tables s c nodes head seen)
    (hnodes : Whole tables s c.sub nodes)
    (himp : (s.headers (head % 2 ^ 32)).refCount = 0 ∧ (s.headers (head % 2 ^ 32)).length = 0 →
      seen → seen') : Loaded tables s c nodes head seen' :=
  ⟨h.node, h.still, h.seen.imp fun hmem hseen => himp (hnodes.free _ (hnodes.node_mem hmem)).2 hseen⟩

theorem Call.Right.goto (h : c.Right tables s nodes) {stage : Stage}
    (hstage : stage.Right tables s c nodes) : Call.Right tables s nodes { c with stage := stage } := by
  refine ⟨h.began, h.attempts, h.takes, h.sub_lt, h.new, ?_⟩
  cases stage with
  | load => trivial
  | readCount head => exact ⟨hstage.node, hstage.still, hstage.seen⟩
  | readLength head refCount => exact ⟨hstage.node, hstage.still, hstage.seen⟩
  | readNext head refCount length => exact ⟨hstage.node, hstage.still, hstage.seen⟩
  | exchange head next => exact ⟨hstage.node, hstage.still, hstage.seen⟩
  | write id => exact ⟨hstage.sub_eq, hstage.has, hstage.owner, hstage.new⟩
  | check id => exact ⟨⟨hstage.1.sub_eq, hstage.1.has, hstage.1.owner, hstage.1.new⟩, hstage.2⟩

/-- The entry is taken with an exchange that finds the head that was loaded. -/
theorem Sound.exchange {next : ℕ} (h : Sound tables s) (hnodes : Whole tables s c.sub nodes)
    (hright : c.Right tables s nodes)
    (hloaded : Loaded tables s c nodes head (next = s.next (head % 2 ^ 32)))
    (hsame : s.heads c.sub = head) : Sound tables { s.goto c (.write (head % 2 ^ 32)) with
      heads := Function.update s.heads c.sub next
      owner := Function.update s.owner (head % 2 ^ 32) .ours } := by
  have hnext := hloaded.holds hnodes hsame
  subst hsame
  generalize ht : ({ s.goto c (.write (s.heads c.sub % 2 ^ 32)) with
      heads := Function.update s.heads c.sub next
      owner := Function.update s.owner (s.heads c.sub % 2 ^ 32) .ours } : State) = t
  have hnode := hloaded.node
  obtain ⟨-, hid, hhas⟩ := nodeOf_eq_some.mp hnode
  generalize s.heads c.sub % 2 ^ 32 = id at ht hnext hnode hid hhas
  -- the head that was loaded is still the head, so its entry is free
  have hlist : s.owner id = .list := by
    obtain ⟨rest, rfl, -⟩ := hnodes.stack.pop hnode
    exact (hnodes.free id List.mem_cons_self).1
  have hheads : t.heads c.sub = s.next id := by
    rw [← ht, ← hnext]
    exact Function.update_self ..
  have howner : t.owner = Function.update s.owner id .ours := by
    rw [← ht]
  have hother {other : ℕ} {owner : Owner} (hother : s.owner other = owner) (hne : owner ≠ .list) :
      t.owner other = s.owner other := by
    rw [howner, Function.update_of_ne (ne_of_owner hlist hother hne)]
  have hused : t.used = s.used := by rw [← ht]; rfl
  have hheaders : t.headers = s.headers := by rw [← ht]; rfl
  have htexts : t.texts = s.texts := by rw [← ht]; rfl
  have hknown : t.ours = s.ours := by rw [← ht]; rfl
  have houtcomes : t.outcomes = s.outcomes := by rw [← ht]; rfl
  obtain ⟨rest, rfl, hrest⟩ := hnodes.pop (t := t) hnode hheads (by rw [hused]) hheaders
    .ours nofun howner
  refine ⟨fun sub => ?_, fun {c'} hc => ?_, fun {text id'} hmem => ?_, ?_, ?_⟩
  · by_cases hsub : sub = c.sub
    · exact ⟨rest, hsub ▸ hrest⟩
    · obtain ⟨others, hothers⟩ := h.whole sub
      refine ⟨others, hothers.frame ?_ (by rw [hused]) (fun _ _ => by rw [hheaders]) fun other hsub' => ?_⟩
      · rw [← ht]
        exact Function.update_of_ne hsub _ _
      · rw [howner, Function.update_of_ne (ne_of_sub hsub hid hsub')]
  · have hcall : t.call = some { c with stage := .write id } := by
      rw [← ht]
      rfl
    obtain rfl := Option.some.inj (hcall.symm.trans hc)
    refine ⟨rest, hrest, ?_, hright.attempts, hright.takes, hright.sub_lt, hknown ▸ hright.new,
      hid, hhas, ?_, ?_⟩
    · rw [← ht]
      exact hright.began
    · rw [howner, Function.update_self]
    · rw [houtcomes]
      intro text hmem
      -- a text that was interned has an entry of its own, and this one was on the list
      exact absurd ((h.interned hmem).owner.symm.trans hlist) nofun
  · rw [houtcomes] at hmem
    have hinterned := h.interned hmem
    exact hinterned.frame (by rw [hknown]) (hother hinterned.owner nofun) (by rw [hheaders])
      (by rw [htexts])
  · rw [houtcomes]
    exact h.misread
  · rw [houtcomes]
    exact h.lost

/-- The text is written to the entry that was taken. -/
theorem Sound.write (h : Sound tables s) (hnodes : Whole tables s c.sub nodes)
    (hright : c.Right tables s nodes) (htaken : Taken tables s c id) :
    Sound tables { s.goto c (.check id) with
      headers := Function.update s.headers id (internHeader c.text.length)
      texts := Function.update s.texts id c.text } := by
  generalize ht : ({ s.goto c (.check id) with
      headers := Function.update s.headers id (internHeader c.text.length)
      texts := Function.update s.texts id c.text } : State) = t
  have hheads : t.heads = s.heads := by rw [← ht]; rfl
  have hused : t.used = s.used := by rw [← ht]; rfl
  have howner : t.owner = s.owner := by rw [← ht]; rfl
  have hknown : t.ours = s.ours := by rw [← ht]; rfl
  have houtcomes : t.outcomes = s.outcomes := by rw [← ht]; rfl
  have hheaders {other : ℕ} (hne : other ≠ id) : t.headers other = s.headers other := by
    rw [← ht]
    exact Function.update_of_ne hne _ _
  -- the id taken is on no free list, so writing its header leaves them whole
  have hframe {sub : ℕ} {nodes : List (ℕ × ℕ)} (hnodes : Whole tables s sub nodes) :
      Whole tables t sub nodes :=
    hnodes.frame (by rw [hheads]) (by rw [hused])
      (fun other hother => hheaders (ne_of_owner htaken.owner (hnodes.free other hother).1 nofun))
      fun _ _ => by rw [howner]
  refine ⟨fun sub => (h.whole sub).imp fun _ => hframe, fun {c'} hc => ?_, fun {text id'} hmem => ?_, ?_, ?_⟩
  · have hcall : t.call = some { c with stage := .check id } := by
      rw [← ht]
      rfl
    obtain rfl := Option.some.inj (hcall.symm.trans hc)
    refine ⟨nodes, hframe hnodes, ?_, hright.attempts, hright.takes, hright.sub_lt, hknown ▸ hright.new,
      ⟨htaken.sub_eq, htaken.has, howner ▸ htaken.owner, houtcomes ▸ htaken.new⟩, ?_, ?_⟩
    · rw [← ht]
      exact hright.began
    · rw [← ht]
      show (Function.update s.headers id (internHeader c.text.length) id).length = c.text.length
      rw [Function.update_self]
      rfl
    · rw [← ht]
      exact Function.update_self ..
  -- the texts handed out before lie under other ids
  · rw [houtcomes] at hmem
    have hne : id' ≠ id := by
      rintro rfl
      exact htaken.new _ hmem
    refine (h.interned hmem).frame (by rw [hknown]) (by rw [howner]) (by rw [hheaders hne]) ?_
    rw [← ht]
    exact Function.update_of_ne hne _ _
  · rw [houtcomes]
    exact h.misread
  · rw [houtcomes]
    exact h.lost

/-- What was written reads back. -/
theorem resolve_taken (htakes : (tables c.sub).takes c.text.length = true)
    (hlt : c.sub < kSubTableCount) (htaken : Taken tables s c id)
    (hlength : (s.headers id).length = c.text.length) (htext : s.texts id = c.text) :
    resolve tables s.headers s.texts id = some (c.text, c.text.length) := by
  obtain ⟨hsub, hhas, -, -⟩ := htaken
  simp only [SubTable.takes, SubTable.plausible, Bool.and_eq_true, decide_eq_true_eq] at htakes
  obtain ⟨⟨⟨-, hbuckets⟩, -⟩, hroom⟩ := htakes
  unfold resolve
  rw [hsub, if_neg (Nat.not_le.mpr hlt), if_neg (by simp [hhas, hbuckets]),
    if_neg (by rw [hlength]; omega), hlength, htext]

/-- The text is put into `ours` with the entry that it was written to. -/
theorem Sound.interned_check (h : Sound tables s) (hright : c.Right tables s nodes) (htaken : Taken tables s c id)
    (hlength : (s.headers id).length = c.text.length) (htext : s.texts id = c.text) :
    Sound tables ({ s with ours := Function.update s.ours c.text (some id) }.finish c.text
      (.interned id)) := by
  have hresolve := resolve_taken hright.takes hright.sub_lt htaken hlength htext
  refine ⟨h.wholeAs rfl rfl rfl rfl, nofun, fun {text id'} hmem => ?_, fun {text id'} hmem => ?_,
    fun {text moves} hmem => ?_⟩
  · rcases List.mem_append.mp hmem with hold | hnew
    · have hinterned := h.interned hold
      have hne : text ≠ c.text := by
        rintro rfl
        exact absurd (hright.new.symm.trans hinterned.ours) nofun
      exact hinterned.frame (Function.update_of_ne hne _ _) rfl rfl rfl
    · obtain ⟨rfl, heq⟩ := Prod.mk.inj (List.mem_singleton.mp hnew)
      obtain rfl := Outcome.interned.inj heq
      exact ⟨Function.update_self .., htaken.owner, hresolve⟩
  · rcases List.mem_append.mp hmem with hold | hnew
    · exact h.misread hold
    · exact absurd (Prod.mk.inj (List.mem_singleton.mp hnew)).2 nofun
  · rcases List.mem_append.mp hmem with hold | hnew
    · exact h.lost hold
    · exact absurd (Prod.mk.inj (List.mem_singleton.mp hnew)).2 nofun

theorem Sound.advance (h : Sound tables s) (hcall : s.call = some c) :
    Sound tables (s.advance tables c) := by
  obtain ⟨nodes, hnodes, hright⟩ := h.call hcall
  have hstage := hright.stage
  have hbegan := hright.began
  have hattempts := hright.attempts
  unfold State.advance
  generalize hat : c.stage = stage at hstage
  cases stage with
  -- one case per stage; the reads may be stale, the exchange is what decides
  | load =>
    simp only
    split
    · next hmany =>
      refine h.finish nofun nofun fun moves heq => ?_
      obtain rfl := Outcome.lost.inj heq
      omega
    · split
      · exact h.finish nofun nofun nofun
      · next id hnode =>
        obtain ⟨rfl, -⟩ := nodeOf_eq_some.mp hnode
        refine h.goto (c := { c with stage := .readCount (s.heads c.sub), began := s.moves c.sub }) hnodes
          ⟨le_rfl, hattempts.trans hbegan, hright.takes, hright.sub_lt, hright.new, hnode, fun _ => rfl,
            hnodes.used _ (hnodes.head_mem hnode), fun _ => trivial⟩
  | readCount head =>
    exact h.goto hnodes (hright.goto (hstage.read hnodes fun hfree _ => hfree.1))
  | readLength head refCount =>
    exact h.goto hnodes (hright.goto (hstage.read hnodes fun hfree hcount => ⟨hcount, hfree.2⟩))
  | readNext head refCount length =>
    simp only
    split
    · next hheld =>
      refine h.retry hnodes hright fun hsame => ?_
      obtain ⟨hcount, hlength⟩ := hstage.holds hnodes (hstage.still hsame)
      exact hheld.elim (fun hne => hne hcount) fun hne => hne hlength
    · exact h.goto hnodes (hright.goto (hstage.read hnodes fun _ _ => rfl))
  | exchange head next =>
    simp only
    split
    · next hsame => exact h.exchange hnodes hright hstage hsame
    · next hmoved =>
      exact h.retry hnodes hright fun hsame => hmoved (hstage.still hsame)
  | write id => exact h.write hnodes hright hstage
  | check id =>
    obtain ⟨htaken, hlength, htext⟩ := hstage
    simp only
    rw [if_pos (resolve_taken hright.takes hright.sub_lt htaken hlength htext)]
    exact h.interned_check hright htaken hlength htext

/-! ## Runs -/

theorem Sound.step {a : Action} (h : Sound tables s) (ht : step tables s a = some t) : Sound tables t := by
  cases a with
  | intern text created index =>
    rw [StringTable.step] at ht
    split at ht
    · cases ht
    · next hcall =>
      obtain rfl := Option.some.inj ht
      exact h.intern (Option.not_isSome_iff_eq_none.mp hcall) text created index
  | advance =>
    obtain ⟨c, hcall, rfl⟩ := Option.map_eq_some_iff.mp ht
    exact h.advance hcall
  | take sub =>
    obtain ⟨id, hnode, rfl⟩ := Option.map_eq_some_iff.mp ht
    exact h.take hnode
  | fill id header text =>
    rw [StringTable.step] at ht
    split at ht
    · next hengine =>
      obtain rfl := Option.some.inj ht
      exact h.fill hengine header text
    · cases ht
  | release sub head =>
    rw [StringTable.step] at ht
    split at ht
    · next hrelease =>
      obtain rfl := Option.some.inj ht
      exact h.release hrelease
    · cases ht
  | count id refCount =>
    rw [StringTable.step] at ht
    split at ht
    · next hours =>
      obtain rfl := Option.some.inj ht
      exact h.count hours.1 refCount
    · cases ht

/-- A table before the first call, with its free lists whole. -/
structure Start (tables : ℕ → SubTable) (s : State) : Prop where
  whole (sub : ℕ) : ∃ nodes, Whole tables s sub nodes
  call : s.call = none
  outcomes : s.outcomes = []

theorem Start.sound (h : Start tables s) : Sound tables s where
  whole := h.whole
  call hc := absurd (h.call.symm.trans hc) nofun
  interned hmem := absurd (h.outcomes ▸ hmem) List.not_mem_nil
  misread hmem := absurd (h.outcomes ▸ hmem) List.not_mem_nil
  lost hmem := absurd (h.outcomes ▸ hmem) List.not_mem_nil

theorem sound_of_start_run {as : List Action} (hs : Start tables s)
    (h : Run (step tables) (fun _ _ => True) s as t) : Sound tables t :=
  h.invariant hs.sound fun _ _ _ hsound _ ht => hsound.step ht

/-- Whatever the engine does between the accesses of the calls: the free lists stay whole; every text
that was interned reads back under its id, which is on no list and not the engine's, and no two share
one; what is written reads back at once; and a call gives up only after the engine has moved on the
list at least as often as it tried. -/
theorem interns_of_run {as : List Action} (hs : Start tables s)
    (h : Run (step tables) (fun _ _ => True) s as t) :
    (∀ sub, ∃ nodes, Whole tables t sub nodes) ∧
      (∀ text id, (text, Outcome.interned id) ∈ t.outcomes →
        resolve tables t.headers t.texts id = some (text, text.length) ∧ t.owner id = .ours ∧
          ∀ text' id', (text', Outcome.interned id') ∈ t.outcomes → (text = text' ↔ id = id')) ∧
      (∀ text id, (text, Outcome.misread id) ∉ t.outcomes) ∧
      ∀ text moves, (text, Outcome.lost moves) ∈ t.outcomes → kAttempts ≤ moves := by
  have hsound := sound_of_start_run hs h
  refine ⟨hsound.whole, fun text id hmem => ?_, fun text id => hsound.misread, fun text moves => hsound.lost⟩
  have hinterned := hsound.interned hmem
  refine ⟨hinterned.resolves, hinterned.owner, fun text' id' hmem' => ?_⟩
  have hinterned' := hsound.interned hmem'
  constructor
  · rintro rfl
    exact Option.some.inj (hinterned.ours.symm.trans hinterned'.ours)
  · rintro rfl
    exact (Prod.mk.inj (Option.some.inj (hinterned.resolves.symm.trans hinterned'.resolves))).1

/-! ## A table of two entries -/

/-- The first sub-table has two buckets of four entries. There are no others. -/
def smallTables (sub : ℕ) : SubTable :=
  if sub = 0 then ⟨48, 4, 2, true, fun _ => true⟩ else ⟨0, 0, 0, false, fun _ => false⟩

/-- Both entries are free, and the list ends in a value of another sub-table. -/
def smallStart : State where
  heads sub := if sub = 0 then 5 * 2 ^ 32 else 15
  headers id := ⟨0, 0, 0, 0, if id = 0 then 4 * 2 ^ 32 + 16 else 15⟩
  texts _ := []
  ours _ := none
  call := none
  outcomes := []
  owner id := if id = 0 ∨ id = 16 then .list else .engine
  used sub := if sub = 0 then [5 * 2 ^ 32, 4 * 2 ^ 32 + 16] else []
  moves _ := 0

theorem smallStart_start : Start smallTables smallStart := by
  refine ⟨fun sub => ?_, rfl, rfl⟩
  have hfree {id : ℕ} (h : smallStart.owner id = .list) : id = 0 ∨ id = 16 := by
    by_contra hne
    exact absurd h (by simp [smallStart, hne])
  by_cases hsub : sub = 0
  · subst hsub
    refine ⟨[(5 * 2 ^ 32, 0), (4 * 2 ^ 32 + 16, 16)], ?_, by decide, by decide, by decide,
      fun id _ hlist => by rcases hfree hlist with rfl | rfl <;> decide⟩
    exact .cons (by decide) (.cons (by decide) (.nil (by decide)))
  · have hnone : nodeOf smallTables sub (smallStart.heads sub) = none := by
      have hhas : (smallTables sub).has (15 % 2 ^ 32) = false := by
        simp [smallTables, hsub, SubTable.has]
      unfold nodeOf smallStart
      simp only [hsub, if_false]
      rw [if_neg]
      rintro ⟨-, h⟩
      exact absurd (hhas.symm.trans h) (by decide)
    refine ⟨[], .nil hnone, List.nodup_nil, nofun, nofun, fun id hid hlist => ?_⟩
    rcases hfree hlist with rfl | rfl
    · exact absurd hid.symm hsub
    · exact absurd hid.symm hsub

/-- The engine takes the first entry and puts it back between a load and its exchange: the call tries
again and has the entry then. -/
theorem interns_of_run_small : ∃ t, Run (step smallTables) (fun _ _ => True) smallStart
      [.intern (bytes "Hi") none none, .advance, .take 0, .release 0 (6 * 2 ^ 32), .advance, .advance,
        .advance, .advance, .advance, .advance, .advance, .advance, .advance, .advance, .advance] t ∧
    (bytes "Hi", Outcome.interned 0) ∈ t.outcomes ∧
    resolve smallTables t.headers t.texts 0 = some (bytes "Hi", 2) := by
  obtain ⟨t, hrun, hmem⟩ := Run.exists_of_follow (step smallTables) (fun _ _ => True) smallStart
    [.intern (bytes "Hi") none none, .advance, .take 0, .release 0 (6 * 2 ^ 32), .advance, .advance,
      .advance, .advance, .advance, .advance, .advance, .advance, .advance, .advance, .advance]
    (fun t => decide ((bytes "Hi", Outcome.interned 0) ∈ t.outcomes)) (by decide +kernel)
  have hmem := of_decide_eq_true hmem
  exact ⟨t, hrun, hmem, ((interns_of_run smallStart_start hrun).2.1 _ _ hmem).1⟩

end StringTable
end Bg3le
