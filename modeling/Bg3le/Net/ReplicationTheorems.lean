import Bg3le.Net.SyncOptionsTheorems
import Bg3le.Net.Replication

/-!
# One context while writes are out

What a context has marked of the tracked variable, and what it sends and stores of it, is the last
value written.
-/

namespace Bg3le
namespace Vars

open Lua

variable {codec : Codec} {c : Context} {x v w : Var} {last y : Value}

/-! ### One context -/

/-- Nothing survives the way. -/
theorem survives_nil : codec.Survives .nil := ⟨rfl, fun h => absurd h (by simp [Value.isTable])⟩

/-- All values of a context survive serialisation. -/
def Fine (codec : Codec) (c : Context) : Prop := ∀ e ∈ c.values, codec.Survives e.2

/-- Every value of a context survives. -/
theorem Fine.value (h : Fine codec c) (v : Var) : codec.Survives (c.value v) := by
  unfold Context.value find
  cases hfind : c.values.find? fun e => e.1 = v with
  | none => exact survives_nil
  | some e => exact h e (List.mem_of_find?_eq_some hfind)

/-- One that survives may be set. -/
theorem Fine.setValue (h : Fine codec c) (hy : codec.Survives y) : Fine codec (c.setValue v y) := by
  intro e he
  unfold Context.setValue at he
  split at he
  · exact h e (List.mem_of_mem_filter he)
  · obtain rfl | hold := List.mem_cons.mp he
    · exact hy
    · exact h e (List.mem_of_mem_filter hold)

/-- The value that arrives for one that survives. -/
theorem value_carry (hy : codec.Survives y) : (codec.carry y).value codec.parse = y := by
  cases y with
  | table entries =>
    have hparse := (hy.2 rfl).2
    show (codec.parse (codec.blob (.table entries)) true).elim Value.nil _ = _
    rw [hparse]
    rfl
  | other id => exact absurd hy.1 (by simp [Value.stringifies])
  | _ => rfl

/-- A mark that may stand for several variables, but not for this one. -/
def Aside (x d : Var) : Prop := d.owner = kEverywhere → ¬ (d.mod = x.mod ∧ d.key = x.key)

/-- Variables on their way: their values survive, and the one that is tracked carries its last. -/
def Bound (codec : Codec) (x : Var) (last : Value) (l : Payload) : Prop :=
  ∀ e ∈ l, codec.Survives e.2 ∧ Aside x e.1 ∧ (e.1 = x → e.2 = last)

def Mentions (x : Var) (l : Payload) : Prop := ∃ e ∈ l, e.1 = x

/-- A context while writes are out. -/
structure Local (codec : Codec) (x : Var) (last : Value) (c : Context) : Prop where
  registered : Registered c x
  aside : ∀ d ∈ c.dirty, Aside x d
  fine : Fine codec c
  marked : x ∈ c.dirty → c.value x = last

theorem bound_nil : Bound codec x last [] := fun _ h => absurd h List.not_mem_nil

/-- What is bound in two payloads is bound in both together. -/
theorem bound_append {l l' : Payload} :
    Bound codec x last (l ++ l') ↔ Bound codec x last l ∧ Bound codec x last l' := by
  unfold Bound
  exact List.forall_mem_append

/-- Two payloads mention what one of them does. -/
theorem mentions_append {l l' : Payload} :
    Mentions x (l ++ l') ↔ Mentions x l ∨ Mentions x l' := by
  unfold Mentions
  simp only [List.mem_append, or_and_right, exists_or]

theorem mentions_cons {e : Var × Value} {l : Payload} :
    Mentions x (e :: l) ↔ e.1 = x ∨ Mentions x l := by
  unfold Mentions
  simp only [List.mem_cons, or_and_right, exists_or, exists_eq_left]

/-- What a mark adds to a payload: a variable with its value, or one of the same key. -/
def From (c : Context) (d : Var) (e : Var × Value) : Prop :=
  if d.owner = kEverywhere then e.1.mod = d.mod ∧ e.1.key = d.key ∧ ∃ w, (w, e.2) ∈ c.values
  else e = (d, c.value d)

/-- An entry is the one that was put, or an older one. -/
theorem eq_of_mem_put {out : Payload} {e : Var × Value} (h : e ∈ out.put v y) :
    e = (v, y) ∨ e ∈ out := by
  unfold Payload.put at h
  split at h
  · exact .inr h
  · obtain hold | hnew := List.mem_append.mp h
    · exact .inr hold
    · exact .inl (List.mem_singleton.mp hnew)

theorem eq_of_mem_foldl_put {entries out : Payload} {f : Var × Value → Var} {e : Var × Value}
    (h : e ∈ entries.foldl (fun out e => Payload.put out (f e) e.2) out) :
    (∃ e' ∈ entries, e = (f e', e'.2)) ∨ e ∈ out := by
  induction entries generalizing out with
  | nil => exact .inr h
  | cons a rest ih =>
    obtain ⟨e', he', heq⟩ | hput := ih h
    · exact .inl ⟨e', List.mem_cons_of_mem _ he', heq⟩
    · obtain heq | hout := eq_of_mem_put hput
      · exact .inl ⟨a, List.mem_cons_self, heq⟩
      · exact .inr hout

/-- What is gathered for a dirty variable is its value. -/
theorem from_of_mem_gather {out : Payload} {e : Var × Value} (h : e ∈ c.gather out d) :
    From c d e ∨ e ∈ out := by
  unfold Context.gather at h
  unfold From
  split at h
  · rename_i hstar
    rw [if_pos hstar]
    obtain ⟨e', he', rfl⟩ | hout := eq_of_mem_foldl_put h
    · exact .inl ⟨rfl, rfl, e'.1, List.mem_of_mem_filter he'⟩
    · exact .inr hout
  · rename_i hstar
    rw [if_neg hstar]
    exact eq_of_mem_put h

theorem from_of_mem_foldl {ds : List Var} {out : Payload} {e : Var × Value}
    (h : e ∈ ds.foldl c.gather out) : (∃ d ∈ ds, From c d e) ∨ e ∈ out := by
  induction ds generalizing out with
  | nil => exact .inr h
  | cons d rest ih =>
    obtain ⟨d', hd', hfrom⟩ | hgather := ih h
    · exact .inl ⟨d', List.mem_cons_of_mem _ hd', hfrom⟩
    · obtain hfrom | hout := from_of_mem_gather hgather
      · exact .inl ⟨d, List.mem_cons_self, hfrom⟩
      · exact .inr hout

/-- What is taken is the value of a dirty variable. -/
theorem from_of_mem_take {mod onTick : Bool} {e : Var × Value} (h : e ∈ (take mod onTick c).1) :
    ∃ d ∈ c.dirty, From c d e := by
  unfold take at h
  obtain ⟨d, hd, hfrom⟩ | hnil := from_of_mem_foldl h
  · exact ⟨d, List.mem_of_mem_filter (List.mem_of_mem_filter hd), hfrom⟩
  · exact absurd hnil List.not_mem_nil

/-- So it is from both kinds of variables. -/
theorem from_of_mem_takeAll {mod user onTick : Bool} {e : Var × Value}
    (h : e ∈ (takeAll mod user onTick c).1) : ∃ d ∈ c.dirty, From c d e := by
  unfold takeAll at h
  cases mod <;> cases user <;> simp only [Bool.false_eq_true, if_true, if_false,
    List.mem_append, List.not_mem_nil, false_or, or_false] at h
  · exact from_of_mem_take h
  · exact from_of_mem_take h
  · obtain h | h := h
    · exact from_of_mem_take h
    · obtain ⟨d, hd, hfrom⟩ := from_of_mem_take h
      exact ⟨d, (mem_take_dirty.mp hd).1, hfrom⟩

/-- What is taken of the variable is its last value. -/
theorem Local.bound_takeAll (h : Local codec x last c) (mod user onTick : Bool) :
    Bound codec x last (takeAll mod user onTick c).1 := by
  intro e he
  obtain ⟨d, hd, hfrom⟩ := from_of_mem_takeAll he
  have haside := h.aside d hd
  unfold From at hfrom
  split at hfrom
  · rename_i hstar
    obtain ⟨hmod, hkey, w, hw⟩ := hfrom
    have hother : ¬ (e.1.mod = x.mod ∧ e.1.key = x.key) := by
      rw [hmod, hkey]
      exact haside hstar
    refine ⟨h.fine (w, e.2) hw, fun _ => hother, fun hx => ?_⟩
    rw [hx] at hother
    exact absurd ⟨rfl, rfl⟩ hother
  · subst hfrom
    refine ⟨h.fine.value d, haside, ?_⟩
    rintro rfl
    exact h.marked hd

/-- What a flush puts in its payload of the tracked variable. -/
theorem Local.dirty_of_mentions (h : Local codec x last c) {mod user onTick : Bool}
    (hmentions : Mentions x (takeAll mod user onTick c).1) : x ∈ c.dirty := by
  obtain ⟨e, he, rfl⟩ := hmentions
  obtain ⟨d, hd, hfrom⟩ := from_of_mem_takeAll he
  unfold From at hfrom
  split at hfrom
  · rename_i hstar
    exact absurd ⟨hfrom.1.symm, hfrom.2.1.symm⟩ (h.aside d hd hstar)
  · rwa [hfrom]

/-! ### A flush -/

/-- What arrives of the variables on a channel. -/
def arriving (codec : Codec) (l : List (Var × Carried)) : Payload :=
  l.map fun e => (e.1, e.2.value codec.parse)

theorem arriving_append (l l' : List (Var × Carried)) :
    arriving codec (l ++ l') = arriving codec l ++ arriving codec l' := List.map_append

/-- What is carried arrives as it was sent. -/
theorem arriving_carry {l : Payload} (h : Bound codec x last l) :
    arriving codec (l.map fun e => (e.1, codec.carry e.2)) = l := by
  unfold arriving
  rw [List.map_map]
  conv_rhs => rw [← List.map_id l]
  apply List.map_congr_left
  intro e he
  show (e.1, (codec.carry e.2).value codec.parse) = e
  rw [value_carry (h e he).1]

/-- What a flush posts and syncs is what it took, if anything. -/
theorem flush_sends (r : Remote) (mod user onTick : Bool) (c : Context) :
    ((flush r mod user onTick c).posted = none ∨
      (flush r mod user onTick c).posted = some (takeAll mod user onTick c).1) ∧
    ((flush r mod user onTick c).synced = none ∨
      (flush r mod user onTick c).synced = some (takeAll mod user onTick c).1) := by
  unfold flush
  cases takeAll mod user onTick c with
  | mk payload c' =>
    simp only
    split
    · exact ⟨.inl rfl, .inl rfl⟩
    · split
      · exact ⟨.inl rfl, .inl rfl⟩
      · split
        · exact ⟨.inr rfl, .inl rfl⟩
        · rename_i synced hsync
          refine ⟨.inr rfl, ?_⟩
          unfold syncRemote at hsync
          split at hsync
          · exact .inl (Option.some.inj hsync).symm
          · split at hsync
            · exact .inr (Option.some.inj hsync).symm
            · exact absurd hsync (by simp)

/-- A call's last part, of a context while writes are out. -/
structure Sends (codec : Codec) (r : Remote) (x : Var) (last : Value) (c : Context)
    (f : Flushed) : Prop where
  after : Local codec x last f.context
  value : f.context.value x = c.value x
  side : f.context.server = c.server
  dirty : x ∈ f.context.dirty → x ∈ c.dirty
  posted : Bound codec x last f.posted.toList.flatten
  synced : Bound codec x last (f.synced.getD [])
  origin : Mentions x f.posted.toList.flatten ∨ Mentions x (f.synced.getD []) → x ∈ c.dirty
  kept : x ∈ c.dirty → x ∈ f.context.dirty ∨
    Mentions x f.posted.toList.flatten ∧ (remote r c = true → Mentions x (f.synced.getD []))

/-- Fewer dirty variables keep a side right. -/
theorem Local.of_subset {c' : Context} (h : Local codec x last c) (hdefs : c'.defs = c.defs)
    (hvalues : c'.values = c.values) (hdirty : c'.dirty ⊆ c.dirty) : Local codec x last c' := by
  have hvalue : c'.value x = c.value x := by unfold Context.value; rw [hvalues]
  constructor
  · unfold Registered
    rw [hdefs]
    exact h.registered
  · exact fun d hd => h.aside d (hdirty hd)
  · unfold Fine
    rw [hvalues]
    exact h.fine
  · intro hx
    rw [hvalue]
    exact h.marked (hdirty hx)

/-- A side that sends nothing stays right. -/
theorem Local.sends_nothing {r : Remote} (h : Local codec x last c) :
    Sends codec r x last c { context := c } := by
  have hnone : ¬ Mentions x [] := by rintro ⟨e, he, _⟩; exact List.not_mem_nil he
  exact ⟨h, rfl, rfl, id, bound_nil, bound_nil, fun hx => hx.elim (absurd · hnone) (absurd · hnone),
    .inl⟩

/-- A variable that is registered on both sides is sent. -/
theorem Registered.syncs (h : Registered c x) : c.syncs x false = true := by
  obtain ⟨o, hdefs, _, _, hclient, hserver⟩ := h
  unfold Context.syncs Context.direction
  rw [hdefs]
  split <;> simp [*]

/-- A flush sends the variable's last value. -/
theorem Local.sends_flush {r : Remote} (hx : x.owner ≠ kEverywhere) (h : Local codec x last c)
    (hbinary : r.binary = codec.binary) (mod user onTick : Bool) :
    Sends codec r x last c (flush r mod user onTick c) := by
  have hbound := h.bound_takeAll mod user onTick
  have hnone : ¬ Mentions x [] := by rintro ⟨e, he, _⟩; exact List.not_mem_nil he
  obtain ⟨hposted, hsynced⟩ := flush_sends r mod user onTick c
  constructor
  · rw [flush_context]
    exact h.of_subset (takeAll_defs _ _ _ _) (takeAll_values _ _ _ _)
      fun d hd => (mem_takeAll_dirty.mp hd).1
  · rw [flush_context]
    unfold Context.value
    rw [takeAll_values]
  · rw [flush_context, takeAll_server]
  · rw [flush_context]
    exact fun hd => (mem_takeAll_dirty.mp hd).1
  · obtain hposted | hposted := hposted <;> rw [hposted]
    · exact bound_nil
    · simpa using hbound
  · obtain hsynced | hsynced := hsynced <;> rw [hsynced]
    · exact bound_nil
    · exact hbound
  · rintro (hmentions | hmentions)
    · obtain hposted | hposted := hposted <;> rw [hposted] at hmentions
      · exact absurd hmentions hnone
      · exact h.dirty_of_mentions (by simpa using hmentions)
    · obtain hsynced | hsynced := hsynced <;> rw [hsynced] at hmentions
      · exact absurd hmentions hnone
      · exact h.dirty_of_mentions hmentions
  · intro hdirty
    by_cases hleft : x ∈ (flush r mod user onTick c).context.dirty
    · exact .inl hleft
    · right
      rw [flush_context, mem_takeAll_dirty] at hleft
      -- it was due, so the payload has it; the payload can be serialised
      have hdue : chosen mod user x = true ∧ c.syncs x onTick = true := by
        have hfalse := h.registered.syncs
        cases hchosen : chosen mod user x <;> cases onTick <;> cases hs : c.syncs x true <;>
          simp_all
      obtain ⟨y, hy⟩ := mem_takeAll.mpr ⟨x, hdirty, hdue.1, hdue.2, (if_neg hx).mpr rfl⟩
      have hall : AllSerialise r c (takeAll mod user onTick c).1 := by
        intro e he
        have hsurvives := (hbound e he).1
        refine ⟨Value.stringifies_mono e.2 (Nat.le_refl 4) (fun _ h => absurd h (by simp))
          hsurvives.1, fun _ htable => ?_⟩
        rw [hbinary]
        exact (hsurvives.2 htable).1
      obtain ⟨⟨p, hp, y₁, hy₁⟩, hremote⟩ := (sent_flush_iff (Prod.eta _).symm hy).mpr hall
      constructor
      · exact ⟨(x, y₁), by simpa [hp] using hy₁, rfl⟩
      · intro hr
        obtain ⟨p, hp, y₂, hy₂⟩ := hremote hr
        exact ⟨(x, y₂), by simpa [hp] using hy₂, rfl⟩

/-! ### A receiver -/

/-- A value that survives may be set on a side. -/
theorem Local.setValue {v : Var} (h : Local codec x last c) (hy : codec.Survives y)
    (hlast : v = x → y = last) : Local codec x last (c.setValue v y) := by
  constructor
  · exact h.registered
  · exact h.aside
  · exact h.fine.setValue hy
  · intro hx
    rw [value_setValue]
    split
    · rename_i heq
      exact hlast heq.symm
    · exact h.marked hx

/-- A payload with the last value keeps a side right. -/
theorem Local.applyVarSync {payload : Payload} (h : Local codec x last c)
    (hbound : Bound codec x last payload) : Local codec x last (applyVarSync payload c) := by
  induction payload generalizing c with
  | nil => exact h
  | cons e rest ih =>
    obtain ⟨hsurvives, _, hlast⟩ := hbound e List.mem_cons_self
    exact ih (h.setValue hsurvives hlast) fun e' he' => hbound e' (List.mem_cons_of_mem _ he')

/-- After a payload the variable has the last value, or was not mentioned. -/
theorem value_applyVarSync {payload : Payload} (hbound : Bound codec x last payload) :
    (applyVarSync payload c).value x = last ∨
      ¬ Mentions x payload ∧ (applyVarSync payload c).value x = c.value x := by
  induction payload generalizing c with
  | nil =>
    right
    exact ⟨by simp [Mentions], rfl⟩
  | cons e rest ih =>
    obtain hvalue | ⟨hrest, hvalue⟩ := ih (c := c.setValue e.1 e.2)
      fun e' he' => hbound e' (List.mem_cons_of_mem _ he')
    · exact .inl hvalue
    · have hstep : (Vars.applyVarSync (e :: rest) c).value x = (c.setValue e.1 e.2).value x := hvalue
      rw [hstep, value_setValue, mentions_cons]
      by_cases he : x = e.1
      · exact .inl (by rw [if_pos he]; exact (hbound e List.mem_cons_self).2.2 he.symm)
      · exact .inr ⟨by simp [hrest, Ne.symm he], if_neg he⟩

theorem applyVarSync_keeps (payload : Payload) (c : Context) :
    (applyVarSync payload c).server = c.server ∧ (applyVarSync payload c).dirty = c.dirty := by
  induction payload generalizing c with
  | nil => exact ⟨rfl, rfl⟩
  | cons e rest ih => exact ih (c.setValue e.1 e.2)

/-- One variable received from another machine, in a context while writes are out. -/
structure Received (codec : Codec) (x : Var) (last : Value) (c : Context) (v : Var)
    (c' : Context) : Prop where
  after : Local codec x last c'
  side : c'.server = c.server
  mine : v = x → c'.value x = last ∧ (c.server = true → x ∈ c'.dirty)
  other : v ≠ x → c'.value x = c.value x
  kept : x ∈ c.dirty → x ∈ c'.dirty
  dirty : x ∈ c'.dirty → x ∈ c.dirty ∨ v = x ∧ c.server = true

/-- A variable may be marked that is another one, or has its last value. -/
theorem Local.mark {v : Var} (h : Local codec x last c) (haside : Aside x v)
    (hlast : v = x → c.value x = last) : Local codec x last (c.mark v) := by
  constructor
  · exact h.registered
  · intro d hd
    obtain rfl | hold := List.mem_insert_iff.mp hd
    · exact haside
    · exact h.aside d hold
  · exact h.fine
  · intro hx
    obtain heq | hold := List.mem_insert_iff.mp hx
    · exact hlast heq.symm
    · exact h.marked hold

/-- A variable that arrives is received. -/
theorem Local.applyNetVar {e : Var × Carried} (h : Local codec x last c)
    (hbound : Bound codec x last (arriving codec [e])) :
    Received codec x last c e.1 (applyNetVar codec.parse c e) := by
  obtain ⟨hsurvives, haside, hlast⟩ := hbound _ List.mem_cons_self
  have hset : Local codec x last (c.setValue e.1 (e.2.value codec.parse)) :=
    h.setValue hsurvives hlast
  have hvalue := value_setValue c e.1 x (e.2.value codec.parse)
  have hmark : Local codec x last ((c.setValue e.1 (e.2.value codec.parse)).mark e.1) := by
    apply hset.mark haside
    intro heq
    rw [hvalue, if_pos heq.symm]
    exact hlast heq
  by_cases hv : e.1 = x
  · obtain ⟨o, hdefs, _, _, hclient, hserver⟩ := h.registered
    have hmine : (c.setValue e.1 (e.2.value codec.parse)).value x = last := by
      rw [hvalue, if_pos hv.symm]
      exact hlast hv
    have heq : Vars.applyNetVar codec.parse c e =
        if c.server then (c.setValue e.1 (e.2.value codec.parse)).mark e.1
        else c.setValue e.1 (e.2.value codec.parse) := by
      have hdefs' : (c.setValue e.1 (e.2.value codec.parse)).defs x = some o := hdefs
      have hside : (c.setValue e.1 (e.2.value codec.parse)).server = c.server := rfl
      unfold Vars.applyNetVar
      rw [hv] at hdefs' hside ⊢
      have hdirection : option (some o)
          (if c.server = true then .syncToServer else .syncToClient) = true := by
        split <;> assumption
      simp only [hdefs, hdefs', hside, hclient, hdirection]
      simp
    rw [heq]
    split
    · rename_i hside
      exact ⟨hmark, rfl, fun _ => ⟨hmine, fun _ => List.mem_insert_iff.mpr (.inl hv.symm)⟩,
        fun hne => absurd hv hne, fun hx => List.mem_insert_iff.mpr (.inr hx),
        fun _ => .inr ⟨hv, hside⟩⟩
    · rename_i hside
      exact ⟨hset, rfl, fun _ => ⟨hmine, fun hs => absurd hs hside⟩,
        fun hne => absurd hv hne, id, .inl⟩
  · have hsame : (c.setValue e.1 (e.2.value codec.parse)).value x = c.value x := by
      rw [hvalue, if_neg (Ne.symm hv)]
    have hdirty : x ∈ ((c.setValue e.1 (e.2.value codec.parse)).mark e.1).dirty ↔ x ∈ c.dirty := by
      show x ∈ List.insert e.1 c.dirty ↔ _
      rw [List.mem_insert_iff]
      simp [Ne.symm hv]
    unfold Vars.applyNetVar
    simp only
    -- refused, refused for its direction, or stored
    generalize (if c.server = true then OptionName.syncToServer else .syncToClient) = direction
    split
    · exact ⟨h, rfl, fun heq => absurd heq hv, fun _ => rfl, id, .inl⟩
    · split
      · exact ⟨h, rfl, fun heq => absurd heq hv, fun _ => rfl, id, .inl⟩
      · split
        · exact ⟨hmark, rfl, fun heq => absurd heq hv, fun _ => hsame, hdirty.mpr,
            fun hx => .inl (hdirty.mp hx)⟩
        · exact ⟨hset, rfl, fun heq => absurd heq hv, fun _ => hsame, id, .inl⟩

/-! ### A call's first part -/

theorem foldl_mark_keeps (l : List Var) (c : Context) :
    (l.foldl Context.mark c).values = c.values ∧ (l.foldl Context.mark c).server = c.server := by
  induction l generalizing c with
  | nil => exact ⟨rfl, rfl⟩
  | cons d l ih => exact ih (c.mark d)

theorem prepared_server (c : Context) (a : Action) : (prepared c a).server = c.server := by
  unfold prepared
  rw [(foldl_mark_keeps _ _).2]
  cases a with
  | write v value => simp only; split <;> rfl
  | _ => rfl

theorem marks_write (c : Context) (v : Var) (y : Value) : marks c (.write v y) =
    if c.defs v = none ∨ option (c.defs v) c.writeable = false then [] else [v] := rfl

/-- A call that does not mark the variable leaves its value. -/
theorem prepared_value {a : Action} (h : x ∉ marks c a) : (prepared c a).value x = c.value x := by
  unfold prepared Context.value
  rw [(foldl_mark_keeps _ _).1]
  cases a with
  | write v value =>
    simp only
    split
    · rfl
    · rename_i hmarks
      rw [marks_write] at h hmarks
      split at h
      · rename_i hrefused
        rw [if_pos hrefused] at hmarks
        exact absurd rfl hmarks
      · show (c.setValue v value).value x = c.value x
        rw [value_setValue, if_neg (by simpa using h)]
  | _ => rfl

/-- Before an action all values survive. -/
theorem fine_prepared {a : Action} (h : Fine codec c)
    (hsurvives : ∀ v value, a = .write v value → codec.Survives value) :
    Fine codec (prepared c a) := by
  unfold Fine prepared
  rw [(foldl_mark_keeps _ _).1]
  cases a with
  | write v value =>
    simp only
    split
    · exact h
    · exact h.setValue (hsurvives v value rfl)
  | _ => exact h

/-- What an action is not about is another variable. -/
theorem aside_of_not_about {d : Var} (h : ¬ About x d) : d ≠ x ∧ Aside x d := by
  constructor
  · rintro rfl
    exact h ⟨rfl, rfl, .inl rfl⟩
  · exact fun hstar hsame => h ⟨hsame.1, hsame.2, .inr hstar⟩

/-- A call about other variables. -/
theorem Local.prepared {a : Action} (h : Local codec x last c)
    (hsurvives : ∀ v value, a = .write v value → codec.Survives value)
    (hregistered : Registered (prepared c a) x) (hother : ∀ d ∈ marks c a, ¬ About x d) :
    Local codec x last (prepared c a) ∧ (prepared c a).value x = c.value x ∧
      (x ∈ (prepared c a).dirty ↔ x ∈ c.dirty) := by
  have hmarks : x ∉ marks c a := fun hx => (aside_of_not_about (hother x hx)).1 rfl
  have hvalue := prepared_value hmarks
  have hdirty : x ∈ (Vars.prepared c a).dirty ↔ x ∈ c.dirty := by
    rw [mem_prepared_dirty]
    exact or_iff_right hmarks
  refine ⟨⟨hregistered, ?_, fine_prepared h.fine hsurvives, ?_⟩, hvalue, hdirty⟩
  · intro d hd
    obtain hnew | hold := mem_prepared_dirty.mp hd
    · exact (aside_of_not_about (hother d hnew)).2
    · exact h.aside d hold
  · intro hx
    rw [hvalue]
    exact h.marked (hdirty.mp hx)

/-- A call about other variables, its flush with it. -/
theorem Local.sends_act {r : Remote} {a : Action} (hx : x.owner ≠ kEverywhere)
    (h : Local codec x last c) (hbinary : r.binary = codec.binary)
    (hsurvives : ∀ v value, a = .write v value → codec.Survives value)
    (hregistered : Registered (Vars.prepared c a) x) (hother : ∀ d ∈ marks c a, ¬ About x d) :
    Sends codec r x last c (act r c a) := by
  obtain ⟨hprepared, hvalue, hdirty⟩ := h.prepared hsurvives hregistered hother
  have hside := prepared_server c a
  have hsends : Sends codec r x last (Vars.prepared c a) (act r c a) := by
    rw [act_eq]
    cases trigger c a with
    | none => exact hprepared.sends_nothing
    | some flushed => exact hprepared.sends_flush hx hbinary _ _ _
  constructor
  · exact hsends.after
  · exact hsends.value.trans hvalue
  · exact hsends.side.trans hside
  · exact fun hd => hdirty.mp (hsends.dirty hd)
  · exact hsends.posted
  · exact hsends.synced
  · exact fun hmentions => hdirty.mp (hsends.origin hmentions)
  · intro hd
    have hremote : remote r (Vars.prepared c a) = remote r c := by unfold remote; rw [hside]
    rw [← hremote]
    exact hsends.kept (hdirty.mpr hd)

/-- A write to the variable marks it alone. -/
theorem Registered.marks_write (h : Registered c x) (y : Value) : marks c (.write x y) = [x] := by
  obtain ⟨o, hdefs, hserver, hclient, _⟩ := h
  have hwriteable : option (some o) c.writeable = true := by
    unfold Context.writeable
    split <;> assumption
  rw [Vars.marks_write, hdefs, hwriteable]
  simp

/-- A value that no one was told of may be the last. -/
theorem Local.relabel (h : Local codec x last c) (hx : x ∉ c.dirty) (y : Value) :
    Local codec x y c := ⟨h.registered, h.aside, h.fine, fun hd => absurd hd hx⟩

/-- A write of the variable, with no earlier one out. -/
theorem Local.prepared_write (hx : x.owner ≠ kEverywhere) (h : Local codec x last c)
    (hsurvives : codec.Survives y) :
    Local codec x y (Vars.prepared c (.write x y)) ∧
      (Vars.prepared c (.write x y)).value x = y ∧ x ∈ (Vars.prepared c (.write x y)).dirty := by
  have hmarks := h.registered.marks_write y
  have heq : Vars.prepared c (.write x y) = (c.setValue x y).mark x := by
    unfold Vars.prepared
    simp [hmarks]
  have hvalue : (Vars.prepared c (.write x y)).value x = y := by
    rw [heq]
    show (c.setValue x y).value x = y
    rw [value_setValue, if_pos rfl]
  refine ⟨⟨?_, ?_, ?_, fun _ => hvalue⟩, hvalue, ?_⟩
  · rw [heq]
    exact h.registered
  · intro d hd
    obtain hnew | hold := mem_prepared_dirty.mp hd
    · rw [hmarks, List.mem_singleton] at hnew
      subst hnew
      exact fun hstar => absurd hstar hx
    · exact h.aside d hold
  · rw [heq]
    exact h.fine.setValue hsurvives
  · exact mem_prepared_dirty.mpr (.inl (by simp [hmarks]))

end Vars
end Bg3le
