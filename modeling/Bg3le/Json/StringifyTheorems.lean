import Bg3le.Json.NumberTheorems

/-!
# What `Ext.Json.Stringify` writes

The text is JSON of a document that shows the value.
-/

namespace Bg3le
namespace Json

open NumberText JsonText

variable {host : Host} {ctx : Context} {v : Value} {seen seen' : List Value} {depth fuel : ℕ}
  {indent pad text : Bytes} {items : Items}

/-! ## Strings -/

/-- The escape of a control character reads as it. -/
theorem unicode_control : ∀ n < 0x20, unicode (bytes "00" ++ [hexDigit (n / 16), hexDigit (n % 16)]) =
    some [n.toUInt8] := by
  decide +kernel

/-- An escaped character reads as itself. -/
theorem chars_escape (c : UInt8) {s t : Bytes} (h : Chars s t) : Chars (c :: s) (escape c ++ t) := by
  unfold escape
  split
  · next hc => exact .short (by rw [hc]; decide) h
  · split
    · next hc => exact .short (by rw [hc]; decide) h
    · split
      · next hc => exact .short (by rw [hc]; decide) h
      · split
        · next hc => exact .short (by rw [hc]; decide) h
        · split
          · next hc => exact .short (by rw [hc]; decide) h
          · split
            · next hc => exact .short (by rw [hc]; decide) h
            · split
              · next hc => exact .short (by rw [hc]; decide) h
              · split
                · next hc =>
                  have hunicode := unicode_control c.toNat (UInt8.lt_iff_toNat_lt.mp hc)
                  rw [show c.toNat.toUInt8 = c from UInt8.ofNat_toNat] at hunicode
                  exact .unicode hunicode h
                · next hc => exact .plain (UInt8.not_lt.mp hc) ‹_› ‹_› h

/-- So does an escaped text. -/
theorem chars_escaped (s : Bytes) : Chars s (s.flatMap escape) := by
  induction s with
  | nil => exact .nil
  | cons c s ih => exact chars_escape c ih

/-- A quoted string is the text of the string. -/
theorem text_jsonString (s : Bytes) : Text (.string s) (jsonString s) := .string (chars_escaped s)

/-- An integer is read as itself. -/
theorem numberOf_formatD (i : ℤ) : numberOf (formatD i) = some (.integer i) := by
  have hminus : minusOf (formatD i) = (decide (i < 0), digits i.natAbs) := by
    unfold formatD
    split
    · next hneg =>
      rw [decide_eq_true hneg]
      rfl
    · next hneg =>
      obtain ⟨c, rest, hdigits⟩ := List.exists_cons_of_ne_nil (digits_ne_nil i.natAbs)
      have hc : c ≠ 0x2d := by
        rintro rfl
        have hdigit := digit_of_mem (hdigits ▸ List.mem_cons_self : 0x2d ∈ digits i.natAbs)
        exact absurd hdigit (by decide)
      rw [decide_eq_false hneg, List.nil_append, hdigits, minusOf, if_neg hc]
  have hwhole : isWhole (digits i.natAbs) = true := by
    by_cases hzero : i.natAbs = 0
    · rw [hzero]
      decide
    · have hleading := (leading_digits (Nat.pos_of_ne_zero hzero)).isWhole [] (isDigit_zeros 0)
      rwa [List.append_nil] at hleading
  unfold numberOf
  rw [hminus]
  simp only
  rw [List.takeWhile_eq_self_iff.mpr isDigit_digits, List.dropWhile_eq_nil_iff.mpr isDigit_digits, hwhole,
    value_digits]
  simp only [Bool.not_true, Bool.false_eq_true, if_false, List.isEmpty_nil, if_true, decide_eq_true_eq]
  congr 2
  split <;> omega

/-! ## What a value shows -/

/-- What there is of a value at its level. -/
inductive Content where
  | whole (d : Document)
  | array (items : List Value)
  | object (items : List (Bytes × Value))
  | refused

/-- With the identity that is marked, if it has one. -/
structure Shape where
  id : Option Value
  content : Content

section

variable (host : Host) (ctx : Context)

def internalContent (v : Value) : Content :=
  if ctx.stringifyInternalTypes then .whole (.string (host.tostring v)) else .refused

/-- The members that keys and values make, if all keys have a text. -/
def membersOf (key : Value → Except Bytes Bytes) (pairs : List (Value × Value)) : Content :=
  match pairs.mapM fun e => (key e.1).map fun k => (k, e.2) with
  | .ok items => .object items
  | .error _ => .refused

def tableContent (t : LuaTable) : Content :=
  if t.isLinearArray then .array t.elements else membersOf (tableKey host ctx) t.pairs

def limitContent : Content := .whole (.string (bytes "*DEPTH LIMIT EXCEEDED*"))

def proxyShape (depth : ℕ) (v : Value) (mt : Metatable) : Shape :=
  if !ctx.iterateUserdata then ⟨none, internalContent host ctx v⟩
  else if ctx.limitDepth ≠ -1 ∧ ctx.limitDepth < depth then ⟨none, limitContent⟩
  else ⟨if host.isEntity v then none else some (identity v mt),
    match mt.pairs with
    | none => internalContent host ctx v
    | some pairs =>
      if mt.bg3leContainer = some (bytes "array") then .array ((proxyPairs ctx mt pairs).map Prod.snd)
      else membersOf (keyText host ctx.stringifyInternalTypes) (proxyPairs ctx mt pairs)⟩

def valueShape (depth : ℕ) (v : Value) : Shape :=
  match v with
  | .nil => ⟨none, .whole .null⟩
  | .boolean b => ⟨none, .whole (.boolean b)⟩
  | .integer i => ⟨none, .whole (.integer i)⟩
  | .float x => ⟨none, .whole (if (rational x.value).isSome then .double x else .null)⟩
  | .string s => ⟨none, .whole (.string s)⟩
  | .table t =>
    if isPlain host v then
      if ctx.limitDepth ≠ -1 ∧ ctx.limitDepth < depth then ⟨none, limitContent⟩
      else ⟨some v, tableContent host ctx (host.table t)⟩
    else match proxyMeta host v with
      | some mt => proxyShape host ctx depth v mt
      | none => ⟨none, internalContent host ctx v⟩
  | .userdata u =>
    match host.enumLabelOf u, host.bitfieldOf u, proxyMeta host v with
    | some label, _, _ => ⟨none, .whole (.string label)⟩
    | none, some labels, _ => ⟨none, .whole (.array (labels.map .string))⟩
    | none, none, some mt => proxyShape host ctx depth v mt
    | none, none, none => ⟨none, internalContent host ctx v⟩
  | .other _ => ⟨none, internalContent host ctx v⟩

def shapeOf (depth : ℕ) (v : Value) : Shape :=
  if ctx.maxDepth < depth then ⟨none, .refused⟩ else valueShape host ctx depth v

def isAgain (id : Option Value) (seen : List Value) : Bool := id.any fun id => isSeen ctx id seen

def markAll (id : Option Value) (seen : List Value) : List Value :=
  (id.map fun id => mark ctx id seen).getD seen

mutual

/-- The documents that show a value, with what has been seen before and after. The members of an
object may come in any order. -/
inductive Shows (host : Host) (ctx : Context) : ℕ → List Value → Value → Document → List Value → Prop
  | again {depth : ℕ} {seen : List Value} {v : Value}
      (h : isAgain ctx (shapeOf host ctx depth v).id seen = true) :
      Shows host ctx depth seen v (.string (bytes "*RECURSION*")) seen
  | whole {depth : ℕ} {seen : List Value} {v : Value} {d : Document}
      (hnew : isAgain ctx (shapeOf host ctx depth v).id seen = false)
      (h : (shapeOf host ctx depth v).content = .whole d) :
      Shows host ctx depth seen v d (markAll ctx (shapeOf host ctx depth v).id seen)
  | array {depth : ℕ} {seen seen' : List Value} {v : Value} {items : List Value} {ds : List Document}
      (hnew : isAgain ctx (shapeOf host ctx depth v).id seen = false)
      (h : (shapeOf host ctx depth v).content = .array items)
      (hitems : ShowsAll host ctx (depth + 1) (markAll ctx (shapeOf host ctx depth v).id seen) items
        ds seen') : Shows host ctx depth seen v (.array ds) seen'
  | object {depth : ℕ} {seen seen' : List Value} {v : Value} {items items' : List (Bytes × Value)}
      {ds : List Document} (hnew : isAgain ctx (shapeOf host ctx depth v).id seen = false)
      (h : (shapeOf host ctx depth v).content = .object items) (hperm : items'.Perm items)
      (hitems : ShowsAll host ctx (depth + 1) (markAll ctx (shapeOf host ctx depth v).id seen)
        (items'.map Prod.snd) ds seen') :
      Shows host ctx depth seen v (.object ((items'.map Prod.fst).zip ds)) seen'

inductive ShowsAll (host : Host) (ctx : Context) :
    ℕ → List Value → List Value → List Document → List Value → Prop
  | nil {depth : ℕ} {seen : List Value} : ShowsAll host ctx depth seen [] [] seen
  | cons {depth : ℕ} {seen seen' seen'' : List Value} {v : Value} {vs : List Value} {d : Document}
      {ds : List Document} (h : Shows host ctx depth seen v d seen')
      (hrest : ShowsAll host ctx depth seen' vs ds seen'') :
      ShowsAll host ctx depth seen (v :: vs) (d :: ds) seen''

end

end

/-! ## Containers -/

/-- What is written at a level shows what it is written of. -/
def Writes (host : Host) (ctx : Context) (depth : ℕ) (write : Value → List Value → Outcome) : Prop :=
  ∀ v seen text seen', write v seen = .ok (text, seen') →
    ∃ d, Shows host ctx depth seen v d seen' ∧ Text d text

variable {write : Value → List Value → Outcome} {body w : Bytes}

/-- What stands before a member is blank. -/
theorem blank_lead (ctx : Context) (hpad : Blank pad) :
    Blank (if ctx.beautify then 0x0a :: pad else []) := by
  split
  · intro c hc
    rcases List.mem_cons.mp hc with rfl | hc
    · decide
    · exact hpad c hc
  · exact blank_nil

/-- What it is indented by is blank. -/
theorem blank_pad (ctx : Context) (hindent : Blank indent) :
    Blank (if ctx.beautify then indent ++ bytes "    " else []) := by
  split
  · intro c hc
    rcases List.mem_append.mp hc with hc | hc
    · exact hindent c hc
    · have hspaces : bytes "    " = List.replicate 4 0x20 := rfl
      rw [hspaces] at hc
      rw [List.eq_of_mem_replicate hc]
      decide
  · exact blank_nil

theorem bind_eq_ok {α β : Type} {x : Except Bytes α} {f : α → Except Bytes β} {b : β} :
    (x >>= f) = .ok b ↔ ∃ a, x = .ok a ∧ f a = .ok b := by
  cases x with
  | error e => exact ⟨nofun, fun ⟨_, h, _⟩ => nomatch h⟩
  | ok a => exact ⟨fun h => ⟨a, rfl, h⟩, fun ⟨_, h, hb⟩ => Except.ok.inj h ▸ hb⟩

theorem emitItems_array (hwrite : Writes host ctx depth write) (hpad : Blank pad) (hw : Blank w)
    (hne : items ≠ []) (h : emitItems ctx write pad true items seen = .ok (body, seen')) :
    ∃ ds, ShowsAll host ctx depth seen (items.map Prod.snd) ds seen' ∧ JsonText.Items ds (body ++ w) := by
  induction items generalizing seen body with
  | nil => exact absurd rfl hne
  | cons item items ih =>
    obtain ⟨key, v⟩ := item
    rw [emitItems] at h
    obtain ⟨⟨text, seen₁⟩, hv, h⟩ := bind_eq_ok.mp h
    obtain ⟨⟨rest, seen₂⟩, hrest, h⟩ := bind_eq_ok.mp h
    obtain ⟨rfl, rfl⟩ := Prod.mk.inj (Except.ok.inj h)
    obtain ⟨d, hd, htext⟩ := hwrite _ _ _ _ hv
    have hlead := blank_lead ctx hpad
    cases items with
    | nil =>
      obtain ⟨rfl, rfl⟩ := Prod.mk.inj (Except.ok.inj hrest)
      refine ⟨[d], .cons hd .nil, ?_⟩
      have hitems := JsonText.Items.last hlead htext hw
      simpa using hitems
    | cons next items =>
      obtain ⟨ds, hds, hitems⟩ := ih (List.cons_ne_nil _ _) hrest
      refine ⟨d :: ds, .cons hd hds, ?_⟩
      have hitems' := JsonText.Items.cons hlead htext blank_nil hitems
      simpa using hitems'

theorem emitItems_object (hwrite : Writes host ctx depth write) (hpad : Blank pad) (hw : Blank w)
    (hne : items ≠ []) (h : emitItems ctx write pad false items seen = .ok (body, seen')) :
    ∃ ds, ShowsAll host ctx depth seen (items.map Prod.snd) ds seen' ∧
      Members ((items.map fun e => e.1.getD []).zip ds) (body ++ w) := by
  induction items generalizing seen body with
  | nil => exact absurd rfl hne
  | cons item items ih =>
    obtain ⟨key, v⟩ := item
    rw [emitItems] at h
    obtain ⟨⟨text, seen₁⟩, hv, h⟩ := bind_eq_ok.mp h
    obtain ⟨⟨rest, seen₂⟩, hrest, h⟩ := bind_eq_ok.mp h
    obtain ⟨rfl, rfl⟩ := Prod.mk.inj (Except.ok.inj h)
    obtain ⟨d, hd, htext⟩ := hwrite _ _ _ _ hv
    have hlead := blank_lead ctx hpad
    obtain ⟨gap, hgap, hcolon⟩ : ∃ gap, Blank gap ∧
        (if ctx.beautify then bytes ": " else bytes ":") = 0x3a :: gap := by
      split
      · have hspace : Blank [0x20] := fun c hc => by
          rw [List.mem_singleton.mp hc]
          decide
        exact ⟨[0x20], hspace, by decide⟩
      · exact ⟨[], blank_nil, by decide⟩
    have hkey := chars_escaped (key.getD [])
    cases items with
    | nil =>
      obtain ⟨rfl, rfl⟩ := Prod.mk.inj (Except.ok.inj hrest)
      refine ⟨[d], .cons hd .nil, ?_⟩
      have hmembers := Members.last hlead hkey blank_nil hgap htext hw
      simpa [hcolon, jsonString] using hmembers
    | cons next items =>
      obtain ⟨ds, hds, hmembers⟩ := ih (List.cons_ne_nil _ _) hrest
      refine ⟨d :: ds, .cons hd hds, ?_⟩
      have hmembers' := Members.cons hlead hkey blank_nil hgap htext blank_nil hmembers
      simpa [hcolon, jsonString] using hmembers'

/-- What `emit` writes of a container, given what is written of its values. -/
theorem emit_array {write : Bytes → Value → List Value → Outcome}
    (hwrite : ∀ pad, Blank pad → Writes host ctx depth (write pad)) (hindent : Blank indent)
    (h : emit ctx write items true indent seen = .ok (text, seen')) :
    ∃ ds, ShowsAll host ctx depth seen (items.map Prod.snd) ds seen' ∧ Text (.array ds) text := by
  unfold emit at h
  simp only at h
  split at h
  · next hnone =>
    obtain ⟨rfl, rfl⟩ := Prod.mk.inj (Except.ok.inj h)
    rw [List.isEmpty_iff.mp hnone]
    exact ⟨[], .nil, .empty blank_nil⟩
  · next hne =>
    obtain ⟨⟨body, seen₁⟩, hbody, h⟩ := bind_eq_ok.mp h
    obtain ⟨rfl, rfl⟩ := Prod.mk.inj (Except.ok.inj h)
    have hpad := blank_pad ctx hindent
    obtain ⟨ds, hds, hitems⟩ := emitItems_array (hwrite _ hpad) hpad (blank_lead ctx hindent)
      (fun h => hne (List.isEmpty_iff.mpr h)) hbody
    exact ⟨ds, hds, .array hitems⟩

theorem emit_object {write : Bytes → Value → List Value → Outcome}
    (hwrite : ∀ pad, Blank pad → Writes host ctx depth (write pad)) (hindent : Blank indent)
    (h : emit ctx write items false indent seen = .ok (text, seen')) :
    ∃ ds, ShowsAll host ctx depth seen (items.map Prod.snd) ds seen' ∧
      Text (.object ((items.map fun e => e.1.getD []).zip ds)) text := by
  unfold emit at h
  simp only at h
  split at h
  · next hnone =>
    obtain ⟨rfl, rfl⟩ := Prod.mk.inj (Except.ok.inj h)
    rw [List.isEmpty_iff.mp hnone]
    exact ⟨[], .nil, .emptyObject blank_nil⟩
  · next hne =>
    obtain ⟨⟨body, seen₁⟩, hbody, h⟩ := bind_eq_ok.mp h
    obtain ⟨rfl, rfl⟩ := Prod.mk.inj (Except.ok.inj h)
    have hpad := blank_pad ctx hindent
    obtain ⟨ds, hds, hmembers⟩ := emitItems_object (hwrite _ hpad) hpad (blank_lead ctx hindent)
      (fun h => hne (List.isEmpty_iff.mpr h)) hbody
    exact ⟨ds, hds, .object hmembers⟩

/-! ## Tables and views -/

theorem mapM_eq_ok {α β : Type} {f : α → Except Bytes β} {l : List α} {r : List β} :
    l.mapM f = .ok r ↔ List.Forall₂ (fun a b => f a = .ok b) l r := by
  induction l generalizing r with
  | nil =>
    rw [List.mapM_nil, List.forall₂_nil_left_iff]
    exact ⟨fun h => (Except.ok.inj h).symm, fun h => h ▸ rfl⟩
  | cons a l ih =>
    rw [List.mapM_cons, bind_eq_ok]
    constructor
    · rintro ⟨b, hb, h⟩
      obtain ⟨rest, hrest, h⟩ := bind_eq_ok.mp h
      obtain rfl := Except.ok.inj h
      exact .cons hb (ih.mp hrest)
    · rintro (_ | ⟨hb, hrest⟩)
      exact ⟨_, hb, bind_eq_ok.mpr ⟨_, ih.mpr hrest, rfl⟩⟩

theorem membersOf_eq {key : Value → Except Bytes Bytes} {pairs : List (Value × Value)}
    {members : List (Bytes × Value)}
    (h : List.Forall₂ (fun e m => key e.1 = .ok m.1 ∧ m.2 = e.2) pairs members) :
    membersOf key pairs = .object members := by
  have hmap : (pairs.mapM fun e => (key e.1).map fun k => (k, e.2)) = .ok members := by
    refine mapM_eq_ok.mpr (h.imp fun e m hm => ?_)
    rw [hm.1]
    exact congrArg Except.ok (Prod.ext rfl hm.2.symm)
  rw [membersOf, hmap]

/-- Members that were put together in another order are a permutation. -/
theorem exists_members {key : Value → Except Bytes Bytes} {pairs pairs' : List (Value × Value)}
    (hperm : pairs'.Perm pairs) (h : List.Forall₂ (fun e (m : Option Bytes × Value) =>
      key e.1 = .ok (m.1.getD []) ∧ m.2 = e.2) pairs' items) :
    ∃ members, membersOf key pairs = .object members ∧
      (items.map fun m => (m.1.getD [], m.2)).Perm members := by
  have hmap : List.Forall₂ (fun (e : Value × Value) (m : Bytes × Value) => key e.1 = .ok m.1 ∧ m.2 = e.2)
      pairs' (items.map fun m => (m.1.getD [], m.2)) := List.forall₂_map_right_iff.mpr h
  obtain ⟨members, hmembers, hsame⟩ := List.perm_comp_forall₂ hperm.symm hmap
  exact ⟨members, membersOf_eq hmembers, hsame.symm⟩

/-- The entries of a table are its members, in some order. -/
theorem tableItems_members {t : LuaTable} (h : tableItems host ctx t = .ok items) :
    ∃ members, membersOf (tableKey host ctx) t.pairs = .object members ∧
      (items.map fun m => (m.1.getD [], m.2)).Perm members := by
  unfold tableItems at h
  split at h
  · cases h
  · have hperm : (if ctx.beautify then host.sort (keyLess host) t.pairs else t.pairs).Perm t.pairs := by
      split
      · exact host.sort_perm _ _
      · exact .refl _
    refine exists_members hperm ((mapM_eq_ok.mp h).imp fun e m hm => ?_)
    obtain ⟨k, hk, hm⟩ := bind_eq_ok.mp hm
    obtain rfl := Except.ok.inj hm
    exact ⟨hk, rfl⟩

theorem proxyItems_array {mt : Metatable} {pairs : List (Value × Value)}
    (harray : mt.bg3leContainer = some (bytes "array")) (h : proxyItems host ctx mt pairs = .ok items) :
    (proxySorted host mt items).map Prod.snd = (proxyPairs ctx mt pairs).map Prod.snd := by
  have hitems : items = (proxyPairs ctx mt pairs).map fun e => (none, e.2) := by
    unfold proxyItems at h
    have hall := (mapM_eq_ok.mp h).imp fun e m hm => by
      rw [if_pos harray] at hm
      exact (Except.ok.inj hm : (none, e.2) = m)
    exact (List.forall₂_eq_eq_eq ▸ List.forall₂_map_left_iff.mpr hall : _ = _).symm
  rw [proxySorted, harray, Option.isNone_some, Bool.false_and, if_neg Bool.false_ne_true, hitems,
    List.map_map]
  rfl

/-- The members of a proxy are those its pairs give. -/
theorem proxyItems_members {mt : Metatable} {pairs : List (Value × Value)}
    (harray : mt.bg3leContainer ≠ some (bytes "array")) (h : proxyItems host ctx mt pairs = .ok items) :
    ∃ members, membersOf (keyText host ctx.stringifyInternalTypes) (proxyPairs ctx mt pairs) =
      .object members ∧ ((proxySorted host mt items).map fun m => (m.1.getD [], m.2)).Perm members := by
  obtain ⟨members, hmembers, hperm⟩ := exists_members (.refl _) ((mapM_eq_ok.mp h).imp fun e m hm => by
    rw [if_neg harray] at hm
    obtain ⟨k, hk, hm⟩ := bind_eq_ok.mp hm
    obtain rfl := Except.ok.inj hm
    exact (⟨hk, rfl⟩ : _ = Except.ok _ ∧ _ = e.2))
  refine ⟨members, hmembers, List.Perm.trans (List.Perm.map _ ?_) hperm⟩
  unfold proxySorted
  split
  · exact host.sort_perm _ _
  · exact .refl _

/-! ## Values -/

/-- A value that is shown whole takes no objects along. -/
theorem shows_whole {d : Document} (h : shapeOf host ctx depth v = ⟨none, .whole d⟩) :
    Shows host ctx depth seen v d seen := by
  have hshows : Shows host ctx depth seen v d (markAll ctx (shapeOf host ctx depth v).id seen) :=
    .whole (by rw [h]; rfl) (by rw [h])
  rwa [h] at hshows

/-- A fixed text in quotes is the text of a string. -/
theorem text_quoted {s : String} {t : String} (h : bytes s = jsonString (bytes t)) :
    Text (.string (bytes t)) (bytes s) := h ▸ text_jsonString _

/-- A value past the limit is shown as a note. -/
theorem shows_limit (h : shapeOf host ctx depth v = ⟨none, limitContent⟩)
    (hok : Except.ok (bytes "\"*DEPTH LIMIT EXCEEDED*\"", seen) = (.ok (text, seen') : Outcome)) :
    ∃ d, Shows host ctx depth seen v d seen' ∧ Text d text := by
  obtain ⟨rfl, rfl⟩ := Prod.mk.inj (Except.ok.inj hok)
  exact ⟨_, shows_whole h, text_quoted (by decide)⟩

/-- So is one that was met before. -/
theorem shows_again (h : isAgain ctx (shapeOf host ctx depth v).id seen = true)
    (hok : Except.ok (bytes "\"*RECURSION*\"", seen) = (.ok (text, seen') : Outcome)) :
    ∃ d, Shows host ctx depth seen v d seen' ∧ Text d text := by
  obtain ⟨rfl, rfl⟩ := Prod.mk.inj (Except.ok.inj hok)
  exact ⟨_, .again h, text_quoted (by decide)⟩

/-- A value without pairs is shown as the host's own text, or not at all. -/
theorem shows_internal (hcontent : (shapeOf host ctx depth v).content = internalContent host ctx v)
    (hnew : isAgain ctx (shapeOf host ctx depth v).id seen = false)
    (h : internalType host ctx v (markAll ctx (shapeOf host ctx depth v).id seen) = .ok (text, seen')) :
    ∃ d, Shows host ctx depth seen v d seen' ∧ Text d text := by
  unfold internalType at h
  split at h
  · next hinternal =>
    obtain ⟨rfl, rfl⟩ := Prod.mk.inj (Except.ok.inj h)
    refine ⟨_, .whole hnew (hcontent.trans ?_), text_jsonString _⟩
    rw [internalContent, if_pos hinternal]
  · cases h

variable {writeAt : Bytes → Value → List Value → Outcome}

/-- An object is shown by its members. -/
theorem shows_object (hwrite : ∀ pad, Blank pad → Writes host ctx (depth + 1) (writeAt pad))
    (hindent : Blank indent) {members : List (Bytes × Value)}
    (hnew : isAgain ctx (shapeOf host ctx depth v).id seen = false)
    (hcontent : (shapeOf host ctx depth v).content = .object members)
    (hperm : (items.map fun m => (m.1.getD [], m.2)).Perm members)
    (h : emit ctx writeAt items false indent (markAll ctx (shapeOf host ctx depth v).id seen) =
      .ok (text, seen')) :
    ∃ d, Shows host ctx depth seen v d seen' ∧ Text d text := by
  obtain ⟨ds, hds, htext⟩ := emit_object hwrite hindent h
  have hmembers : ShowsAll host ctx (depth + 1) (markAll ctx (shapeOf host ctx depth v).id seen)
      ((items.map fun m => (m.1.getD [], m.2)).map Prod.snd) ds seen' := by
    rw [List.map_map]
    exact hds
  refine ⟨_, .object hnew hcontent hperm hmembers, ?_⟩
  rw [List.map_map]
  exact htext

/-- A table is written as what it shows. -/
theorem stringifyTable_shows {t : ℕ} (hwrite : ∀ pad, Blank pad → Writes host ctx (depth + 1) (writeAt pad))
    (hindent : Blank indent)
    (hshape : shapeOf host ctx depth v = ⟨some (.table t), tableContent host ctx (host.table t)⟩)
    (h : stringifyTable host ctx writeAt t indent seen = .ok (text, seen')) :
    ∃ d, Shows host ctx depth seen v d seen' ∧ Text d text := by
  unfold stringifyTable at h
  split at h
  · next hseen => exact shows_again (by rw [hshape]; exact hseen) h
  · next hseen =>
    have hnew : isAgain ctx (shapeOf host ctx depth v).id seen = false := by
      rw [hshape]
      exact Bool.eq_false_iff.mpr hseen
    have hmark : mark ctx (.table t) seen = markAll ctx (shapeOf host ctx depth v).id seen := by
      rw [hshape]
      rfl
    rw [hmark] at h
    have hcontent := congrArg Shape.content hshape
    simp only [tableContent] at hcontent
    split at h
    · next hlinear =>
      rw [if_pos hlinear] at hcontent
      obtain ⟨ds, hds, htext⟩ := emit_array hwrite hindent h
      rw [List.map_map] at hds
      exact ⟨_, .array hnew hcontent (by simpa using hds), htext⟩
    · next hlinear =>
      rw [if_neg hlinear] at hcontent
      obtain ⟨items, hitems, h⟩ := bind_eq_ok.mp h
      obtain ⟨members, hmembers, hperm⟩ := tableItems_members hitems
      exact shows_object hwrite hindent hnew (hcontent.trans hmembers) hperm h

/-- So is a proxy. -/
theorem stringifyProxy_shows {mt : Metatable}
    (hwrite : ∀ pad, Blank pad → Writes host ctx (depth + 1) (writeAt pad)) (hindent : Blank indent)
    (hshape : shapeOf host ctx depth v = proxyShape host ctx depth v mt)
    (h : stringifyProxy host ctx writeAt v mt indent depth seen = .ok (text, seen')) :
    ∃ d, Shows host ctx depth seen v d seen' ∧ Text d text := by
  unfold stringifyProxy at h
  unfold proxyShape at hshape
  split at h
  · next hiterate =>
    rw [if_pos hiterate] at hshape
    refine shows_internal (by rw [hshape]) (by rw [hshape]; rfl) ?_
    rw [hshape]
    exact h
  · next hiterate =>
    rw [if_neg hiterate] at hshape
    split at h
    · next hlimit =>
      rw [if_pos hlimit] at hshape
      exact shows_limit hshape h
    · next hlimit =>
      rw [if_neg hlimit] at hshape
      have hid := congrArg Shape.id hshape
      have hcontent := congrArg Shape.content hshape
      simp only at hid hcontent
      split at h
      · next hseen =>
        rw [Bool.and_eq_true, Bool.not_eq_true'] at hseen
        refine shows_again ?_ h
        rw [hid, if_neg (by rw [hseen.1]; exact Bool.false_ne_true)]
        exact hseen.2
      · next hseen =>
        rw [Bool.and_eq_true, Bool.not_eq_true', not_and, Bool.not_eq_true] at hseen
        have hnew : isAgain ctx (shapeOf host ctx depth v).id seen = false := by
          rw [hid]
          split
          · rfl
          · next hentity => exact hseen (Bool.eq_false_iff.mpr hentity)
        -- an entity is never marked as seen, and may be written again
        have hmark : (if host.isEntity v then seen else mark ctx (identity v mt) seen) =
            markAll ctx (shapeOf host ctx depth v).id seen := by
          rw [hid]
          split <;> rfl
        simp only at h
        rw [hmark] at h
        cases hpairs : mt.pairs with
        | none =>
          rw [hpairs] at h hcontent
          exact shows_internal hcontent hnew h
        | some pairs =>
          rw [hpairs] at h hcontent
          simp only at h hcontent
          obtain ⟨items, hitems, h⟩ := bind_eq_ok.mp h
          -- the elements of an array are written in order, everything else by its keys
          by_cases harray : mt.bg3leContainer = some (bytes "array")
          · rw [if_pos harray] at hcontent
            rw [decide_eq_true harray] at h
            obtain ⟨ds, hds, htext⟩ := emit_array hwrite hindent h
            rw [proxyItems_array harray hitems] at hds
            exact ⟨_, .array hnew hcontent hds, htext⟩
          · rw [if_neg harray] at hcontent
            rw [decide_eq_false harray] at h
            obtain ⟨members, hmembers, hperm⟩ := proxyItems_members harray hitems
            exact shows_object hwrite hindent hnew (hcontent.trans hmembers) hperm h

/-- The labels of a bitfield are the items of an array. -/
theorem items_bitfield (labels : List Bytes) (hne : labels ≠ []) : JsonText.Items (labels.map .string)
    (([0x2c] : Bytes).intercalate (labels.map jsonString)) := by
  induction labels with
  | nil => exact absurd rfl hne
  | cons label labels ih =>
    cases labels with
    | nil =>
      have hitems := JsonText.Items.last blank_nil (text_jsonString label) blank_nil
      simpa using hitems
    | cons next labels =>
      have hitems := JsonText.Items.cons blank_nil (text_jsonString label) blank_nil
        (ih (List.cons_ne_nil _ _))
      simpa [List.intercalate, List.intersperse] using hitems

/-- A value is written as what it shows, where those in it are. -/
theorem stringifyValue_shows (hwrite : ∀ pad, Blank pad → Writes host ctx (depth + 1) (writeAt pad))
    (hindent : Blank indent) (hdepth : ¬ctx.maxDepth < depth)
    (h : stringifyValue host ctx writeAt indent depth v seen = .ok (text, seen')) :
    ∃ d, Shows host ctx depth seen v d seen' ∧ Text d text := by
  -- by the kind of value, in the order in which the code asks; tables and proxies have their own
  -- lemmas
  cases v with
  | nil =>
    obtain ⟨rfl, rfl⟩ := Prod.mk.inj (Except.ok.inj h)
    exact ⟨_, shows_whole (by rw [shapeOf, if_neg hdepth, valueShape]), .null⟩
  | boolean b =>
    obtain ⟨rfl, rfl⟩ := Prod.mk.inj (Except.ok.inj h)
    refine ⟨_, shows_whole (by rw [shapeOf, if_neg hdepth, valueShape]), ?_⟩
    cases b with
    | true => exact Text.trueWord
    | false => exact Text.falseWord
  | integer i =>
    obtain ⟨rfl, rfl⟩ := Prod.mk.inj (Except.ok.inj h)
    exact ⟨_, shows_whole (by rw [shapeOf, if_neg hdepth, valueShape]), .number (numberOf_formatD i)⟩
  | float x =>
    obtain ⟨rfl, rfl⟩ := Prod.mk.inj (Except.ok.inj h)
    exact ⟨_, shows_whole (by rw [shapeOf, if_neg hdepth, valueShape]), text_jsonFloat x⟩
  | string s =>
    obtain ⟨rfl, rfl⟩ := Prod.mk.inj (Except.ok.inj h)
    exact ⟨_, shows_whole (by rw [shapeOf, if_neg hdepth, valueShape]), text_jsonString s⟩
  | table t =>
    rw [stringifyValue] at h
    by_cases hplain : isPlain host (.table t)
    · rw [if_pos hplain] at h
      split at h
      · next hlimit =>
        exact shows_limit (by simp only [shapeOf, valueShape, if_neg hdepth, if_pos hplain, if_pos hlimit]) h
      · next hlimit =>
        refine stringifyTable_shows hwrite hindent ?_ h
        simp only [shapeOf, valueShape, if_neg hdepth, if_pos hplain, if_neg hlimit]
    · rw [if_neg hplain] at h
      cases hmeta : proxyMeta host (.table t) with
      | some mt =>
        rw [hmeta] at h
        refine stringifyProxy_shows hwrite hindent ?_ h
        simp only [shapeOf, valueShape, if_neg hdepth, if_neg hplain, hmeta]
      | none => exact absurd (by rw [isPlain, hmeta]; rfl) hplain
  | userdata u =>
    rw [stringifyValue] at h
    cases hlabel : host.enumLabelOf u with
    | some label =>
      rw [hlabel] at h
      obtain ⟨rfl, rfl⟩ := Prod.mk.inj (Except.ok.inj h)
      exact ⟨_, shows_whole (by simp only [shapeOf, valueShape, if_neg hdepth, hlabel]), text_jsonString label⟩
    | none =>
      -- no enumeration: a bit field is written as an array of its labels
      cases hlabels : host.bitfieldOf u with
      | some labels =>
        rw [hlabel, hlabels] at h
        obtain ⟨rfl, rfl⟩ := Prod.mk.inj (Except.ok.inj h)
        refine ⟨_, shows_whole (d := .array (labels.map .string))
          (by simp only [shapeOf, valueShape, if_neg hdepth, hlabel, hlabels]), ?_⟩
        cases labels with
        | nil => exact Text.empty blank_nil
        | cons label labels => exact .array (items_bitfield _ (List.cons_ne_nil _ _))
      | none =>
        cases hmeta : proxyMeta host (.userdata u) with
        | some mt =>
          rw [hlabel, hlabels, hmeta] at h
          refine stringifyProxy_shows hwrite hindent ?_ h
          simp only [shapeOf, valueShape, if_neg hdepth, hlabel, hlabels, hmeta]
        | none =>
          rw [hlabel, hlabels, hmeta] at h
          have hshape : shapeOf host ctx depth (.userdata u) =
              ⟨none, internalContent host ctx (.userdata u)⟩ := by
            simp only [shapeOf, valueShape, if_neg hdepth, hlabel, hlabels, hmeta]
          exact shows_internal (by rw [hshape]) (by rw [hshape]; rfl) (by rw [hshape]; exact h)
  | other o =>
    have hshape : shapeOf host ctx depth (.other o) = ⟨none, internalContent host ctx (.other o)⟩ := by
      simp only [shapeOf, valueShape, if_neg hdepth]
    exact shows_internal (by rw [hshape]) (by rw [hshape]; rfl) (by rw [hshape]; exact h)

/-- Each level writes JSON of a document that shows the value. -/
theorem stringify_shows (hindent : Blank indent)
    (h : stringify host ctx fuel indent depth v seen = .ok (text, seen')) :
    ∃ d, Shows host ctx depth seen v d seen' ∧ Text d text := by
  induction fuel generalizing indent depth v seen text seen' with
  | zero => cases h
  | succ fuel ih =>
    rw [stringify] at h
    split at h
    · cases h
    · next hdepth =>
      exact stringifyValue_shows (fun pad hpad v seen text seen' h => ih hpad h) hindent hdepth h

/-- What `Ext.Json.Stringify` returns is JSON of one document, and the document shows the value. -/
theorem stringifyText_shows (h : stringifyText host ctx v = .ok text) :
    ∃ d seen, Text d text ∧ read text = some d ∧ Shows host ctx 0 [] v d seen := by
  unfold stringifyText at h
  cases hresult : stringify host ctx 66 [] 0 v [] with
  | error e =>
    rw [hresult] at h
    cases h
  | ok result =>
    rw [hresult] at h
    obtain rfl := Except.ok.inj h
    obtain ⟨d, hshows, htext⟩ := stringify_shows blank_nil hresult
    have hread := read_text blank_nil htext blank_nil
    rw [List.append_nil, List.nil_append] at hread
    exact ⟨d, result.2, htext, hread, hshows⟩

/-! ## When a value is written -/

/-- Whatever there is of a value can be written. -/
def CanWrite (writeAt : Bytes → Value → List Value → Outcome) : Content → Prop
  | .whole _ => True
  | .array items => ∀ v ∈ items, ∀ pad seen, ∃ r, writeAt pad v seen = .ok r
  | .object items => ∀ m ∈ items, ∀ pad seen, ∃ r, writeAt pad m.2 seen = .ok r
  | .refused => False

/-- Members that can be written can be put together. -/
theorem emit_ok {array : Bool} (h : ∀ m ∈ items, ∀ pad seen, ∃ r, writeAt pad m.2 seen = .ok r) :
    ∃ r, emit ctx writeAt items array indent seen = .ok r := by
  have hitems (pad : Bytes) (seen : List Value) :
      ∃ r, emitItems ctx (writeAt pad) pad array items seen = .ok r := by
    induction items generalizing seen with
    | nil => exact ⟨_, rfl⟩
    | cons item items ih =>
      obtain ⟨key, v⟩ := item
      obtain ⟨⟨text, seen₁⟩, hv⟩ := h (key, v) List.mem_cons_self pad seen
      obtain ⟨⟨rest, seen₂⟩, hrest⟩ := ih (fun m hm => h m (List.mem_cons_of_mem _ hm)) seen₁
      rw [emitItems]
      exact ⟨_, bind_eq_ok.mpr ⟨_, hv, bind_eq_ok.mpr ⟨_, hrest, rfl⟩⟩⟩
  unfold emit
  simp only
  split
  · exact ⟨_, rfl⟩
  · obtain ⟨⟨body, seen₁⟩, hbody⟩ := hitems (if ctx.beautify then indent ++ bytes "    " else []) seen
    exact ⟨_, bind_eq_ok.mpr ⟨_, hbody, rfl⟩⟩

/-- All values are made if each can be. -/
theorem exists_mapM {α β : Type} {f : α → Except Bytes β} {l : List α} (h : ∀ a ∈ l, ∃ b, f a = .ok b) :
    ∃ r, l.mapM f = .ok r := by
  induction l with
  | nil => exact ⟨[], rfl⟩
  | cons a l ih =>
    obtain ⟨b, hb⟩ := h a List.mem_cons_self
    obtain ⟨r, hr⟩ := ih fun a ha => h a (List.mem_cons_of_mem _ ha)
    rw [List.mapM_cons]
    exact ⟨_, bind_eq_ok.mpr ⟨b, hb, bind_eq_ok.mpr ⟨r, hr, rfl⟩⟩⟩

/-- Each of the values made is made of its own. -/
theorem exists_of_forall₂ {α β : Type} {f : α → Except Bytes β} {l : List α} {r : List β}
    (h : List.Forall₂ (fun a b => f a = .ok b) l r) : ∀ a ∈ l, ∃ b, f a = .ok b := by
  induction h with
  | nil => exact fun a ha => absurd ha List.not_mem_nil
  | cons hb _ ih =>
    intro a ha
    rcases List.mem_cons.mp ha with rfl | ha
    · exact ⟨_, hb⟩
    · exact ih a ha

/-- Every key of an object has a text. -/
theorem exists_key {key : Value → Except Bytes Bytes} {pairs : List (Value × Value)}
    {members : List (Bytes × Value)} (h : membersOf key pairs = .object members) :
    ∀ e ∈ pairs, ∃ k, key e.1 = .ok k := by
  unfold membersOf at h
  split at h
  · next hmap =>
    intro e he
    obtain ⟨m, hm⟩ := exists_of_forall₂ (mapM_eq_ok.mp hmap) e he
    cases hkey : key e.1 with
    | error e' =>
      rw [hkey] at hm
      cases hm
    | ok k => exact ⟨k, rfl⟩
  · cases h

/-- Pairs that can be written have keys and values that can. -/
theorem exists_of_canWrite {key : Value → Except Bytes Bytes} {pairs : List (Value × Value)}
    (h : CanWrite writeAt (membersOf key pairs)) : ∃ members, membersOf key pairs = .object members ∧
      ∀ m ∈ members, ∀ pad seen, ∃ r, writeAt pad m.2 seen = .ok r := by
  unfold membersOf at h ⊢
  split at h
  · exact ⟨_, rfl, h⟩
  · exact h.elim

/-- A key that has a text is a string or a number. -/
theorem isKey_of_tableKey {k : Value} {t : Bytes} (h : tableKey host ctx k = .ok t) : isKey k = true := by
  cases k with
  | string | integer | float => rfl
  | _ => cases h

/-- The entries of a table are put together if all keys have a text. -/
theorem tableItems_ok {t : LuaTable} {members : List (Bytes × Value)}
    (h : membersOf (tableKey host ctx) t.pairs = .object members) :
    ∃ items, tableItems host ctx t = .ok items ∧ ∀ item ∈ items, ∃ m ∈ members, m.2 = item.2 := by
  have hkeys := exists_key h
  have hall : ¬(ctx.beautify && t.pairs.any fun e => !isKey e.1) = true := by
    rw [Bool.and_eq_true, List.any_eq_true]
    rintro ⟨-, e, he, hkey⟩
    obtain ⟨k, hk⟩ := hkeys e he
    rw [isKey_of_tableKey hk] at hkey
    cases hkey
  obtain ⟨items, hitems⟩ : ∃ items, tableItems host ctx t = .ok items := by
    rw [tableItems, if_neg hall]
    refine exists_mapM fun e he => ?_
    have hmem : e ∈ t.pairs := by
      split at he
      · exact (host.sort_perm _ _).mem_iff.mp he
      · exact he
    obtain ⟨k, hk⟩ := hkeys e hmem
    exact ⟨_, bind_eq_ok.mpr ⟨k, hk, rfl⟩⟩
  refine ⟨items, hitems, fun item hitem => ?_⟩
  obtain ⟨members', hmembers, hperm⟩ := tableItems_members hitems
  obtain rfl : members = members' := Content.object.inj (h.symm.trans hmembers)
  exact ⟨_, hperm.mem_iff.mp (List.mem_map_of_mem hitem), rfl⟩

/-- A table is written where its keys and values can be. -/
theorem stringifyTable_ok {t : ℕ} (h : CanWrite writeAt (tableContent host ctx (host.table t))) :
    ∃ r, stringifyTable host ctx writeAt t indent seen = .ok r := by
  unfold stringifyTable
  unfold tableContent at h
  split
  · exact ⟨_, rfl⟩
  · split
    · next hlinear =>
      rw [if_pos hlinear] at h
      refine emit_ok fun m hm => ?_
      obtain ⟨v, hv, rfl⟩ := List.mem_map.mp hm
      exact h v hv
    · next hlinear =>
      rw [if_neg hlinear] at h
      obtain ⟨members, hmembers, hwrite⟩ := exists_of_canWrite h
      obtain ⟨items, hitems, hvalues⟩ := tableItems_ok hmembers
      have hemit : ∃ r, emit ctx writeAt items false indent (mark ctx (.table t) seen) = .ok r := by
        refine emit_ok fun item hitem => ?_
        obtain ⟨m, hm, hvalue⟩ := hvalues item hitem
        exact hvalue ▸ hwrite m hm
      obtain ⟨r, hr⟩ := hemit
      exact ⟨r, bind_eq_ok.mpr ⟨items, hitems, hr⟩⟩

/-- So is a value without pairs where the host has a text for it. -/
theorem internalType_ok (h : CanWrite writeAt (internalContent host ctx v)) :
    ∃ r, internalType host ctx v seen = .ok r := by
  unfold internalType
  unfold internalContent at h
  split
  · exact ⟨_, rfl⟩
  · next hinternal =>
    rw [if_neg hinternal] at h
    exact h.elim

/-- The pairs of a proxy are collected where they can be written. -/
theorem proxyItems_ok {mt : Metatable} {pairs : List (Value × Value)}
    (h : CanWrite writeAt (if mt.bg3leContainer = some (bytes "array") then
      .array ((proxyPairs ctx mt pairs).map Prod.snd)
      else membersOf (keyText host ctx.stringifyInternalTypes) (proxyPairs ctx mt pairs))) :
    ∃ items, proxyItems host ctx mt pairs = .ok items ∧
      ∀ item ∈ proxySorted host mt items, ∀ pad seen, ∃ r, writeAt pad item.2 seen = .ok r := by
  by_cases harray : mt.bg3leContainer = some (bytes "array")
  · rw [if_pos harray] at h
    obtain ⟨items, hitems⟩ : ∃ items, proxyItems host ctx mt pairs = .ok items := by
      refine exists_mapM fun e he => ?_
      rw [if_pos harray]
      exact ⟨_, rfl⟩
    refine ⟨items, hitems, fun item hitem => h item.2 ?_⟩
    rw [← proxyItems_array harray hitems]
    exact List.mem_map_of_mem hitem
  · rw [if_neg harray] at h
    obtain ⟨members, hmembers, hwrite⟩ := exists_of_canWrite h
    obtain ⟨items, hitems⟩ : ∃ items, proxyItems host ctx mt pairs = .ok items := by
      refine exists_mapM fun e he => ?_
      obtain ⟨k, hk⟩ := exists_key hmembers e he
      rw [if_neg harray]
      exact ⟨_, bind_eq_ok.mpr ⟨k, hk, rfl⟩⟩
    refine ⟨items, hitems, fun item hitem => ?_⟩
    obtain ⟨members', hmembers', hperm⟩ := proxyItems_members harray hitems
    obtain rfl : members = members' := Content.object.inj (hmembers.symm.trans hmembers')
    exact hwrite _ (hperm.mem_iff.mp (List.mem_map_of_mem hitem))

/-- Then the proxy is written. -/
theorem stringifyProxy_ok {mt : Metatable} (h : CanWrite writeAt (proxyShape host ctx depth v mt).content) :
    ∃ r, stringifyProxy host ctx writeAt v mt indent depth seen = .ok r := by
  unfold stringifyProxy
  unfold proxyShape at h
  split
  · next hiterate =>
    rw [if_pos hiterate] at h
    exact internalType_ok h
  · next hiterate =>
    rw [if_neg hiterate] at h
    split
    · exact ⟨_, rfl⟩
    · next hlimit =>
      rw [if_neg hlimit] at h
      split
      · exact ⟨_, rfl⟩
      · cases hpairs : mt.pairs with
        | none =>
          rw [hpairs] at h
          exact internalType_ok h
        | some pairs =>
          rw [hpairs] at h
          obtain ⟨items, hitems, hwrite⟩ := proxyItems_ok h
          have hemit : ∃ r, emit ctx writeAt (proxySorted host mt items)
              (mt.bg3leContainer = some (bytes "array")) indent
              (if host.isEntity v then seen else mark ctx (identity v mt) seen) = .ok r := emit_ok hwrite
          obtain ⟨r, hr⟩ := hemit
          exact ⟨r, bind_eq_ok.mpr ⟨items, hitems, hr⟩⟩

/-- A value is written if everything that there is of it is. -/
theorem stringifyValue_ok (hdepth : ¬ctx.maxDepth < depth)
    (h : CanWrite writeAt (shapeOf host ctx depth v).content) :
    ∃ r, stringifyValue host ctx writeAt indent depth v seen = .ok r := by
  rw [shapeOf, if_neg hdepth] at h
  cases v with
  | nil | boolean | integer | float | string => exact ⟨_, rfl⟩
  | table t =>
    rw [stringifyValue]
    rw [valueShape] at h
    by_cases hplain : isPlain host (.table t)
    · rw [if_pos hplain] at h ⊢
      split
      · exact ⟨_, rfl⟩
      · next hlimit =>
        rw [if_neg hlimit] at h
        exact stringifyTable_ok h
    · rw [if_neg hplain] at h ⊢
      cases hmeta : proxyMeta host (.table t) with
      | some mt =>
        rw [hmeta] at h
        exact stringifyProxy_ok h
      | none => exact absurd (by rw [isPlain, hmeta]; rfl) hplain
  | userdata u =>
    rw [stringifyValue]
    -- a label or a bitfield is text, whatever the options; other userdata is shown as they say
    cases hlabel : host.enumLabelOf u with
    | some label => exact ⟨_, rfl⟩
    | none =>
      cases hlabels : host.bitfieldOf u with
      | some labels => exact ⟨_, rfl⟩
      | none =>
        rw [valueShape, hlabel, hlabels] at h
        cases hmeta : proxyMeta host (.userdata u) with
        | some mt =>
          rw [hmeta] at h
          exact stringifyProxy_ok h
        | none =>
          rw [hmeta] at h
          exact internalType_ok h
  | other o => exact internalType_ok h

/-- Each of the values that are shown is shown by itself. -/
theorem ShowsAll.exists_shows {vs : List Value} {ds : List Document}
    (h : ShowsAll host ctx depth seen vs ds seen') :
    ∀ v ∈ vs, ∃ seen d seen', Shows host ctx depth seen v d seen' := by
  induction vs generalizing seen ds with
  | nil => exact fun v hv => absurd hv List.not_mem_nil
  | cons v vs ih =>
    cases h with
    | cons h hrest =>
      intro v' hv'
      rcases List.mem_cons.mp hv' with rfl | hv'
      · exact ⟨_, _, _, h⟩
      · exact ih hrest v' hv'

/-- Without the option no value counts as met before. -/
theorem isAgain_of_not (havoid : ctx.avoidRecursion = false) (id : Option Value) :
    isAgain ctx id seen = false := by
  cases id with
  | none => rfl
  | some id => rw [isAgain, Option.any_some, isSeen, havoid, Bool.false_and]

/-- Then a value that is shown is not refused. -/
theorem not_refused {d : Document} (havoid : ctx.avoidRecursion = false)
    (h : Shows host ctx depth seen v d seen') : (shapeOf host ctx depth v).content ≠ .refused := by
  intro hrefused
  cases h with
  | again h => rw [isAgain_of_not havoid] at h; cases h
  | whole _ h | array _ h _ | object _ h _ _ => rw [hrefused] at h; cases h

/-- Where recursion is not looked for, a value that a document shows is written. -/
theorem stringify_ok {d : Document} (havoid : ctx.avoidRecursion = false)
    (h : Shows host ctx depth seen v d seen') (hfuel : 66 ≤ fuel + depth) (indent : Bytes)
    (seen₁ : List Value) : ∃ r, stringify host ctx fuel indent depth v seen₁ = .ok r := by
  induction fuel generalizing depth seen v d seen' indent seen₁ with
  | zero =>
    have hmax := ctx.maxDepth_le
    refine absurd ?_ (not_refused havoid h)
    rw [shapeOf, if_pos (by omega)]
  | succ fuel ih =>
    have hdepth : ¬ctx.maxDepth < depth := by
      intro hdeep
      refine absurd ?_ (not_refused havoid h)
      rw [shapeOf, if_pos hdeep]
    rw [stringify, if_neg hdepth]
    refine stringifyValue_ok hdepth ?_
    cases h with
    | again h => rw [isAgain_of_not havoid] at h; cases h
    | whole hnew h => rw [h]; trivial
    | array hnew h hitems =>
      rw [h]
      intro v hv pad seen
      obtain ⟨_, _, _, hv⟩ := hitems.exists_shows v hv
      exact ih hv (by omega) pad seen
    | object hnew h hperm hitems =>
      rw [h]
      intro m hm pad seen
      obtain ⟨_, _, _, hv⟩ := hitems.exists_shows m.2 (List.mem_map_of_mem (hperm.mem_iff.mpr hm))
      exact ih hv (by omega) pad seen

/-- Then a value is written just where it can be shown. -/
theorem stringifyText_isOk_iff (havoid : ctx.avoidRecursion = false) :
    (∃ text, stringifyText host ctx v = .ok text) ↔ ∃ d seen, Shows host ctx 0 [] v d seen := by
  constructor
  · rintro ⟨text, h⟩
    obtain ⟨d, seen, -, -, hshows⟩ := stringifyText_shows h
    exact ⟨d, seen, hshows⟩
  · rintro ⟨d, seen, h⟩
    have hok : ∃ r, stringify host ctx 66 [] 0 v [] = .ok r := stringify_ok havoid h (by omega) [] []
    obtain ⟨r, hr⟩ := hok
    exact ⟨r.1, by rw [stringifyText, hr]; rfl⟩

end Json
end Bg3le
