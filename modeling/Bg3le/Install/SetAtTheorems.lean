import Bg3le.Install.VdfTreeTheorems

/-!
# Setting a value of a tree

What `SetAt` comes to at the first child of a key, where a key is missing, and inside a block that
is reached from the root.
-/

namespace Bg3le
namespace Install

variable {new key key' old : Str} {path : List Str} {trees trees' after : List Tree} {tree : Tree}

/-! ## One level -/

theorem setAt_string (hkey : sameKey key' key) :
    SetAt new (key :: path) (.string key' old :: trees) after ↔
      path = [] ∧ after = .string key' new :: trees := by
  constructor
  · intro h
    cases h with
    | replace => exact ⟨rfl, rfl⟩
    | pass hne => exact absurd hkey hne
    | create hne => exact absurd hkey (hne (.string key' old) (by simp))
    | createBlock hne => exact absurd hkey (hne (.string key' old) (by simp))
  · rintro ⟨rfl, rfl⟩
    exact .replace hkey

theorem setAt_block {children : List Tree} (hkey : sameKey key' key) :
    SetAt new (key :: path) (.block key' children :: trees) after ↔
      ∃ children', after = .block key' children' :: trees ∧ SetAt new path children children' := by
  constructor
  · intro h
    cases h with
    | descend _ hset => exact ⟨_, rfl, hset⟩
    | pass hne => exact absurd hkey hne
    | create hne => exact absurd hkey (hne (.block key' children) (by simp))
    | createBlock hne => exact absurd hkey (hne (.block key' children) (by simp))
  · rintro ⟨children', rfl, hset⟩
    exact .descend hkey hset

/-- What is before the first child of a key stays. -/
theorem setAt_append (hne : ∀ other ∈ trees, ¬ sameKey other.key key)
    (hkey : sameKey tree.key key) :
    SetAt new (key :: path) (trees ++ tree :: trees') after ↔
      ∃ after', after = trees ++ after' ∧ SetAt new (key :: path) (tree :: trees') after' := by
  induction trees generalizing after with
  | nil => simp
  | cons first trees ih =>
    have hfirst := hne first (by simp)
    have htrees {after} : SetAt new (key :: path) (trees ++ tree :: trees') after ↔ _ :=
      ih fun other hother => hne other (by simp [hother])
    constructor
    · intro h
      cases h with
      | replace hfirst' => exact absurd hfirst' hfirst
      | descend hfirst' => exact absurd hfirst' hfirst
      | pass _ hset =>
        obtain ⟨after', rfl, hafter⟩ := htrees.mp hset
        exact ⟨after', rfl, hafter⟩
      | create hall => exact absurd hkey (hall tree (by simp))
      | createBlock hall => exact absurd hkey (hall tree (by simp))
    · rintro ⟨after', rfl, hset⟩
      exact .pass hfirst (htrees.mpr ⟨after', rfl, hset⟩)

/-- A missing value is created anywhere. -/
theorem setAt_missing (hne : ∀ tree ∈ trees, ¬ sameKey tree.key key) :
    SetAt new [key] trees after ↔
      ∃ before rest, trees = before ++ rest ∧ after = before ++ .string key new :: rest := by
  constructor
  · intro h
    induction trees generalizing after with
    | nil =>
      cases h with
      | create => exact ⟨[], [], rfl, rfl⟩
      | createBlock _ hset => cases hset
    | cons tree trees ih =>
      have htree := hne tree (by simp)
      cases h with
      | replace hkey => exact absurd hkey htree
      | descend hkey => exact absurd hkey htree
      | create => exact ⟨[], _, rfl, rfl⟩
      | createBlock _ hset => cases hset
      | pass _ hset =>
        obtain ⟨before, rest, rfl, rfl⟩ := ih (fun other hother => hne other (by simp [hother])) hset
        exact ⟨tree :: before, rest, rfl, rfl⟩
  · rintro ⟨before, rest, rfl, rfl⟩
    induction before with
    | nil => exact .create hne
    | cons tree before ih =>
      exact .pass (hne tree (by simp)) (ih fun other hother => hne other (by simp [hother]))

/-- A missing block is created anywhere, with the value. -/
theorem setAt_missing_block {last : Str} (hne : ∀ tree ∈ trees, ¬ sameKey tree.key key) :
    SetAt new [key, last] trees after ↔
      ∃ before rest, trees = before ++ rest ∧
        after = before ++ .block key [.string last new] :: rest := by
  have hchildren {children} : SetAt new [last] [] children ↔ children = [.string last new] := by
    rw [setAt_missing (by simp)]
    simp
  constructor
  · intro h
    induction trees generalizing after with
    | nil =>
      cases h with
      | createBlock _ hset =>
        obtain rfl := hchildren.mp hset
        exact ⟨[], [], rfl, rfl⟩
    | cons tree trees ih =>
      have htree := hne tree (by simp)
      cases h with
      | descend hkey => exact absurd hkey htree
      | createBlock _ hset =>
        obtain rfl := hchildren.mp hset
        exact ⟨[], _, rfl, rfl⟩
      | pass _ hset =>
        obtain ⟨before, rest, rfl, rfl⟩ := ih (fun other hother => hne other (by simp [hother])) hset
        exact ⟨tree :: before, rest, rfl, rfl⟩
  · rintro ⟨before, rest, rfl, rfl⟩
    induction before with
    | nil => exact .createBlock hne (hchildren.mpr rfl)
    | cons tree before ih =>
      exact .pass (hne tree (by simp)) (ih fun other hother => hne other (by simp [hother]))

/-! ## Below a path -/

theorem exists_of_child {nodes : List Node} {node : Node} (h : child key nodes = some node) :
    ∃ before rest, nodes = before ++ node :: rest ∧ sameKey node.tree.key key ∧
      ∀ tree ∈ Node.trees before, ¬ sameKey tree.key key := by
  obtain ⟨hkey, before, rest, rfl, hne⟩ := List.find?_eq_some_iff_append.mp h
  refine ⟨before, rest, rfl, ?_, ?_⟩
  · rw [key_tree]
    simpa [sameKey] using hkey
  · intro tree htree
    rw [trees_eq_map] at htree
    obtain ⟨other, hother, rfl⟩ := List.mem_map.mp htree
    rw [key_tree]
    simpa [sameKey] using hne other hother

theorem ne_of_child_eq_none {nodes : List Node} (h : child key nodes = none) :
    ∀ tree ∈ Node.trees nodes, ¬ sameKey tree.key key := by
  intro tree htree
  rw [trees_eq_map] at htree
  obtain ⟨node, hnode, rfl⟩ := List.mem_map.mp htree
  rw [key_tree]
  simpa [sameKey] using List.find?_eq_none.mp h node hnode

/-- A block in its surroundings: the lexemes around its children, and the whole tree as a function
of them. -/
structure Surrounds (path : List Str) (root children : List Tree) (before after : List Lexeme)
    (plug : List Tree → List Tree) : Prop where
  flatten_plug (trees : List Tree) :
    flatten (plug trees) = before ++ (flatten trees ++ .closeBrace :: after)
  setAt {new : Str} {rest : List Str} {root' : List Tree} (hrest : rest ≠ []) :
    SetAt new (path ++ rest) root root' ↔
      ∃ children', root' = plug children' ∧ SetAt new rest children children'

/-- A block at the top. -/
theorem surrounds_block {before rest children : List Tree} (hkey : sameKey key' key)
    (hne : ∀ tree ∈ before, ¬ sameKey tree.key key) :
    Surrounds [key] (before ++ .block key' children :: rest) children
      (flatten before ++ [.string key', .openBrace]) (flatten rest)
      fun trees => before ++ .block key' trees :: rest where
  flatten_plug trees := by
    rw [flatten_append, flatten]
    simp
  setAt {new rest' root'} hrest := by
    have hkey' : sameKey (Tree.block key' children).key key := hkey
    rw [List.singleton_append, setAt_append hne hkey']
    simp only [setAt_block hkey]
    constructor
    · rintro ⟨_, rfl, children', rfl, hset⟩
      exact ⟨children', rfl, hset⟩
    · rintro ⟨children', rfl, hset⟩
      exact ⟨_, rfl, children', rfl, hset⟩

/-- One path after another. -/
theorem Surrounds.trans {path' : List Str} {root middle children : List Tree}
    {before after before' after' : List Lexeme} {plug plug' : List Tree → List Tree}
    (h : Surrounds path root middle before after plug)
    (h' : Surrounds path' middle children before' after' plug') (hpath : path' ≠ []) :
    Surrounds (path ++ path') root children (before ++ before')
      (after' ++ .closeBrace :: after) (plug ∘ plug') where
  flatten_plug trees := by
    rw [Function.comp_apply, h.flatten_plug, h'.flatten_plug]
    simp
  setAt {new rest root'} hrest := by
    rw [List.append_assoc, h.setAt (by simp [hpath])]
    constructor
    · rintro ⟨middle', rfl, hset⟩
      obtain ⟨children', rfl, hchildren⟩ := (h'.setAt hrest).mp hset
      exact ⟨children', rfl, hchildren⟩
    · rintro ⟨children', rfl, hset⟩
      exact ⟨_, rfl, (h'.setAt hrest).mpr ⟨children', rfl, hset⟩⟩

/-- The block that a path leads to, and its closing brace among the tokens. -/
theorem exists_surrounds {root children : List Node} {tokens : List Token} {close : ℕ}
    (hreads : Reads root tokens) (h : blockAt path root = some (children, close)) :
    ∃ before inner after plug, tokens = before ++ (inner ++ .closeBrace close :: after) ∧
      Reads children inner ∧
      Surrounds path (Node.trees root) (Node.trees children) (before.map Token.lexeme)
        (after.map Token.lexeme) plug := by
  induction path generalizing root tokens with
  | nil => cases h
  | cons key path ih =>
    rw [blockAt] at h
    split at h
    · next blockKey blockChildren blockClose hchild =>
      obtain ⟨front, rest, rfl, hkey, hne⟩ := exists_of_child hchild
      obtain ⟨frontTokens, tokens, rfl, hfront, htokens⟩ := exists_of_reads_append hreads
      cases htokens with
      | @block _ start stop brace _ blockInner _ _ restTokens hinner hrest =>
      have hlevel : Surrounds [key]
          (Node.trees front ++ .block blockKey (Node.trees blockChildren) :: Node.trees rest) _ _ _ _ :=
        surrounds_block hkey hne
      rw [← hfront.lexemes, ← hrest.lexemes] at hlevel
      split at h
      · next hpath =>
        subst hpath
        obtain ⟨rfl, rfl⟩ := Prod.mk.inj (Option.some.inj h)
        refine ⟨frontTokens ++ [.string start stop blockKey, .openBrace brace], blockInner,
          restTokens, fun trees => Node.trees front ++ .block blockKey trees :: Node.trees rest,
          by simp, hinner, ?_⟩
        rw [trees_append, Node.trees, List.map_append]
        exact hlevel
      · next hpath =>
        obtain ⟨before, inner, after, plug, rfl, hchildren, hsurrounds⟩ := ih hinner h
        refine ⟨frontTokens ++ .string start stop blockKey :: .openBrace brace :: before, inner,
          after ++ .closeBrace blockClose :: restTokens,
          (fun trees => Node.trees front ++ .block blockKey trees :: Node.trees rest) ∘ plug,
          by simp, hchildren, ?_⟩
        have htrans := hlevel.trans hsurrounds hpath
        rw [trees_append, Node.trees, Node.tree]
        simpa [Token.lexeme] using htrans
    · cases h

end Install
end Bg3le
