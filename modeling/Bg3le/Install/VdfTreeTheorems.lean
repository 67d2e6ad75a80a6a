import Bg3le.Install.VdfTree

/-!
# The blocks of a KeyValues text

The loop over the tokens makes nodes of exactly those token lists whose lexemes write some trees.
-/

namespace Bg3le
namespace Install

/-! ## Blocks -/

theorem trees_append (nodes nodes' : List Node) :
    Node.trees (nodes ++ nodes') = Node.trees nodes ++ Node.trees nodes' := by
  induction nodes with
  | nil => rfl
  | cons node nodes ih =>
    rw [List.cons_append, Node.trees, Node.trees, ih]
    rfl

theorem trees_eq_map (nodes : List Node) : Node.trees nodes = nodes.map Node.tree := by
  induction nodes with
  | nil => rfl
  | cons node nodes ih => rw [Node.trees, ih, List.map_cons]

theorem key_tree (node : Node) : node.tree.key = node.key := by
  cases node <;> rfl

theorem flatten_append (trees trees' : List Tree) :
    flatten (trees ++ trees') = flatten trees ++ flatten trees' := by
  induction trees with
  | nil => simp [flatten]
  | cons tree trees ih => cases tree <;> simp [flatten, ih]

/-- Nodes start with their key. -/
theorem exists_flatten_cons (tree : Tree) (trees : List Tree) :
    ∃ rest, flatten (tree :: trees) = .string tree.key :: rest := by
  cases tree with
  | string key text => exact ⟨_, by rw [flatten, Tree.key]⟩
  | block key children => exact ⟨_, by rw [flatten, Tree.key]⟩

theorem Reads.append {nodes nodes' : List Node} {tokens tokens' : List Token}
    (h : Reads nodes tokens) (h' : Reads nodes' tokens') :
    Reads (nodes ++ nodes') (tokens ++ tokens') := by
  induction h with
  | nil => exact h'
  | string h ih => exact .string ih
  | block hinner h ihinner ih =>
    simp only [List.cons_append, List.append_assoc]
    exact .block hinner ih

theorem exists_of_reads_append {nodes nodes' : List Node} {tokens : List Token}
    (h : Reads (nodes ++ nodes') tokens) :
    ∃ before after, tokens = before ++ after ∧ Reads nodes before ∧ Reads nodes' after := by
  induction nodes generalizing tokens with
  | nil => exact ⟨[], tokens, rfl, .nil, h⟩
  | cons node nodes ih =>
    cases h with
    | string h =>
      obtain ⟨before, after, rfl, hbefore, hafter⟩ := ih h
      exact ⟨_, after, rfl, .string hbefore, hafter⟩
    | @block key start stop brace children inner close _ _ hinner h =>
      obtain ⟨before, after, rfl, hbefore, hafter⟩ := ih h
      exact ⟨.string start stop key :: .openBrace brace :: (inner ++ .closeBrace close :: before),
        after, by simp, .block hinner hbefore, hafter⟩

/-- The tokens of nodes add these to the innermost open block. -/
theorem parseTokens_reads {nodes : List Node} {tokens : List Token} (h : Reads nodes tokens)
    (top : Frame) (stack : List Frame) (rest : List Token) :
    parseTokens top stack (tokens ++ rest) =
      parseTokens ⟨top.key, top.children ++ nodes⟩ stack rest := by
  induction h generalizing top stack rest with
  | nil => simp
  | string h ih =>
    rw [List.cons_append, List.cons_append, parseTokens, ih, Frame.add]
    simp
  | block hinner h ihinner ih =>
    simp only [List.cons_append, List.append_assoc]
    rw [parseTokens, ihinner, parseTokens, ih, Frame.add]
    simp

/-- What the tokens still to come do to the open blocks. -/
theorem exists_reads_of_parseTokens {top : Frame} {stack : List Frame} {tokens : List Token}
    {root : List Node} (h : parseTokens top stack tokens = .ok root) :
    ∃ nodes inner rest, tokens = inner ++ rest ∧ Reads nodes inner ∧
      ((stack = [] ∧ rest = [] ∧ root = top.children ++ nodes) ∨
        ∃ parent stack' close rest', stack = parent :: stack' ∧ rest = .closeBrace close :: rest' ∧
          parseTokens (parent.add (.block top.key (top.children ++ nodes) close)) stack' rest' =
            .ok root) := by
  induction hn : tokens.length using Nat.strong_induction_on generalizing top stack tokens with
  | _ n ih =>
  subst hn
  match tokens with
  | [] =>
    rw [parseTokens] at h
    split at h
    · next hstack => exact ⟨[], [], [], rfl, .nil, .inl ⟨hstack, rfl, by simpa using h.symm⟩⟩
    · cases h
  | .closeBrace close :: rest =>
    cases stack with
    | nil => simp [parseTokens] at h
    | cons parent stack =>
      rw [parseTokens] at h
      exact ⟨[], [], _, rfl, .nil, .inr ⟨parent, stack, close, rest, rfl, rfl, by simpa using h⟩⟩
  | .openBrace start :: rest => simp [parseTokens] at h
  | [.string start stop key] => simp [parseTokens] at h
  | .string _ _ key :: .closeBrace start :: rest => simp [parseTokens] at h
  | .string start stop key :: .string start' stop' text :: rest =>
    rw [parseTokens] at h
    obtain ⟨nodes, inner, rest, rfl, hreads, hend⟩ := ih _ (by simp only [List.length_cons]; omega) h rfl
    refine ⟨.string key start' stop' text :: nodes, _, rest, rfl, .string hreads, ?_⟩
    simpa [Frame.add] using hend
  -- the block's own tokens first, then what stands behind its closing brace
  | .string start stop key :: .openBrace brace :: rest =>
    rw [parseTokens] at h
    obtain ⟨children, inner, rest, rfl, hchildren, hend⟩ := ih _ (by simp only [List.length_cons]; omega) h rfl
    rcases hend with ⟨hstack, -⟩ | ⟨parent, stack', close, rest, hstack, rfl, h⟩
    · cases hstack
    obtain ⟨rfl, rfl⟩ := List.cons.inj hstack
    obtain ⟨nodes, inner', rest, rfl, hreads, hend⟩ := ih _ (by simp only [List.length_append, List.length_cons]; omega) h rfl
    refine ⟨.block key children close :: nodes,
      .string start stop key :: .openBrace brace :: (inner ++ .closeBrace close :: inner'), rest,
      ?_, .block hchildren hreads, ?_⟩
    · simp
    · simpa [Frame.add] using hend

/-- The loop over the tokens makes nodes exactly of the tokens that write them. -/
theorem parseTokens_eq_ok {tokens : List Token} {root : List Node} :
    parseTokens ⟨[], []⟩ [] tokens = .ok root ↔ Reads root tokens := by
  constructor
  · intro h
    obtain ⟨nodes, inner, rest, rfl, hreads, hend⟩ := exists_reads_of_parseTokens h
    rcases hend with ⟨-, rfl, rfl⟩ | ⟨parent, stack, close, rest, hstack, -⟩
    · simpa using hreads
    · cases hstack
  · intro h
    have hparse := parseTokens_reads h ⟨[], []⟩ [] []
    rw [List.append_nil] at hparse
    rw [hparse, parseTokens]
    simp

theorem Reads.lexemes {nodes : List Node} {tokens : List Token} (h : Reads nodes tokens) :
    tokens.map Token.lexeme = flatten (Node.trees nodes) := by
  induction h with
  | nil => simp [Node.trees, flatten]
  | string h ih => simp [Node.trees, Node.tree, flatten, Token.lexeme, ih]
  | block hinner h ihinner ih =>
    simp [Node.trees, Node.tree, flatten, Token.lexeme, ih, ihinner]

/-- Tokens with the lexemes of trees write nodes of these trees. -/
theorem exists_reads_of_lexemes {trees : List Tree} {tokens : List Token}
    (h : tokens.map Token.lexeme = flatten trees) :
    ∃ nodes, Reads nodes tokens ∧ Node.trees nodes = trees := by
  induction trees using flatten.induct generalizing tokens with
  | case1 =>
    rw [flatten, List.map_eq_nil_iff] at h
    exact ⟨[], h ▸ .nil, rfl⟩
  | case2 key text trees ih =>
    match tokens with
    | .string start stop key' :: .string start' stop' text' :: tokens =>
      simp only [List.map_cons, flatten, Token.lexeme, List.cons.injEq, Lexeme.string.injEq] at h
      obtain ⟨rfl, rfl, h⟩ := h
      obtain ⟨nodes, hreads, rfl⟩ := ih h
      exact ⟨_, .string hreads, rfl⟩
    | .string _ _ _ :: .openBrace _ :: _ | .string _ _ _ :: .closeBrace _ :: _
    | [.string _ _ _] | .openBrace _ :: _ | .closeBrace _ :: _ | [] =>
      simp [flatten, Token.lexeme] at h
  | case3 key children trees ihchildren ih =>
    match tokens with
    | .string start stop key' :: .openBrace brace :: tokens =>
      simp only [List.map_cons, flatten, Token.lexeme, List.cons.injEq, Lexeme.string.injEq,
        true_and] at h
      obtain ⟨rfl, h⟩ := h
      obtain ⟨inner, rest, rfl, hinner, hrest⟩ := List.map_eq_append_iff.mp h
      obtain ⟨last, rest, rfl, hlast, hrest'⟩ := List.map_eq_cons_iff.mp hrest
      obtain ⟨close, rfl⟩ : ∃ close, last = .closeBrace close := by
        cases last with
        | closeBrace close => exact ⟨close, rfl⟩
        | string | openBrace => cases hlast
      obtain ⟨childNodes, hchildren, rfl⟩ := ihchildren hinner
      obtain ⟨nodes, hreads, rfl⟩ := ih hrest'
      exact ⟨_, .block hchildren hreads, rfl⟩
    | .string _ _ _ :: .string _ _ _ :: _ | .string _ _ _ :: .closeBrace _ :: _
    | [.string _ _ _] | .openBrace _ :: _ | .closeBrace _ :: _ | [] =>
      simp [flatten, Token.lexeme] at h

theorem flatten_injective {trees trees' : List Tree} (h : flatten trees = flatten trees') :
    trees = trees' := by
  -- any offsets do
  obtain ⟨tokens, htokens⟩ : ∃ tokens : List Token, tokens.map Token.lexeme = flatten trees := by
    refine ⟨(flatten trees).map fun
      | .string text => .string 0 0 text
      | .openBrace => .openBrace 0
      | .closeBrace => .closeBrace 0, ?_⟩
    rw [List.map_map, List.map_congr_left (g := id), List.map_id]
    intro lexeme _
    cases lexeme <;> rfl
  obtain ⟨nodes, hreads, rfl⟩ := exists_reads_of_lexemes htokens
  obtain ⟨nodes', hreads', rfl⟩ := exists_reads_of_lexemes (htokens.trans h)
  have hparse := parseTokens_eq_ok.mpr hreads
  rw [parseTokens_eq_ok.mpr hreads'] at hparse
  cases hparse
  rfl

end Install
end Bg3le
