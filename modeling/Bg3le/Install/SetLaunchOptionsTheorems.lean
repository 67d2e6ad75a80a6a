import Bg3le.Install.SetAtTheorems
import Bg3le.Install.IndentTheorems

/-!
# What setting the launch options keeps of a user's configuration

A value that is there is replaced in place. One that is missing is written before the line of a
closing brace, with the text in front of that brace as its indentation, which is therefore read
once more than before.
-/

namespace Bg3le
namespace Install

/-- `path`, with the keys below it. -/
def appsPath : List Str := steamPath ++ [py "apps"]

def optionPath : List Str := appsPath ++ [appId, launchOptionsKey]

/-- The new text denotes the tree of the old one with the launch options set. -/
def SetsLaunchOptions (text : Str) : Str × Str × Str → Prop
  | (text', old, new) =>
    ∃ before after, denotation text = some before ∧ denotation text' = some after ∧
      if new = old then after = before else SetAt new optionPath before after

/-- The children of the apps block and its closing brace. -/
def appsBlock (text : Str) : Option (List Node × ℕ) :=
  match parseVdf text with
  | .ok root => blockAt appsPath root
  | .error _ => none

/-- The lexemes of a text. -/
def lexemes (text : Str) : Option (List Lexeme) :=
  (tokensFrom 0 0 text).toOption.map (·.map Token.lexeme)

/-- The edit keeps the tree: the value is there or is not set; or the rest of the text reads from
the start of the closing brace's line as it does from the brace; or the new block is indented with
whitespace, where no value stands in the block's place. -/
def KeepsTree (text : Str) (transform : Str → Str) : Prop :=
  match appsBlock text with
  | none => True
  | some (apps, appsClose) =>
    match child appId apps with
    | some (.block _ app appClose) =>
      (child launchOptionsKey app).isSome ∨ transform [] = [] ∨
        lexemes (text.drop (lineStart text appClose)) = lexemes (text.drop appClose)
    | some (.string ..) => transform [] = []
    | none => transform [] = [] ∨ ∀ c ∈ depthIndent text appsClose, isSpace c

instance (text : Str) (transform : Str → Str) : Decidable (KeepsTree text transform) :=
  match hblock : appsBlock text with
  | none => .isTrue (by rw [KeepsTree, hblock]; trivial)
  | some (apps, appsClose) =>
    match happ : child appId apps with
    | some (.block _ app appClose) =>
      decidable_of_iff ((child launchOptionsKey app).isSome ∨ transform [] = [] ∨
        lexemes (text.drop (lineStart text appClose)) = lexemes (text.drop appClose))
        (by simp only [KeepsTree, hblock, happ])
    | some (.string ..) =>
      decidable_of_iff (transform [] = []) (by simp only [KeepsTree, hblock, happ])
    | none =>
      decidable_of_iff (transform [] = [] ∨ ∀ c ∈ depthIndent text appsClose, isSpace c)
        (by simp only [KeepsTree, hblock, happ])

theorem lexemes_eq_read (text : Str) : lexemes text = reader.read .plain text :=
  lexemes_tokensFrom 0 text

/-! ## Lines -/

/-- A text around the offset of a closing brace. -/
structure LineOf (text : Str) (close : ℕ) (line indent rest : Str) : Prop where
  text_eq : text = line ++ (indent ++ rest)
  take_close : text.take close = line ++ indent
  drop_close : text.drop close = rest
  take_start : text.take (lineStart text close) = line
  drop_start : text.drop (lineStart text close) = indent ++ rest
  depthIndent_eq : depthIndent text close = indent
  line_eq : line = [] ∨ ∃ before, line = before ++ [10]
  indent_ne : ∀ c ∈ indent, c ≠ 10

theorem exists_lineOf (text : Str) (close : ℕ) : ∃ line indent rest,
    LineOf text close line indent rest := by
  have hfront := List.rdropWhile_append_rtakeWhile (p := (· ≠ 10)) (l := text.take close)
  have hlast := List.rdropWhile_last_not (· ≠ 10) (text.take close)
  have hindent : ∀ c ∈ (text.take close).rtakeWhile (· ≠ 10), c ≠ 10 := fun c hc => by
    simpa using List.mem_rtakeWhile_imp hc
  have hstart : lineStart text close = ((text.take close).rdropWhile (· ≠ 10)).length := rfl
  have hdepth : depthIndent text close = (text.take close).drop (lineStart text close) := rfl
  generalize (text.take close).rdropWhile (· ≠ 10) = line at *
  generalize (text.take close).rtakeWhile (· ≠ 10) = indent at *
  have htext : text = line ++ (indent ++ text.drop close) := by
    rw [← List.append_assoc, hfront, List.take_append_drop]
  refine ⟨line, indent, text.drop close, htext, hfront.symm, rfl, ?_, ?_, ?_, ?_, hindent⟩
  · conv_lhs => rw [hstart, htext]
    exact List.take_left ..
  · conv_lhs => rw [hstart, htext]
    exact List.drop_left ..
  · rw [hdepth, hstart, ← hfront]
    exact List.drop_left ..
  · rcases List.eq_nil_or_concat line with rfl | ⟨before, last, rfl⟩
    · exact .inl rfl
    · have hnewline : last = 10 := by simpa using hlast (by simp)
      exact .inr ⟨before, by rw [hnewline, List.concat_eq_append]⟩

/-- The line of a closing brace, as it is read. -/
structure BraceAt (text : Str) (close : ℕ) (before after : List Lexeme) (line indent rest : Str) :
    Prop extends LineOf text close line indent rest where
  run_front : reader.run .plain (line ++ indent) = some (before, .plain)
  read_rest : reader.read .plain rest = some (.closeBrace :: after)

theorem exists_braceAt {text : Str} {before after : List Token} {close : ℕ}
    (h : tokensFrom 0 0 text = .ok (before ++ .closeBrace close :: after)) :
    ∃ line indent rest,
      BraceAt text close (before.map Token.lexeme) (after.map Token.lexeme) line indent rest := by
  obtain ⟨front, brace, rest, htext, hat⟩ := exists_tokenAt h
  obtain ⟨line, indent, back, hline⟩ := exists_lineOf text close
  have hclose : close = front.length := by
    obtain ⟨found, hfound⟩ := hat.offsets
    cases found with
    | closeBrace => simpa [Match.tokens] using hfound.symm
    | skipped | string | openBrace => cases hfound
  have hfront : line ++ indent = front := by
    rw [← hline.take_close, hclose, htext]
    exact List.take_left ..
  have hback : back = brace ++ rest := by
    rw [← hline.drop_close, hclose, htext]
    exact List.drop_left ..
  refine ⟨line, indent, back, hline, ?_, ?_⟩
  · rw [hfront]
    exact hat.run_front
  · rw [hback, Transducer.read_append hat.run_text, hat.read_rest]
    rfl

/-! ## A new entry -/

/-- An entry written at the end of a block sets a value there exactly if the text after the
entry's key reads as the rest of the entry and then as before. -/
theorem setAt_iff_of_read {path rest : List Str} {key text new : Str}
    {root children : List Tree} {before after entryTail : List Lexeme}
    {plug : List Tree → List Tree} {entry : Tree} {tail : Option (List Lexeme)}
    (hsurrounds : Surrounds path root children before after plug) (hrest : rest ≠ [])
    (hmissing : ∀ tree ∈ children, ¬ sameKey tree.key key)
    (hset : ∀ children', SetAt new rest children children' ↔
      ∃ front back, children = front ++ back ∧ children' = front ++ entry :: back)
    (hentry : flatten [entry] = .string key :: entryTail)
    (hread : reader.read .plain text =
      tail.map (before ++ (flatten children ++ [.string key]) ++ ·)) :
    (∃ root', denotation text = some root' ∧ SetAt new (path ++ rest) root root') ↔
      tail = some (entryTail ++ .closeBrace :: after) := by
  constructor
  · rintro ⟨root', hdenotes, h⟩
    obtain ⟨children', rfl, hchildren⟩ := (hsurrounds.setAt hrest).mp h
    obtain ⟨front, back, rfl, rfl⟩ := (hset children').mp hchildren
    rw [denotation_eq_some, hread, Option.map_eq_some_iff] at hdenotes
    obtain ⟨tail, rfl, heq⟩ := hdenotes
    have hplug : flatten (front ++ entry :: back) =
        flatten front ++ (.string key :: entryTail ++ flatten back) := by
      rw [← List.singleton_append, flatten_append, flatten_append, hentry]
    rw [hsurrounds.flatten_plug, hplug, flatten_append] at heq
    simp only [List.append_assoc, List.append_cancel_left_eq, List.cons_append,
      List.nil_append] at heq
    cases back with
    | nil =>
      rw [flatten, List.nil_append, List.nil_append, List.cons_inj_right] at heq
      rw [heq]
    | cons tree back =>
      obtain ⟨more, hmore⟩ := exists_flatten_cons tree back
      rw [hmore, List.cons_append] at heq
      have hkey := Lexeme.string.inj (List.cons.inj heq).1
      exact absurd (congrArg lower hkey) (hmissing tree (by simp))
  · rintro rfl
    refine ⟨plug (children ++ [entry]), ?_, ?_⟩
    · rw [denotation_eq_some, hread, hsurrounds.flatten_plug, flatten_append, hentry]
      simp
    · exact (hsurrounds.setAt hrest).mpr ⟨_, rfl, (hset _).mpr ⟨children, [], by simp, rfl⟩⟩

/-! ## The edit -/

theorem blockAt_append {path path' : List Str} {nodes children : List Node} {close : ℕ}
    (h : blockAt path nodes = some (children, close)) (hpath : path' ≠ []) :
    blockAt (path ++ path') nodes = blockAt path' children := by
  induction path generalizing nodes with
  | nil => cases h
  | cons key path ih =>
    rw [List.cons_append, blockAt]
    rw [blockAt] at h
    split at h
    · simp only [List.append_eq_nil_iff, hpath, and_false, if_false]
      split at h
      · next hnil =>
        obtain ⟨rfl, rfl⟩ := Prod.mk.inj (Option.some.inj h)
        rw [hnil, List.nil_append]
      · exact ih h
    · cases h

/-- An edit that does not raise has found the apps block. -/
theorem exists_apps_of_ok {text : Str} {transform : Str → Str} {result : Str × Str × Str}
    (h : setLaunchOptions text transform = .ok result) :
    ∃ root apps appsClose, parseVdf text = .ok root ∧
      blockAt appsPath root = some (apps, appsClose) ∧
      setInApps text transform apps appsClose = .ok result := by
  unfold setLaunchOptions at h
  cases hparse : parseVdf text with
  | error e =>
    rw [hparse] at h
    cases h
  | ok root =>
    rw [hparse] at h
    simp only [bind, Except.bind] at h
    split at h
    · cases h
    · next steam steamClose hsteam =>
      split at h
      · cases h
      · next apps appsClose happs =>
        refine ⟨root, apps, appsClose, rfl, ?_, h⟩
        rw [appsPath, blockAt_append hsteam (by simp), happs]

theorem exists_reads_of_parseVdf {text : Str} {root : List Node} (h : parseVdf text = .ok root) :
    ∃ tokens, tokensFrom 0 0 text = .ok tokens ∧ Reads root tokens := by
  unfold parseVdf at h
  cases htokens : tokensFrom 0 0 text with
  | error e =>
    rw [htokens] at h
    cases h
  | ok tokens =>
    rw [htokens] at h
    exact ⟨tokens, rfl, parseTokens_eq_ok.mp h⟩

theorem denotation_of_parseVdf {text : Str} {root : List Node} (h : parseVdf text = .ok root) :
    denotation text = some (Node.trees root) := by
  rw [ denotation, h]

variable {text old new : Str} {root apps app children : List Node} {appsClose appClose close : ℕ}

/-- The closing brace of a block that a path leads to, as it is read. -/
theorem exists_braceAt_of_blockAt {path : List Str} (hroot : parseVdf text = .ok root)
    (h : blockAt path root = some (children, close)) :
    ∃ before after plug line indent rest,
      Surrounds path (Node.trees root) (Node.trees children) before after plug ∧
      BraceAt text close (before ++ flatten (Node.trees children)) after line indent rest := by
  obtain ⟨tokens, htokens, hreads⟩ := exists_reads_of_parseVdf hroot
  obtain ⟨before, inner, after, plug, rfl, hchildren, hsurrounds⟩ := exists_surrounds hreads h
  rw [← List.append_assoc] at htokens
  obtain ⟨line, indent, rest, hbrace⟩ := exists_braceAt htokens
  rw [List.map_append, hchildren.lexemes] at hbrace
  exact ⟨_, _, plug, line, indent, rest, hsurrounds, hbrace⟩

theorem setsLaunchOptions_self (hroot : parseVdf text = .ok root) :
    SetsLaunchOptions text (text, old, old) :=
  ⟨_, _, denotation_of_parseVdf hroot, denotation_of_parseVdf hroot, by simp⟩

/-- What it means for a changed value, with the tree that the old text denotes. -/
theorem setsLaunchOptions_iff {text' : Str} (hroot : parseVdf text = .ok root) (hne : new ≠ old) :
    SetsLaunchOptions text (text', old, new) ↔
      ∃ root', denotation text' = some root' ∧ SetAt new optionPath (Node.trees root) root' := by
  unfold SetsLaunchOptions
  simp only [if_neg hne]
  constructor
  · rintro ⟨before, after, hbefore, hafter, hset⟩
    rw [denotation_of_parseVdf hroot] at hbefore
    obtain rfl := Option.some.inj hbefore
    exact ⟨after, hafter, hset⟩
  · rintro ⟨root', hdenotes, hset⟩
    exact ⟨_, root', denotation_of_parseVdf hroot, hdenotes, hset⟩

theorem optionPath_eq : optionPath = appsPath ++ [appId] ++ [launchOptionsKey] := rfl

/-- A value that is there is replaced in place. -/
theorem setsLaunchOptions_value {key : Str} {start stop : ℕ} (hroot : parseVdf text = .ok root)
    (happ : blockAt (appsPath ++ [appId]) root = some (app, appClose))
    (hoption : child launchOptionsKey app = some (.string key start stop old)) (hne : new ≠ old) :
    SetsLaunchOptions text
      (text.take start ++ 34 :: escape new ++ 34 :: text.drop stop, old, new) := by
  rw [setsLaunchOptions_iff hroot hne]
  obtain ⟨tokens, htokens, hreads⟩ := exists_reads_of_parseVdf hroot
  obtain ⟨before, inner, after, plug, rfl, hinner, hsurrounds⟩ := exists_surrounds hreads happ
  obtain ⟨front, back, rfl, hkey, hmissing⟩ := exists_of_child hoption
  obtain ⟨frontTokens, tokens, rfl, hfront, hback⟩ := exists_of_reads_append hinner
  cases hback with
  | @string _ start' stop' _ _ _ _ backTokens hback =>
  -- the token of the value, among those before and after it
  have hsplit : before ++ ((frontTokens ++ .string start' stop' key :: .string start stop old ::
      backTokens) ++ .closeBrace appClose :: after) =
        (before ++ frontTokens ++ [.string start' stop' key]) ++ .string start stop old ::
          (backTokens ++ .closeBrace appClose :: after) := by
    simp
  rw [hsplit] at htokens
  obtain ⟨head, value, rest, rfl, hat⟩ := exists_tokenAt htokens
  obtain ⟨hstart, hstop⟩ : start = head.length ∧ stop = head.length + value.length := by
    obtain ⟨found, hfound⟩ := hat.offsets
    cases found with
    | string raw =>
      simp only [Match.tokens, Nat.zero_add, List.cons.injEq, Token.string.injEq] at hfound
      exact ⟨hfound.1.1.symm, hfound.1.2.1.symm⟩
    | skipped | openBrace | closeBrace => cases hfound
  -- so the splice replaces that token and nothing else
  have htext : (head ++ (value ++ rest)).take start ++ 34 :: escape new ++
      34 :: (head ++ (value ++ rest)).drop stop = head ++ (34 :: (escape new ++ [34]) ++ rest) := by
    rw [hstop, ← List.append_assoc head, ← List.length_append, List.drop_left, List.append_assoc head,
      hstart, List.take_left]
    simp
  rw [htext]
  refine ⟨plug (Node.trees front ++ .string key new :: Node.trees back), ?_, ?_⟩
  · rw [denotation_eq_some, Transducer.read_append hat.run_front,
      Transducer.read_append (run_quoted new), hat.read_rest, hsurrounds.flatten_plug,
      flatten_append, flatten, ← hfront.lexemes, ← hback.lexemes]
    simp [Token.lexeme]
  · rw [optionPath_eq, hsurrounds.setAt (by simp)]
    refine ⟨_, rfl, ?_⟩
    rw [trees_append, Node.trees, setAt_append hmissing hkey]
    exact ⟨_, rfl, (setAt_string hkey).mpr ⟨rfl, rfl⟩⟩

/-- A value is added right exactly if the text goes on as before after its line. -/
theorem setsLaunchOptions_option_iff (hroot : parseVdf text = .ok root)
    (happ : blockAt (appsPath ++ [appId]) root = some (app, appClose))
    (hoption : child launchOptionsKey app = none) (hne : new ≠ []) :
    SetsLaunchOptions text (spliceLine text appClose optionLine new, [], new) ↔
      lexemes (text.drop (lineStart text appClose)) = lexemes (text.drop appClose) := by
  obtain ⟨before, after, plug, line, indent, rest, hsurrounds, hbrace⟩ :=
    exists_braceAt_of_blockAt hroot happ
  have htext : spliceLine text appClose optionLine new =
      (line ++ indent) ++ (quotedLine (py "\t\"LaunchOptions\"\t\t") new ++ (indent ++ rest)) := by
    rw [spliceLine, hbrace.take_start, hbrace.depthIndent_eq, hbrace.drop_start, optionLine,
      quotedLine]
    simp [py]
  have hkey : reader.run .plain (py "\t\"LaunchOptions\"\t\t") =
      some ([.string launchOptionsKey], .plain) := by
    decide +kernel
  have hread : reader.read .plain (spliceLine text appClose optionLine new) =
      ((reader.read .plain (indent ++ rest)).map (.string new :: ·)).map
        (before ++ (flatten (Node.trees app) ++ [.string launchOptionsKey]) ++ ·) := by
    rw [htext, Transducer.read_append hbrace.run_front,
      Transducer.read_append (run_quotedLine hkey new), Option.map_map, Option.map_map]
    congr 1
    funext more
    simp
  have hmissing := ne_of_child_eq_none hoption
  have hentry : flatten [.string launchOptionsKey new] =
      .string launchOptionsKey :: [.string new] := by
    simp [flatten]
  rw [setsLaunchOptions_iff hroot hne, lexemes_eq_read, lexemes_eq_read, hbrace.drop_start,
    hbrace.drop_close, hbrace.read_rest, optionPath_eq,
    setAt_iff_of_read hsurrounds (by simp) hmissing (fun _ => setAt_missing hmissing) hentry hread]
  simp

/-- A block is added right exactly if its indentation is whitespace. -/
theorem setsLaunchOptions_block_iff (hroot : parseVdf text = .ok root)
    (happs : blockAt appsPath root = some (apps, appsClose))
    (happ : child appId apps = none) (hne : new ≠ []) :
    SetsLaunchOptions text (spliceLine text appsClose appBlock new, [], new) ↔
      ∀ c ∈ depthIndent text appsClose, isSpace c := by
  obtain ⟨before, after, plug, line, indent, rest, hsurrounds, hbrace⟩ :=
    exists_braceAt_of_blockAt hroot happs
  have htext : spliceLine text appsClose appBlock new = (line ++ indent) ++
      ((py "\t\"" ++ appId ++ py "\"\n") ++
        blockLines indent (py "\t\t\"LaunchOptions\"\t\t") new rest) := by
    rw [spliceLine, hbrace.take_start, hbrace.depthIndent_eq, hbrace.drop_start, appBlock,
      blockLines, quotedLine]
    simp [py]
  have happKey : reader.run .plain (py "\t\"" ++ appId ++ py "\"\n") =
      some ([.string appId], .plain) := by
    decide +kernel
  have hkey : reader.run .plain (py "\t\t\"LaunchOptions\"\t\t") =
      some ([.string launchOptionsKey], .plain) := by
    decide +kernel
  -- the reader is through with the front and with the app's name when it comes to the new block
  have hread : reader.read .plain (spliceLine text appsClose appBlock new) =
      (reader.read .plain (blockLines indent (py "\t\t\"LaunchOptions\"\t\t") new rest)).map
        (before ++ (flatten (Node.trees apps) ++ [.string appId]) ++ ·) := by
    rw [htext, Transducer.read_append hbrace.run_front, Transducer.read_append happKey,
      Option.map_map]
    congr 1
    funext more
    simp
  have hmissing := ne_of_child_eq_none happ
  have hentry : flatten [.block appId [.string launchOptionsKey new]] =
      .string appId :: [.openBrace, .string launchOptionsKey, .string new, .closeBrace] := by
    simp [flatten]
  have hname : launchOptionsKey.head? = some 76 ∧ 10 ∉ launchOptionsKey := by decide
  have hnewline : ∀ c ∈ py "\t\t\"LaunchOptions\"\t\t", c ≠ 10 := by decide
  rw [setsLaunchOptions_iff hroot hne, hbrace.depthIndent_eq, optionPath,
    setAt_iff_of_read hsurrounds (by simp) hmissing (fun _ => setAt_missing_block hmissing) hentry
      hread]
  constructor
  · intro h
    obtain ⟨head, mode, tail, hline, hindent, -⟩ := Transducer.exists_of_run_append hbrace.run_front
    exact isSpace_of_read_blockLines hname hnewline hkey hbrace.line_eq hbrace.indent_ne hline
      hindent hbrace.read_rest h
  · intro h
    have hindent := run_spaces h
    have hopen : reader.run .plain [9, 123, 10] = some ([.openBrace], .plain) := rfl
    have hclose : reader.run .plain [9, 125, 10] = some ([.closeBrace], .plain) := rfl
    rw [blockLines, Transducer.read_append_silent hindent, Transducer.read_append hopen,
      Transducer.read_append_silent hindent, Transducer.read_append (run_quotedLine hkey new),
      Transducer.read_append_silent hindent, Transducer.read_append hclose,
      Transducer.read_append_silent hindent, hbrace.read_rest]
    rfl

/-- Beside a value in the place of the app's block nothing can be set right. -/
theorem not_setsLaunchOptions_of_string {key text' value : Str} {start stop : ℕ}
    (hroot : parseVdf text = .ok root) (happs : blockAt appsPath root = some (apps, appsClose))
    (happ : child appId apps = some (.string key start stop value)) (hne : new ≠ old) :
    ¬ SetsLaunchOptions text (text', old, new) := by
  rw [setsLaunchOptions_iff hroot hne]
  rintro ⟨root', -, hset⟩
  obtain ⟨before, after, plug, -, -, -, hsurrounds, -⟩ := exists_braceAt_of_blockAt hroot happs
  obtain ⟨front, back, rfl, hkey, hmissing⟩ := exists_of_child happ
  obtain ⟨children', -, hset⟩ := (hsurrounds.setAt (by simp)).mp hset
  rw [trees_append, Node.trees, setAt_append hmissing hkey] at hset
  obtain ⟨back', -, hset⟩ := hset
  exact absurd ((setAt_string hkey).mp hset).1 (by simp)

/-- A configuration on a single line. -/
def singleLine : Str :=
  py "\"UserLocalConfigStore\"\x7b\"Software\"\x7b\"Valve\"\x7b\"Steam\"\x7b\"apps\"\x7b"
    ++ py "\"1086940\"\x7b\x7d\x7d\x7d\x7d\x7d\x7d"

/-- Everything before the app's closing brace is taken for its indentation, and the result is not
even accepted. -/
theorem singleLine_not_setsLaunchOptions :
    ∃ result, setLaunchOptions singleLine (fun _ => py "bg3le-launch %command%") = .ok result ∧
      ¬ SetsLaunchOptions singleLine result := by
  refine ⟨(spliceLine singleLine 67 optionLine (py "bg3le-launch %command%"), [],
    py "bg3le-launch %command%"), by decide +kernel, ?_⟩
  rintro ⟨before, after, -, hafter, -⟩
  have hnone : ( denotation (spliceLine singleLine 67 optionLine
      (py "bg3le-launch %command%"))).isNone := by
    decide +kernel
  rw [hafter] at hnone
  cases hnone

/-- When setting the launch options keeps the rest of the configuration. -/
theorem setLaunchOptions_setsLaunchOptions_iff (text : Str) (transform : Str → Str)
    (result : Str × Str × Str) (h : setLaunchOptions text transform = .ok result) :
    SetsLaunchOptions text result ↔ KeepsTree text transform := by
  obtain ⟨root, apps, appsClose, hroot, happs, hset⟩ := exists_apps_of_ok h
  have hblock : appsBlock text = some (apps, appsClose) := by
    rw [appsBlock, hroot]
    exact happs
  unfold KeepsTree
  rw [hblock]
  simp only
  unfold setInApps at hset
  split at hset
  · next key app appClose happ =>
    -- the game has a block: its option is replaced, or added to the block
    have hpath : blockAt (appsPath ++ [appId]) root = some (app, appClose) := by
      rw [blockAt_append happs (by simp), blockAt, happ]
      simp
    rw [happ]
    simp only
    split at hset
    · next optionKey start stop old hoption =>
      rw [hoption]
      simp only [Option.isSome_some, true_or, iff_true]
      dsimp only at hset
      split at hset
      · next heq =>
        obtain rfl := Except.ok.inj hset
        rw [heq]
        exact setsLaunchOptions_self hroot
      · next hne =>
        obtain rfl := Except.ok.inj hset
        exact setsLaunchOptions_value hroot hpath hoption hne
    · cases hset
    · next hoption =>
      rw [hoption]
      simp only [Option.isSome_none, Bool.false_eq_true, false_or]
      dsimp only at hset
      split at hset
      · next heq =>
        obtain rfl := Except.ok.inj hset
        rw [heq]
        simpa using setsLaunchOptions_self hroot
      · next hne =>
        obtain rfl := Except.ok.inj hset
        simpa [hne] using setsLaunchOptions_option_iff hroot hpath hoption hne
  -- the game has no block: one is added, which a string of that name would hide
  · next happ =>
    dsimp only at hset
    split at hset
    · next heq =>
      obtain rfl := Except.ok.inj hset
      rw [heq]
      simp only [setsLaunchOptions_self hroot, true_iff]
      split
      · next hblock => exact absurd hblock (happ _ _ _)
      · trivial
      · simp
    · next hne =>
      obtain rfl := Except.ok.inj hset
      cases hchild : child appId apps with
      | none => simpa [hne] using setsLaunchOptions_block_iff hroot happs hchild hne
      | some node =>
        cases node with
        | block key app appClose => exact absurd hchild (happ key app appClose)
        | string key start stop value =>
          simpa [hne] using not_setsLaunchOptions_of_string hroot happs hchild hne

/-- A configuration as Steam lays it out, with these lines in its apps block. -/
def steamLayout (apps : Str) : Str :=
  py "\"UserLocalConfigStore\"\n\x7b\n\t\"Software\"\n\t\x7b\n\t\t\"Valve\"\n\t\t\x7b\n" ++
    py "\t\t\t\"Steam\"\n\t\t\t\x7b\n\t\t\t\t\"apps\"\n\t\t\t\t\x7b\n" ++ apps ++
    py "\t\t\t\t\x7d\n\t\t\t\x7d\n\t\t\x7d\n\t\x7d\n\x7d\n"

/-- The app has launch options. -/
def withOptions : Str :=
  steamLayout (py "\t\t\t\t\t\"1086940\"\n\t\t\t\t\t\x7b\n" ++
    py "\t\t\t\t\t\t\"LaunchOptions\"\t\t\"mangohud %command%\"\n" ++
    py "\t\t\t\t\t\t\"LastPlayed\"\t\t\"1\"\n\t\t\t\t\t\x7d\n")

/-- The app has a block without any. -/
def withoutOptions : Str :=
  steamLayout (py "\t\t\t\t\t\"1086940\"\n\t\t\t\t\t\x7b\n" ++
    py "\t\t\t\t\t\t\"LastPlayed\"\t\t\"1\"\n\t\t\t\t\t\x7d\n")

/-- The app has no block; another one does. -/
def withoutApp : Str :=
  steamLayout (py "\t\t\t\t\t\"570\"\n\t\t\t\t\t\x7b\n\t\t\t\t\t\x7d\n")

def wrapped (old : Str) : Str := py "bg3le-launch " ++ old

/-- The three splices: the value replaced, its line added, and the app's block added. -/
theorem setLaunchOptions_setsLaunchOptions_splices :
    (∃ result, setLaunchOptions withOptions wrapped = .ok result ∧ result.1 ≠ withOptions ∧
        SetsLaunchOptions withOptions result) ∧
      (∃ result, setLaunchOptions withoutOptions wrapped = .ok result ∧
        result.1 ≠ withoutOptions ∧ SetsLaunchOptions withoutOptions result) ∧
      ∃ result, setLaunchOptions withoutApp wrapped = .ok result ∧ result.1 ≠ withoutApp ∧
        SetsLaunchOptions withoutApp result := by
  have hset (text : Str) (hkeeps : KeepsTree text wrapped)
      (hdone : ((setLaunchOptions text wrapped).toOption.any fun result => result.1 ≠ text) = true) :
      ∃ result, setLaunchOptions text wrapped = .ok result ∧ result.1 ≠ text ∧
        SetsLaunchOptions text result := by
    cases hok : setLaunchOptions text wrapped with
    | error e =>
      rw [hok] at hdone
      cases hdone
    | ok result =>
      rw [hok] at hdone
      exact ⟨result, rfl, of_decide_eq_true hdone,
        (setLaunchOptions_setsLaunchOptions_iff text wrapped result hok).mpr hkeeps⟩
  refine ⟨hset withOptions ?_ ?_, hset withoutOptions ?_ ?_, hset withoutApp ?_ ?_⟩
  all_goals decide +kernel

end Install
end Bg3le
