import ApiCodegen.Client.Types
import ApiCodegen.Proofs.Client.Comment
import ApiCodegen.Proofs.Client.Literal
import ApiCodegen.Proofs.Client.TypeGrammar
import ApiCodegen.Proofs.Plan.Declaration

/-!
# What the text of a types file declares

The text is read from its tokens on: it is taken apart into statements, and a body into what stands in it.

* `statementEnd`: a statement ends at a semicolon, or behind the braces of a body.
* `Declared`, `declared?`, `declaredIn`: **what is declared in a text.**
* `Declares`: some lines declare something, in front of whatever follows.
* `declares_interfaceLines`, `declares_defaultsLines`: **a body is read as its members, and a constant as
  its entries.**
* `TypesFile.declaredIn_render`: **what the text of a types file declares.**
-/

namespace ApiCodegen.Client

open Markup (Value)
open Text

/-! ## Reading statements -/

/-- A member of an interface, as its key, and whether it may be left out. -/
structure DeclaredMember where
  key : String
  isOptional : Bool
  deriving DecidableEq

/-- What a statement declares. -/
inductive Declared where
  | alias (name : String)
  | interface (name : String) (members : List DeclaredMember)
  /-- A constant object, as its keys with the tokens of their values. -/
  | constant (name : String) (entries : List (String × List Token))
  deriving DecidableEq

/-- A statement ends at a semicolon, or behind the braces of a body. -/
def statementEnd : Stop := fun depth t =>
  if depth = 0 ∧ t = .mark ';' then some []
  else if depth = 1 ∧ t = .mark '\x7d' then some [t]
  else none

/-- A member with its type left out. -/
def member? : List Token → Option DeclaredMember
  | key :: more => (keyOf? key).map fun name => ⟨name, more.head? = some (.mark '?')⟩
  | [] => none

/-- A value behind a key. -/
def keyed? : List Token → Option (String × List Token)
  | key :: .mark ':' :: value => (keyOf? key).map fun name => (name, value)
  | _ => none

/-- What stands between the braces of a statement. -/
def braced (ts : List Token) : List Token :=
  ((ts.dropWhile fun t => t ≠ .mark '\x7b').drop 1).dropLast

/-- What a statement declares. -/
def declared? : List Token → Option Declared
  | .word "export" :: .word "type" :: .word name :: .mark '=' :: _ => some (.alias name)
  | .word "export" :: .word "interface" :: .word name :: more =>
    some (.interface name ((parts (separatedBy ';') 0 (braced more)).filterMap member?))
  | .word "export" :: .word "const" :: .word name :: more =>
    some (.constant name ((parts (separatedBy ',') 0 (braced more)).filterMap keyed?))
  | _ => none

/-- What some tokens declare. -/
def declaredBy (ts : List Token) : List Declared := (parts statementEnd 0 ts).filterMap declared?

/-- **What is declared in a text.** -/
def declaredIn (text : String) : List Declared := declaredBy (fileTokens .client text)

/-! ## Statements -/

variable {ts us head : List Token} {tss : List (List Token)} {t : Token} {b : Bool} {c : Char}

theorem inside_statement (h : Nested false ts) (hbrace : .mark '\x7d' ∉ ts) :
    Inside statementEnd 0 ts := by
  have hquiet : Quiet statementEnd 0 ts := by
    intro t ht d _
    have hsemicolon := h.ne_semicolon ht
    have hclose : t ≠ .mark '\x7d' := fun hclose => hbrace (hclose ▸ ht)
    simp [statementEnd, hsemicolon, hclose]
  exact h.inside hquiet le_rfl

/-- Inside of a body, statements do not end. -/
theorem inside_body (h : Nested false ts) : Inside statementEnd 1 ts := by
  have hquiet : Quiet statementEnd 1 ts := by
    intro t ht d hd
    have hsemicolon := h.ne_semicolon ht
    by_cases hclose : t = .mark '\x7d'
    · subst hclose
      have hinner : isInner (.mark '\x7d') = true := rfl
      have hdeep : d ≠ 0 := by omega
      simp [statementEnd, hinner, hdeep]
    · simp [statementEnd, hsemicolon, hclose]
  exact h.inside hquiet le_rfl

theorem inside_terminated (h : ∀ ts ∈ tss, Nested false ts) (hc : c = ';' ∨ c = ',') :
    Inside statementEnd 1 (tss.flatMap fun ts => ts ++ [Token.mark c]) := by
  have hmark : Inside statementEnd 1 [.mark c] := by
    rcases hc with rfl | rfl <;> exact inside_token rfl rfl
  induction tss with
  | nil => exact inside_nil _ _
  | cons ts tss ih =>
    have hts := inside_body (h ts List.mem_cons_self)
    rw [List.flatMap_cons]
    exact (hts.append hmark).append (ih fun us hus => h us (List.mem_cons_of_mem _ hus))

/-- **A statement with a body.** -/
theorem parts_braces {body : List Token} (hhead : Inside statementEnd 0 head)
    (hbody : Inside statementEnd 1 body) (rest : List Token) :
    parts statementEnd 0 (head ++ .mark '\x7b' :: (body ++ .mark '\x7d' :: rest)) =
      (head ++ .mark '\x7b' :: (body ++ [Token.mark '\x7d'])) :: parts statementEnd 0 rest := by
  have hopen : statementEnd 0 (.mark '\x7b') = none := rfl
  have hclose : statementEnd 1 (.mark '\x7d') = some [.mark '\x7d'] := rfl
  have hdepth : depthBehind 0 (.mark '\x7b') = 1 := rfl
  rw [hhead, parts, hopen]
  simp only [hdepth]
  rw [hbody, parts, hclose]
  simp

theorem braced_append (head body : List Token) (h : .mark '\x7b' ∉ head) :
    braced (head ++ .mark '\x7b' :: (body ++ [Token.mark '\x7d'])) = body := by
  have hhead : ∀ t ∈ head, decide (t ≠ .mark '\x7b') := fun t ht =>
    decide_eq_true fun hopen => h (hopen ▸ ht)
  rw [braced, List.dropWhile_append_of_pos hhead, List.dropWhile_cons_of_neg (by simp)]
  simp

/-- **The definition of a type.** -/
theorem declaredBy_alias (name : String) (h : Nested false ts) (hbrace : .mark '\x7d' ∉ ts)
    (rest : List Token) :
    declaredBy (.word "export" :: .word "type" :: .word name :: .mark '=' :: (ts ++ .mark ';' :: rest)) =
      .alias name :: declaredBy rest := by
  have hnested : Nested false (.word "export" :: .word "type" :: .word name :: .mark '=' :: ts) :=
    .token rfl (.token rfl (.token rfl (.token rfl h)))
  have hinside := inside_statement hnested (by simpa using hbrace)
  have hparts := parts_stop hinside (show statementEnd 0 (.mark ';') = some [] from rfl) rest
  rw [List.append_nil] at hparts
  rw [declaredBy, ← List.cons_append, ← List.cons_append, ← List.cons_append, ← List.cons_append, hparts]
  rfl

/-- **An interface with members that end in semicolons.** -/
theorem declaredBy_interface (name : String) (h : ∀ ts ∈ tss, Nested false ts) (rest : List Token) :
    declaredBy (.word "export" :: .word "interface" :: .word name :: .mark '\x7b' ::
      ((tss.flatMap fun ts => ts ++ [Token.mark ';']) ++ .mark '\x7d' :: rest)) =
      .interface name (tss.filterMap member?) :: declaredBy rest := by
  have hhead : Inside statementEnd 0 [.word "export", .word "interface", .word name] :=
    inside_statement (.token rfl (.token rfl (.token rfl .nil))) (by simp)
  have hparts := parts_braces hhead (inside_terminated h (.inl rfl)) rest
  have hbraced := braced_append [] (tss.flatMap fun ts => ts ++ [Token.mark ';']) List.not_mem_nil
  have hmembers := parts_terminated (c := ';') fun ts hts =>
    (h ts hts).inside ((h ts hts).quiet_semicolon 0) le_rfl
  simp only [List.cons_append, List.nil_append] at hparts hbraced
  rw [declaredBy, hparts, List.filterMap_cons]
  simp only [declared?, hbraced, hmembers]
  simp [declaredBy, member?]

/-- **A constant with entries that end in commas.** -/
theorem declaredBy_constant (name type : String) (h : ∀ ts ∈ tss, Nested false ts) (rest : List Token) :
    declaredBy (.word "export" :: .word "const" :: .word name :: .mark ':' :: .word "Partial" ::
      .mark '<' :: .word type :: .mark '>' :: .mark '=' :: .mark '\x7b' ::
      ((tss.flatMap fun ts => ts ++ [Token.mark ',']) ++ .mark '\x7d' :: .mark ';' :: rest)) =
      .constant name (tss.filterMap keyed?) :: declaredBy rest := by
  have htype : Nested true [.word type] := .singleton rfl
  have hhead : Inside statementEnd 0 (.word "export" :: .word "const" :: .word name :: .mark ':' ::
      .word "Partial" :: .mark '<' :: ([Token.word type] ++ .mark '>' :: [.mark '='])) :=
    inside_statement (.token rfl (.token rfl (.token rfl (.token rfl (.token rfl
      (.brackets (by decide) htype (.token rfl .nil))))))) (by simp)
  have hparts := parts_braces hhead (inside_terminated h (.inr rfl)) (.mark ';' :: rest)
  have hbraced := braced_append [.mark ':', .word "Partial", .mark '<', .word type, .mark '>', .mark '=']
    (tss.flatMap fun ts => ts ++ [Token.mark ',']) (by simp)
  have hentries := parts_terminated (c := ',') fun ts hts =>
    (h ts hts).inside (quiet_comma ts 0) le_rfl
  have hempty : parts statementEnd 0 (.mark ';' :: rest) = [] :: parts statementEnd 0 rest := rfl
  simp only [List.cons_append, List.nil_append] at hparts hbraced
  have hnone : declared? [] = none := rfl
  rw [declaredBy, hparts, hempty, List.filterMap_cons, List.filterMap_cons_none hnone]
  simp only [declared?, hbraced, hentries]
  simp [declaredBy, keyed?]

/-! ## Types -/

namespace TypeExpr

/-- Brackets of types are closed. -/
theorem nested_of_derives {phrase : Phrase} (h : Derives ts phrase) : Nested false ts := by
  induction h with
  | name | text => exact .singleton rfl
  | record =>
    have hargs : Nested true [.word "string", .mark ',', .word "any"] :=
      .token rfl (.comma (.singleton rfl))
    exact .token rfl (hargs.wrap (by decide))
  | parentheses _ ih => exact ih.weaken.wrap (by decide)
  | array _ ih => exact ih.append (Nested.nil.wrap (by decide))
  | one _ ih => exact ih
  | more _ _ ih ihmore => exact ih.append (.token rfl ihmore)

/-- No braces stand in a type. -/
theorem brace_not_mem {phrase : Phrase} (h : Derives ts phrase) : .mark '\x7d' ∉ ts := by
  induction h with
  | name | text | record => simp [recordTail]
  | parentheses _ ih => simpa using ih
  | array _ ih => simpa using ih
  | one _ ih => exact ih
  | more _ _ ih ihmore => simpa using ⟨ih, ihmore⟩

end TypeExpr

/-! ## Lines -/

variable {lines more : List String} {ds es : List Declared} {l : String} {f : String → String}

/-- **Some lines declare something**, in front of whatever follows. -/
def Declares (lines : List String) (ds : List Declared) : Prop :=
  ∃ ts, LinesRead .client lines ts ∧ ∀ rest, declaredBy (ts ++ rest) = ds ++ declaredBy rest

theorem declares_nil (h : LinesRead .client lines []) : Declares lines [] :=
  ⟨[], h, fun _ => rfl⟩

theorem Declares.append (h : Declares lines ds) (hmore : Declares more es) :
    Declares (lines ++ more) (ds ++ es) := by
  obtain ⟨ts, hlines, hts⟩ := h
  obtain ⟨us, hmore, hus⟩ := hmore
  refine ⟨ts ++ us, hlines.append hmore, fun rest => ?_⟩
  rw [List.append_assoc, hts, hus, List.append_assoc]

theorem declares_flatMap {α : Type} {f : α → List String} {g : α → List Declared} {as : List α}
    (h : ∀ a ∈ as, Declares (f a) (g a)) : Declares (as.flatMap f) (as.flatMap g) :=
  flatMap_of_append ⟨[], linesRead_nil, fun _ => rfl⟩ .append h

theorem Declares.declaredIn_eq (h : Declares lines ds) : declaredIn (ofLines lines) = ds := by
  obtain ⟨ts, hlines, hts⟩ := h
  have halone := hts []
  have hnil : declaredBy [] = [] := rfl
  rwa [List.append_nil, hnil, List.append_nil, ← hlines.fileTokens_eq] at halone

/-- What is read wherever it stands is read on a line. -/
theorem linesRead_of_reads (hf : Indents f) (h : Reads .client l.toList ts) :
    LinesRead .client [f l] ts := by
  obtain ⟨n, hn⟩ := hf l
  refine linesRead_singleton fun rest => ?_
  rw [hn, List.append_assoc, newLine, lex_blanks, h _ (separate_newline rest), lex_newline]
  rfl

theorem linesRead_line (h : Reads .client l.toList ts) : LinesRead .client [l] ts :=
  linesRead_of_reads (f := id) indents_id h

/-- A block is read as its head, its lines and its tail. -/
theorem linesRead_block {front tail : String} {vs : List Token}
    (hfront : Reads .client (front ++ "\x7b").toList ts) (hlines : LinesRead .client (lines.map indented) us)
    (htail : Reads .client ("\x7d" ++ tail).toList vs) :
    LinesRead .client (block front lines tail) (ts ++ (us ++ vs)) :=
  (linesRead_line hfront).append (hlines.append (linesRead_line htail))

/-! ## Members -/

namespace Member

variable {m : Member} {members : List Member}

/-- The tokens of a member, without the semicolon. -/
def tokens (m : Member) : List Token :=
  keyToken m.property :: ((if m.isOptional then [Token.mark '?'] else []) ++ .mark ':' :: m.type.written)

/-- A member as it is declared. -/
def declared (m : Member) : DeclaredMember := ⟨m.property, m.isOptional⟩

/-- The default of a member, with its property. -/
def propertyDefault? (m : Member) : Option (String × Value) := m.default?.map fun v => (m.property, v)

/-- The type of a member is that of a schema. -/
def Typed (m : Member) : Prop := ∃ s, m.type = .ofSchema s

theorem typed_ofField (field : Field) : (ofField field).Typed := ⟨field.schema, rfl⟩

theorem member?_tokens (m : Member) : member? m.tokens = some m.declared := by
  rw [tokens, member?, keyOf?_keyToken]
  cases h : m.isOptional <;> simp [declared, h]

theorem Typed.nested (h : m.Typed) : Nested false m.tokens := by
  obtain ⟨s, hs⟩ := h
  have htype : Nested false (.mark ':' :: m.type.written) := by
    rw [hs]
    exact .token rfl (TypeExpr.nested_of_derives (TypeExpr.derives_ofSchema s))
  refine .token (isPlain_keyToken _) ?_
  split
  · exact .token rfl htype
  · exact htype

/-- **The lines of a member are read as the member**, without its comment. -/
theorem Typed.linesRead (h : m.Typed) :
    LinesRead .client (m.lines.map indented) (m.tokens ++ [Token.mark ';']) := by
  obtain ⟨s, hs⟩ := h
  have hline : Reads .client (propertyKey m.property ++ (if m.isOptional then "?" else "") ++ ": " ++
      m.type.render ++ ";").toList (m.tokens ++ [Token.mark ';']) := by
    have htype : Reads .client (':' :: ' ' :: (m.type.chars ++ [';']))
        (.mark ':' :: (m.type.written ++ [Token.mark ';'])) := by
      rw [hs]
      exact .cons_mark (by decide) (.cons_space ((TypeExpr.reads_ofSchema s).append (by decide)
        (.cons_mark (by decide) reads_nil)))
    have hkey := reads_propertyKey m.property
    cases hoptional : m.isOptional with
    | true =>
      have hchars : (propertyKey m.property ++ "?" ++ ": " ++ m.type.render ++ ";").toList =
          (propertyKey m.property).toList ++ '?' :: ':' :: ' ' :: (m.type.chars ++ [';']) := by
        simp [TypeExpr.render]
      rw [if_pos rfl, hchars, tokens, hoptional]
      exact hkey.append (by decide) (.cons_mark (by decide) htype)
    | false =>
      have hchars : (propertyKey m.property ++ "" ++ ": " ++ m.type.render ++ ";").toList =
          (propertyKey m.property).toList ++ ':' :: ' ' :: (m.type.chars ++ [';']) := by
        simp [TypeExpr.render]
      rw [if_neg Bool.false_ne_true, hchars, tokens, hoptional]
      exact hkey.append (by decide) htype
  have hcomment := linesRead_comment indents_indented m.description m.constraints
  rw [lines, List.map_append]
  exact hcomment.append (linesRead_of_reads indents_indented hline)

theorem linesRead_members (h : ∀ m ∈ members, m.Typed) :
    LinesRead .client ((members.flatMap Member.lines).map indented)
      ((members.map tokens).flatMap fun ts => ts ++ [Token.mark ';']) := by
  rw [List.map_flatMap, List.flatMap_map]
  exact linesRead_flatMap fun m hm => (h m hm).linesRead

/-! ## Entries -/

/-- A literal is read as its tokens, wherever it stands. -/
theorem reads_literal (v : Value) : Nested false (Text.tokens .client (literal v)) ∧
    Reads .client (literal v).toList (Text.tokens .client (literal v)) := by
  refine readsClosed_tokens ?_
  rw [literal, String.toList_ofList]
  exact readsClosed_literalChars v

/-- The tokens of an entry, without the comma. -/
def entryTokens (e : String × Value) : List Token :=
  keyToken e.1 :: .mark ':' :: Text.tokens .client (literal e.2)

theorem nested_entryTokens (e : String × Value) : Nested false (entryTokens e) :=
  .token (isPlain_keyToken _) (.token rfl (reads_literal e.2).1)

theorem keyed?_entryTokens (e : String × Value) :
    keyed? (entryTokens e) = some (e.1, Text.tokens .client (literal e.2)) := by
  simp [keyed?, entryTokens, keyOf?_keyToken]

/-- The line of an entry. -/
def entryLine (e : String × Value) : String := propertyKey e.1 ++ ": " ++ literal e.2 ++ ","

theorem filterMap_defaultLine? (members : List Member) :
    members.filterMap defaultLine? = (members.filterMap propertyDefault?).map entryLine := by
  rw [List.map_filterMap]
  refine List.filterMap_congr fun m _ => ?_
  cases hdefault : m.default? <;> simp [defaultLine?, propertyDefault?, entryLine, hdefault]

/-- **The lines of entries are read as the entries.** -/
theorem linesRead_entries (entries : List (String × Value)) :
    LinesRead .client ((entries.map entryLine).map indented)
      ((entries.map entryTokens).flatMap fun ts => ts ++ [Token.mark ',']) := by
  rw [List.map_map, List.map_eq_flatMap, List.flatMap_map]
  refine linesRead_flatMap fun e _ => linesRead_of_reads indents_indented ?_
  have hchars : (entryLine e).toList =
      (propertyKey e.1).toList ++ ':' :: ' ' :: ((literal e.2).toList ++ [',']) := by
    simp [entryLine]
  have hvalue : Reads .client ((literal e.2).toList ++ [',']) _ :=
    (reads_literal e.2).2.append (by decide) (.cons_mark (by decide) reads_nil)
  rw [hchars]
  exact (reads_propertyKey e.1).append (by decide) (.cons_mark (by decide) (.cons_space hvalue))

end Member

/-! ## Declarations -/

/-- The constant of the defaults, as it is declared. -/
def declaredDefaults (name : String) (members : List Member) : List Declared :=
  match members.filterMap Member.propertyDefault? with
  | [] => []
  | entries => [.constant (name ++ "Defaults") (entries.map fun e => (e.1, tokens .client (literal e.2)))]

/-- What is declared for a declaration. -/
def Declared.ofDeclaration (d : Declaration) : List Declared :=
  match d.shape with
  | .alias _ => [.alias d.name]
  | .object fields =>
    .interface d.name (fields.map fun f => (Member.ofField f).declared) ::
      declaredDefaults d.name (fields.map Member.ofField)

namespace TypeDeclaration

variable {name : String} {members : List Member}

/-- **An interface is read as its members.** -/
theorem declares_interfaceLines (hname : Name.isIdentifier name.toList) (h : ∀ m ∈ members, m.Typed) :
    Declares (interfaceLines name members) [.interface name (members.map Member.declared)] := by
  have htss : ∀ ts ∈ members.map Member.tokens, Nested false ts := by
    intro ts hts
    obtain ⟨m, hm, rfl⟩ := List.mem_map.1 hts
    exact (h m hm).nested
  have hdeclared : (members.map Member.tokens).filterMap member? = members.map Member.declared := by
    rw [List.filterMap_map, ← List.filterMap_eq_map]
    exact List.filterMap_congr fun m _ => Member.member?_tokens m
  have hfront : Reads .client ("export interface " ++ name ++ " " ++ "\x7b").toList
      [.word "export", .word "interface", .word name, .mark '\x7b'] := by
    have hchars : ("export interface " ++ name ++ " " ++ "\x7b").toList = "export".toList ++ ' ' ::
        ("interface".toList ++ ' ' :: (name.toList ++ [' ', '\x7b'])) := by
      simp
    have hopen : Reads .client [' ', '\x7b'] [.mark '\x7b'] := .cons_space (.cons_mark (by decide) reads_nil)
    rw [hchars]
    exact .cons_word (by decide) (by decide) (.cons_space (.cons_word (by decide) (by decide)
      (.cons_space (.cons_word hname (by decide) hopen))))
  have hclose : Reads .client ['\x7d'] [.mark '\x7d'] := .cons_mark (by decide) reads_nil
  have hlines : LinesRead .client (interfaceLines name members)
      ([Token.word "export", .word "interface", .word name, .mark '\x7b'] ++
        (((members.map Member.tokens).flatMap fun ts => ts ++ [Token.mark ';']) ++ [Token.mark '\x7d'])) := by
    unfold interfaceLines
    split
    · -- both braces stand on one line
      have hbraces := hfront.append (by decide) hclose
      exact linesRead_line (by simpa using hbraces)
    · exact linesRead_block hfront (Member.linesRead_members h) hclose
  refine ⟨_, hlines, fun rest => ?_⟩
  have hread := declaredBy_interface name htss rest
  rw [hdeclared] at hread
  simpa using hread

/-- **A constant is read as the defaults**, if there are any. -/
theorem declares_defaultsLines (hname : Name.isIdentifier name.toList) (members : List Member) :
    Declares (defaultsLines name members) (declaredDefaults name members) := by
  have hdefaults : Name.isIdentifier (name ++ "Defaults").toList := by
    rw [String.toList_append]
    exact Name.isIdentifier_append hname (List.all_eq_true.1 (by decide))
  have hfront : Reads .client
      ("export const " ++ name ++ "Defaults: Partial<" ++ name ++ "> = " ++ "\x7b").toList
      [.word "export", .word "const", .word (name ++ "Defaults"), .mark ':', .word "Partial", .mark '<',
        .word name, .mark '>', .mark '=', .mark '\x7b'] := by
    have hchars : ("export const " ++ name ++ "Defaults: Partial<" ++ name ++ "> = " ++ "\x7b").toList =
        "export".toList ++ ' ' :: ("const".toList ++ ' ' :: ((name ++ "Defaults").toList ++ ':' :: ' ' ::
          ("Partial".toList ++ '<' :: (name.toList ++ ['>', ' ', '=', ' ', '\x7b'])))) := by
      simp
    have hopen : Reads .client ['>', ' ', '=', ' ', '\x7b'] [.mark '>', .mark '=', .mark '\x7b'] :=
      .cons_mark (by decide)
        (.cons_space (.cons_mark (by decide) (.cons_space (.cons_mark (by decide) reads_nil))))
    have hpartial : Reads .client ("Partial".toList ++ '<' :: (name.toList ++ ['>', ' ', '=', ' ', '\x7b'])) _ :=
      .cons_word (by decide) (by decide) (.cons_mark (by decide) (.cons_word hname (by decide) hopen))
    rw [hchars]
    exact .cons_word (by decide) (by decide) (.cons_space (.cons_word (by decide) (by decide)
      (.cons_space (.cons_word hdefaults (by decide) (.cons_mark (by decide) (.cons_space hpartial))))))
  have htail : Reads .client ("\x7d" ++ ";").toList [.mark '\x7d', .mark ';'] :=
    .cons_mark (by decide) (.cons_mark (by decide) reads_nil)
  have hcons : ∀ entries : List (String × Value), Declares
      ("" :: block ("export const " ++ name ++ "Defaults: Partial<" ++ name ++ "> = ")
        (entries.map Member.entryLine) ";")
      [.constant (name ++ "Defaults") (entries.map fun e => (e.1, tokens .client (literal e.2)))] := by
    intro entries
    have hlines := linesRead_block hfront (Member.linesRead_entries entries) htail
    refine ⟨_, linesRead_empty.append hlines, fun rest => ?_⟩
    have htss : ∀ ts ∈ entries.map Member.entryTokens, Nested false ts := by
      intro ts hts
      obtain ⟨e, -, rfl⟩ := List.mem_map.1 hts
      exact Member.nested_entryTokens e
    have hdeclared : (entries.map Member.entryTokens).filterMap keyed? =
        entries.map fun e => (e.1, tokens .client (literal e.2)) := by
      rw [List.filterMap_map, ← List.filterMap_eq_map]
      exact List.filterMap_congr fun e _ => Member.keyed?_entryTokens e
    have hread := declaredBy_constant (name ++ "Defaults") name htss rest
    rw [hdeclared] at hread
    simpa using hread
  unfold defaultsLines declaredDefaults
  rw [Member.filterMap_defaultLine?]
  cases hentries : members.filterMap Member.propertyDefault? with
  | nil => exact declares_nil linesRead_nil
  | cons e entries => exact hcons (e :: entries)

/-- **The lines of a declared type are read as what it declares.** -/
theorem declares_lines {d : Declaration} (hname : Name.isIdentifier d.name.toList) :
    Declares (ofDeclaration d).lines (Declared.ofDeclaration d) := by
  have hcomment : Declares (comment d.description {}) [] := by
    have hlines := linesRead_comment indents_id d.description {}
    rw [List.map_id] at hlines
    exact declares_nil hlines
  unfold lines Declared.ofDeclaration
  refine hcomment.append ?_
  unfold ofDeclaration
  rcases d.shape with fields | schema
  · have htyped : ∀ m ∈ fields.map Member.ofField, m.Typed := by
      intro m hm
      obtain ⟨f, -, rfl⟩ := List.mem_map.1 hm
      exact Member.typed_ofField f
    have hinterface := declares_interfaceLines hname htyped
    rw [List.map_map] at hinterface
    exact hinterface.append (declares_defaultsLines hname _)
  · have hderives := TypeExpr.derives_ofSchema schema
    have hline : LinesRead .client ["export type " ++ d.name ++ " = " ++ (TypeExpr.ofSchema schema).render ++ ";"]
        (.word "export" :: .word "type" :: .word d.name :: .mark '=' ::
          ((TypeExpr.ofSchema schema).written ++ [Token.mark ';'])) := by
      have hchars : ("export type " ++ d.name ++ " = " ++ (TypeExpr.ofSchema schema).render ++ ";").toList =
          "export".toList ++ ' ' :: ("type".toList ++ ' ' :: (d.name.toList ++ ' ' :: '=' :: ' ' ::
            ((TypeExpr.ofSchema schema).chars ++ [';']))) := by
        simp [TypeExpr.render]
      have htype : Reads .client ((TypeExpr.ofSchema schema).chars ++ [';']) _ :=
        (TypeExpr.reads_ofSchema schema).append (by decide) (.cons_mark (by decide) reads_nil)
      refine linesRead_line ?_
      rw [hchars]
      exact .cons_word (by decide) (by decide) (.cons_space (.cons_word (by decide) (by decide) (.cons_space
        (.cons_word hname (by decide) (.cons_space (.cons_mark (by decide) (.cons_space htype)))))))
    refine ⟨_, hline, fun rest => ?_⟩
    have hread := declaredBy_alias d.name (TypeExpr.nested_of_derives hderives)
      (TypeExpr.brace_not_mem hderives) rest
    simpa using hread

end TypeDeclaration

/-- **What the text of a types file declares.** -/
theorem TypesFile.declaredIn_render {declarations : List Declaration}
    (hnames : ∀ d ∈ declarations, Name.isIdentifier d.name.toList) :
    declaredIn (ofDeclarations declarations).render =
      .alias dateTimeName :: declarations.flatMap Declared.ofDeclaration := by
  have hheader : Declares (header ++ ["", "/** ISO 8601 date-time string */",
      "export type " ++ dateTimeName ++ " = string;"]) [.alias dateTimeName] := by
    have hlines : LinesRead .client (header ++ ["", "/** ISO 8601 date-time string */",
        "export type " ++ dateTimeName ++ " = string;"]) (.word "export" :: .word "type" ::
          .word dateTimeName :: .mark '=' :: ([Token.word "string"] ++ [Token.mark ';'])) := by
      refine linesRead_of_run ?_
      simp only [header, dateTimeName, List.cons_append, List.nil_append, List.flatMap_cons, List.flatMap_nil,
        String.toList_append]
      repeat rw [String.toList_ofList]
      decide +kernel
    exact ⟨_, hlines, declaredBy_alias dateTimeName (.singleton rfl) (by simp)⟩
  have hrest : Declares (declarations.flatMap fun d => "" :: (TypeDeclaration.ofDeclaration d).lines)
      (declarations.flatMap Declared.ofDeclaration) := by
    refine declares_flatMap fun d hd => ?_
    exact (declares_nil linesRead_empty).append (TypeDeclaration.declares_lines (hnames d hd))
  have hall := (hheader.append hrest).declaredIn_eq
  rw [render, lines, ofDeclarations, List.flatMap_map]
  exact hall

end ApiCodegen.Client
