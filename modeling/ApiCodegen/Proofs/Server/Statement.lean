import ApiCodegen.Proofs.Plan.Segment
import ApiCodegen.Proofs.Server.Definitions

/-!
# What the router file does with its routers

The file is read line by line, as it is written: which routers it defines, on which of them it registers
handlers, and which of them it includes in the aggregate router. Whatever is indented stands inside a
handler and is passed over.

* `statement?`: what a line does with a router.
* `RouterFile.statements`: what the file does, in order.
* `RouterFile.routers`: the names that it defines.
* `RouterFile.statements_eq`: **first all of them are defined, then all handlers are registered, and then
  the groups are included.**
-/

namespace ApiCodegen.Server

variable {name line : String} {c : Char} {rest : List Char}

/-- What a file does with a router. -/
inductive RouterStatement where
  | defines (router : String)
  | registers (router : String)
  | includes (router : String)
  deriving DecidableEq

/-- The word at the start of a text. -/
def leadingWord (cs : List Char) : String := String.ofList (cs.takeWhile Name.isWordChar)

/-- What a line of a file does with a router. A keyword is no name. -/
def statement? (line : String) : Option RouterStatement :=
  let cs := line.toList
  let word := leadingWord cs
  let rest := cs.dropWhile Name.isWordChar
  if cs.head? = some '@' then some (.registers (leadingWord cs.tail))
  else if word ∈ Name.serverReserved then none
  else if (behind? " = APIRouter(".toList rest).isSome then some (.defines word)
  else if word = aggregateVariable then
    (behind? ".include_router(".toList rest).map fun argument => .includes (leadingWord argument)
  else none

/-! ## Lines -/

/-- A word goes up to the first character that is no part of one. -/
theorem leadingWord_append (hname : ∀ d ∈ name.toList, Name.isWordChar d)
    (hc : Name.isWordChar c = false) (rest : List Char) :
    leadingWord (name.toList ++ c :: rest) = name ∧
      (name.toList ++ c :: rest).dropWhile Name.isWordChar = c :: rest := by
  have htake : (c :: rest).takeWhile Name.isWordChar = [] := by
    rw [List.takeWhile_cons_of_neg (by simp [hc])]
  have hdrop : (c :: rest).dropWhile Name.isWordChar = c :: rest := by
    rw [List.dropWhile_cons_of_neg (by simp [hc])]
  constructor
  · rw [leadingWord, List.takeWhile_append_of_pos hname, htake, List.append_nil, String.ofList_toList]
  · rw [List.dropWhile_append_of_pos hname, hdrop]

/-- Where a line starts with a name, it is no decorator. -/
theorem head?_of_isIdentifier (h : Name.isIdentifier name.toList) (rest : List Char) :
    (name.toList ++ rest).head? ≠ some '@' := by
  obtain ⟨hne, -, hall⟩ := Name.isIdentifier_iff.1 h
  rw [List.head?_append_of_ne_nil _ hne]
  intro hat
  have hword := hall '@' (List.mem_of_head? hat)
  revert hword
  decide

theorem statement?_routerLine (h : Name.Legal Name.serverReserved name) (arguments : List String) :
    statement? (routerLine name arguments) = some (.defines name) := by
  obtain ⟨hident, hreserved⟩ := h
  have hall := (Name.isIdentifier_iff.1 hident).2.2
  have htext : (routerLine name arguments).toList =
      name.toList ++ ' ' :: ("= APIRouter(".toList ++ (String.intercalate ", " arguments ++ ")").toList) := by
    simp [routerLine]
  obtain ⟨hword, hrest⟩ := leadingWord_append hall (c := ' ') (by decide)
    ("= APIRouter(".toList ++ (String.intercalate ", " arguments ++ ")").toList)
  have hbehind : behind? " = APIRouter(".toList (' ' :: ("= APIRouter(".toList ++
      (String.intercalate ", " arguments ++ ")").toList)) =
        some (String.intercalate ", " arguments ++ ")").toList := behind?_eq_some.2 rfl
  simp only [statement?, htext, hword, hrest, hbehind]
  rw [if_neg (head?_of_isIdentifier hident _), if_neg hreserved]
  rfl

theorem statement?_decorator {h : Handler} (hrouter : Name.isIdentifier h.router.toList) :
    statement? h.decorator = some (.registers h.router) := by
  have hall := (Name.isIdentifier_iff.1 hrouter).2.2
  obtain ⟨rest, htext⟩ : ∃ rest, h.decorator.toList = '@' :: (h.router.toList ++ '.' :: rest) := by
    simp [Handler.decorator]
  have hword := (leadingWord_append hall (c := '.') (by decide) rest).1
  simp [statement?, htext, hword]

theorem statement?_include (hname : ∀ d ∈ name.toList, Name.isWordChar d) :
    statement? (aggregateVariable ++ ".include_router(" ++ name ++ ")") = some (.includes name) := by
  have htext : (aggregateVariable ++ ".include_router(" ++ name ++ ")").toList =
      aggregateVariable.toList ++ '.' :: ("include_router(".toList ++ (name.toList ++ ')' :: [])) := by
    simp
  have haggregate : Name.isIdentifier aggregateVariable.toList := by decide
  obtain ⟨hword, hrest⟩ := leadingWord_append (Name.isIdentifier_iff.1 haggregate).2.2 (c := '.')
    (by decide) ("include_router(".toList ++ (name.toList ++ ')' :: []))
  have hargument := (leadingWord_append hname (c := ')') (by decide) []).1
  have hbehind : behind? ".include_router(".toList
      ('.' :: ("include_router(".toList ++ (name.toList ++ ')' :: []))) =
        some (name.toList ++ ')' :: []) := behind?_eq_some.2 rfl
  have hother : behind? " = APIRouter(".toList
      ('.' :: ("include_router(".toList ++ (name.toList ++ ')' :: []))) = none := rfl
  have hhead : (aggregateVariable.toList ++ '.' ::
      ("include_router(".toList ++ (name.toList ++ ')' :: []))).head? ≠ some '@' :=
    head?_of_isIdentifier haggregate _
  have hreserved : aggregateVariable ∉ Name.serverReserved := by decide
  simp only [statement?, htext, hword, hrest, hbehind, hother, Option.map_some, hargument]
  rw [if_neg hhead, if_neg hreserved]
  rfl

/-- A statement that starts with a keyword is about no router. -/
theorem statement?_keyword (hword : name ∈ Name.serverReserved)
    (htext : ∃ rest, line.toList = name.toList ++ ' ' :: rest) : statement? line = none := by
  obtain ⟨rest, htext⟩ := htext
  have hall : ∀ w ∈ Name.serverReserved, w.toList.all Name.isWordChar ∧ w.toList.head? ≠ none ∧
      w.toList.head? ≠ some '@' := by decide +kernel
  obtain ⟨hchars, hne, hat⟩ := hall name hword
  obtain ⟨hleading, -⟩ := leadingWord_append (List.all_eq_true.1 hchars) (c := ' ') (by decide) rest
  have hhead : (name.toList ++ ' ' :: rest).head? ≠ some '@' := by
    rwa [List.head?_append_of_ne_nil _ (mt List.head?_eq_none_iff.2 hne)]
  simp only [statement?, htext, hleading]
  rw [if_neg hhead, if_pos hword]

/-- A line inside something: empty or indented. -/
def Inner (line : String) : Prop := line = "" ∨ ∃ rest, line.toList = ' ' :: ' ' :: rest

/-- What stands inside something is passed over. -/
theorem Inner.statement? (h : Inner line) : statement? line = none := by
  rcases h with rfl | ⟨rest, htext⟩
  · decide
  · have hword : leadingWord (' ' :: ' ' :: rest) = "" := by
      rw [leadingWord, List.takeWhile_cons_of_neg (by decide), String.ofList_nil]
    have hrest : (' ' :: ' ' :: rest).dropWhile Name.isWordChar = ' ' :: ' ' :: rest :=
      List.dropWhile_cons_of_neg (by decide)
    have hbehind : behind? " = APIRouter(".toList (' ' :: ' ' :: rest) = none := rfl
    have hempty : "" ∉ Name.serverReserved ∧ "" ≠ aggregateVariable := by decide
    simp only [Server.statement?, htext, hword, hrest, hbehind]
    rw [if_neg (by simp), if_neg hempty.1, if_neg (by simp), if_neg hempty.2]

theorem inner_indented (text : String) : Inner ("    " ++ text) := by
  rw [Inner, String.toList_append]
  exact .inr ⟨_, rfl⟩

/-- A documentation string is indented. -/
theorem inner_docstring {description : String} (h : line ∈ docstring "    " description) :
    Inner line := by
  have hline (cs : List Char) : Inner (docLine "    " cs) := by
    unfold docLine
    split
    · exact .inl rfl
    · exact inner_indented _
  unfold docstring at h
  split at h
  · rw [List.mem_singleton.1 h]
    exact inner_indented _
  · rw [List.mem_singleton.1 h, String.append_assoc, String.append_assoc]
    exact inner_indented _
  · rcases List.mem_cons.1 h with rfl | h
    · rw [String.append_assoc]
      exact inner_indented _
    · rcases List.mem_append.1 h with h | h
      · obtain ⟨cs, -, rfl⟩ := List.mem_map.1 h
        exact hline cs
      · rw [List.mem_singleton.1 h]
        exact inner_indented _

theorem inner_bodyLines {h : Handler} (hline : line ∈ h.bodyLines) : Inner line := by
  cases hcall : h.call with
  | none =>
    rw [Handler.bodyLines_none hcall] at hline
    rw [List.mem_singleton.1 hline]
    exact .inr ⟨_, String.toList_ofList⟩
  | some call =>
    rw [Handler.bodyLines_some hcall] at hline
    simp only [List.mem_cons, List.not_mem_nil, or_false] at hline
    rcases hline with rfl | rfl | rfl | rfl | rfl | rfl
    · exact .inr ⟨_, String.toList_ofList⟩
    · exact inner_indented ("    return await " ++ call.function ++ "(" ++ call.argument.getD "" ++ ")")
    · exact .inr ⟨_, String.toList_ofList⟩
    · exact .inr ⟨_, String.toList_ofList⟩
    · exact .inr ⟨_, String.toList_ofList⟩
    · exact .inr ⟨_, String.toList_ofList⟩

/-! ## The file -/

/-- Lines that are about no router. -/
theorem filterMap_inner {lines : List String} (h : ∀ line ∈ lines, Inner line) :
    lines.filterMap statement? = [] :=
  List.filterMap_eq_nil_iff.2 fun line hline => (h line hline).statement?

theorem filterMap_apart (lines : List String) :
    (ModelsFile.apart lines).filterMap statement? = lines.filterMap statement? := by
  cases lines <;> rfl

/-- A handler is registered once. -/
theorem filterMap_handler {h : Handler} (hrouter : Name.isIdentifier h.router.toList) :
    h.lines.filterMap statement? = [.registers h.router] := by
  have hdef : statement? ("async def " ++ h.name ++ "(" ++ h.parameters ++ ") -> " ++
      h.response.render ++ ":") = none := by
    have hasync : "async" ∈ Name.serverReserved := by decide
    exact statement?_keyword hasync (by simp)
  have hinner : ((h.description.map (docstring "    ")).getD [] ++ h.bodyLines).filterMap
      statement? = [] := by
    refine filterMap_inner fun line hline => ?_
    rcases List.mem_append.1 hline with hdoc | hbody
    · cases hd : h.description with
      | none => simp [hd] at hdoc
      | some d =>
        rw [hd] at hdoc
        exact inner_docstring hdoc
    · exact inner_bodyLines hbody
  rw [Handler.lines, List.filterMap_cons, statement?_decorator hrouter, List.filterMap_cons, hdef, hinner]

namespace RouterFile

variable {file : RouterFile}

/-- What the file does with its routers, line by line. -/
def statements (file : RouterFile) : List RouterStatement := file.lines.filterMap statement?

/-- The names of the routers that the file defines. -/
def routers (file : RouterFile) : List String :=
  file.groups.map GroupRouter.name ++ (file.legacyTags.map fun _ => legacyVariable).toList ++
    [aggregateVariable]

/-- What the file says about its routers, handlers and groups: first all routers are defined, then all
handlers are registered, and then the groups are included. -/
def planned (file : RouterFile) : List RouterStatement :=
  file.routers.map .defines ++ file.handlers.map (fun h => .registers h.router) ++
    file.groups.map fun r => .includes r.name

theorem filterMap_modelImport : file.modelImport.filterMap statement? = [] := by
  unfold modelImport
  split
  · rfl
  · rename_i models
    have hfrom : statement? ("from " ++ file.modelsModule ++ " import (") = none := by
      have hkeyword : "from" ∈ Name.serverReserved := by decide
      exact statement?_keyword hkeyword (by simp)
    have hnames : (file.models.map fun m => "    " ++ m ++ ",").filterMap statement? = [] := by
      refine filterMap_inner fun line hline => ?_
      obtain ⟨m, -, rfl⟩ := List.mem_map.1 hline
      rw [String.append_assoc]
      exact inner_indented _
    have hempty : statement? "" = none := by decide
    have hclose : [")"].filterMap statement? = [] := by decide
    rw [List.filterMap_append, List.filterMap_append, hnames, hclose, List.filterMap_cons, hempty,
      List.filterMap_cons, hfrom]
    rfl

theorem filterMap_services : (file.services.map ServiceImport.line).filterMap statement? = [] := by
  refine List.filterMap_eq_nil_iff.2 fun line hline => ?_
  obtain ⟨s, -, rfl⟩ := List.mem_map.1 hline
  have hkeyword : "from" ∈ Name.serverReserved := by decide
  refine statement?_keyword hkeyword ?_
  unfold ServiceImport.line
  split <;> simp

/-- The routers are defined in order. -/
theorem filterMap_routerLines
    (h : ∀ r ∈ file.groups, Name.Legal Name.serverReserved r.name) :
    file.routerLines.filterMap statement? = file.routers.map .defines := by
  have hgroups : (file.groups.map GroupRouter.line).filterMap statement? =
      (file.groups.map GroupRouter.name).map .defines := by
    rw [List.filterMap_map, List.map_map, ← List.filterMap_eq_map]
    refine List.filterMap_congr fun r hr => ?_
    exact statement?_routerLine (h r hr) _
  have hlegacy : Name.Legal Name.serverReserved legacyVariable := by
    unfold Name.Legal
    decide
  have haggregate : Name.Legal Name.serverReserved aggregateVariable := by
    unfold Name.Legal
    decide
  rw [routerLines, routers, List.filterMap_append, List.filterMap_append, hgroups, List.map_append,
    List.map_append, List.filterMap_cons, statement?_routerLine haggregate]
  cases file.legacyTags with
  | none => rfl
  | some tags =>
    rw [Option.map_some, Option.toList_some, List.filterMap_cons, statement?_routerLine hlegacy]
    rfl

/-- **The file does with its routers what is planned.** -/
theorem statements_eq (hgroups : ∀ r ∈ file.groups, Name.Legal Name.serverReserved r.name)
    (hhandlers : ∀ h ∈ file.handlers, Name.isIdentifier h.router.toList) :
    file.statements = file.planned := by
  have hheader : (header "FastAPI routers generated from the OpenAPI schema." ++
      ["from fastapi import APIRouter, HTTPException, Path"]).filterMap statement? = [] := by
    decide +kernel
  have hregistered : (file.handlers.flatMap fun h => ModelsFile.apart h.lines).filterMap statement? =
      file.handlers.map fun h => .registers h.router := by
    rw [List.filterMap_flatMap, ← List.flatMap_singleton' (file.handlers.map _), List.flatMap_map]
    refine List.flatMap_congr fun h hh => ?_
    rw [filterMap_apart, filterMap_handler (hhandlers h hh)]
  have hincluded : (file.groups.map fun r => aggregateVariable ++ ".include_router(" ++ r.name ++
      ")").filterMap statement? = file.groups.map fun r => .includes r.name := by
    rw [List.filterMap_map, ← List.filterMap_eq_map]
    refine List.filterMap_congr fun r hr => ?_
    exact statement?_include (Name.isIdentifier_iff.1 (hgroups r hr).1).2.2
  have hempty : [""].filterMap statement? = [] := by decide
  unfold statements lines
  simp only [List.filterMap_append] at hheader ⊢
  rw [hheader, filterMap_modelImport, filterMap_services, hempty, filterMap_routerLines hgroups,
    hregistered, filterMap_apart, hincluded]
  rfl

end RouterFile

end ApiCodegen.Server
