import ApiCodegen.Settings.Basic
import ApiCodegen.Tool.Process

/-!
# Formatting files

The formatters of a target are tried in turn until one succeeds. Formatting never fails a run.

* `format`: formats files.
-/

namespace ApiCodegen.Tool

open File

/-- The remark that files stay as they are. -/
structure FormatWarning where
  target : Target
  message : String
  deriving DecidableEq

/-- The text of a remark. -/
def FormatWarning.text (w : FormatWarning) : String := w.target.label ++ ": " ++ w.message

/-- What became of files. -/
inductive FormatOutcome where
  | formatted (command : String)
  | noFiles
  | skipped (warning : FormatWarning)
  deriving DecidableEq

/-- What became of an attempt: it succeeded, or it is described for the remark. -/
def attempt (programs : Programs) (directory : String) (files : List String) (i : Invocation)
    (tree : Tree) : Option String × Tree :=
  let unavailable : Option String × Tree := (some ("`" ++ i.text ++ "` is not available"), tree)
  match tree.directory? directory with
  | none => unavailable
  | some dir =>
    match programs i files { tree with workDir := dir } with
    | none => unavailable
    | some (ending, after) =>
      let after := { after with workDir := tree.workDir }
      if ending.isSuccess then (none, after)
      else (some ("`" ++ i.text ++ "` exited with " ++ ending.text), after)

/-- Tries formatters in turn. The result is the first that succeeds, or all that was tried. -/
def firstWorking (programs : Programs) (directory : String) (files : List String)
    (tried : List String) (tree : Tree) : List Invocation → Except (List String) Invocation × Tree
  | [] => (.error tried, tree)
  | i :: more =>
    match attempt programs directory files i tree with
    | (none, tree) => (.ok i, tree)
    | (some remark, tree) => firstWorking programs directory files (tried ++ [remark]) tree more

/-- The wording of a remark on attempts. -/
def unformatted (tried : List String) : String :=
  let reason := if tried.isEmpty then "no formatter configured" else String.intercalate ", " tried
  reason ++ "; output left unformatted"

/-- Formats files in a directory. -/
def format (programs : Programs) (target : Target) (commands : List Invocation)
    (files : List String) (directory : String) (tree : Tree) : FormatOutcome × Tree :=
  if files.isEmpty then (.noFiles, tree)
  else
    match firstWorking programs directory files [] tree commands with
    | (.ok i, tree) => (.formatted i.text, tree)
    | (.error tried, tree) => (.skipped ⟨target, unformatted tried⟩, tree)

end ApiCodegen.Tool
