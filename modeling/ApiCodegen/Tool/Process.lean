import ApiCodegen.File.Tree

/-!
# Programs

* `Invocation`: a program and its leading arguments.
* `Exit`: how a program ends.
* `Programs`: what the programs of a system do.
-/

namespace ApiCodegen.Tool

open File

/-- A program and its leading arguments. -/
structure Invocation where
  program : String
  args : List String
  deriving DecidableEq

/-- The text of an invocation. -/
def Invocation.text (i : Invocation) : String := String.intercalate " " (i.program :: i.args)

/-- How a program ends: with a status, or by a signal. -/
inductive Exit where
  | status (code : Nat)
  | signal (number : Nat)
  deriving DecidableEq

/-- The names of the signals, from number one. -/
def signalNames : List String := [
  "HUP", "INT", "QUIT", "ILL", "TRAP", "ABRT", "BUS", "FPE", "KILL", "USR1", "SEGV", "USR2",
  "PIPE", "ALRM", "TERM", "STKFLT", "CHLD", "CONT", "STOP", "TSTP", "TTIN", "TTOU", "URG",
  "XCPU", "XFSZ", "VTALRM", "PROF", "WINCH", "IO", "PWR", "SYS"]

/-- The name of a signal. -/
def signalName? (number : Nat) : Option String :=
  if number = 0 then none else signalNames[number - 1]?

namespace Exit

/-- Whether a program ended well. -/
def isSuccess (e : Exit) : Bool := e == .status 0

/-- The text of an ending. -/
def text : Exit → String
  | .status code => "exit status: " ++ toString code
  | .signal number =>
    match signalName? number with
    | some name => "signal: " ++ toString number ++ " (SIG" ++ name ++ ")"
    | none => "signal: " ++ toString number

end Exit

/-- What the programs of a system do: an invocation with further arguments, in the working
directory of a tree, ends and leaves a tree. It is none if there is no such program. -/
abbrev Programs := Invocation → List String → Tree → Option (Exit × Tree)

/-- A system without programs. -/
def noPrograms : Programs := fun _ _ _ => none

end ApiCodegen.Tool
