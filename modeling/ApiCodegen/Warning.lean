import ApiCodegen.Failure
import ApiCodegen.Settings.Basic

/-!
# Warnings

What a run remarks on without failing, and computations that collect such remarks.

* `Warning`: the remarks.
* `Reported`: a computation with its remarks, which are kept when it fails.
-/

namespace ApiCodegen

/-- A remark of a run. -/
inductive Warning where
  | undeclaredRequired (property location : String)
  | unresolvedReference (reference location : String)
  | prefixKept (verb : Verb) (path derived group kept : String)
  | duplicateIdentifier (base assigned : String)
  | unmatchedBinding (id : String)
  | unboundOperation (id : String)
  | replacedArtifact (target : Target) (path : String)
  deriving DecidableEq

/-- The wording of a warning. -/
def Warning.message : Warning → String
  | .undeclaredRequired property location =>
    s!"Required property `{property}` is not declared at {location}"
  | .unresolvedReference reference location =>
    s!"Unresolved reference `{reference}` at {location}, using the generic type"
  | .prefixKept verb path derived group kept =>
    s!"{verb.upper} {path} derives prefix '{derived}' but {group} keeps '{kept}'"
  | .duplicateIdentifier base assigned =>
    s!"Duplicate operation identifier '{base}', using '{assigned}'"
  | .unmatchedBinding id => s!"Binding for `{id}` matches no operation in the schema"
  | .unboundOperation id => s!"No service binding for `{id}`; emitting a not-implemented stub"
  | .replacedArtifact target path =>
    s!"{target.label} output {path} replaces an earlier artifact"

/-- The outcome of a computation and the remarks made on the way. -/
structure Reported (α : Type) where
  warnings : List Warning
  outcome : Except Failure α

namespace Reported

variable {α β : Type}

/-- No remarks. -/
def ofExcept (outcome : Except Failure α) : Reported α := ⟨[], outcome⟩

/-- A failure without remarks. -/
def fail (failure : Failure) : Reported α := ⟨[], .error failure⟩

/-- Remarks and nothing else. -/
def warn (warnings : List Warning) : Reported Unit := ⟨warnings, .ok ()⟩

/-- One computation after the other; a failure ends it. -/
def andThen (r : Reported α) (next : α → Reported β) : Reported β :=
  match r.outcome with
  | .ok a => ⟨r.warnings ++ (next a).warnings, (next a).outcome⟩
  | .error failure => ⟨r.warnings, .error failure⟩

instance : Monad Reported where
  pure a := ⟨[], .ok a⟩
  bind := andThen

@[simp] theorem pure_eq (a : α) : (pure a : Reported α) = ⟨[], .ok a⟩ := rfl

@[simp] theorem ok_bind (ws : List Warning) (a : α) (next : α → Reported β) :
    (⟨ws, .ok a⟩ : Reported α) >>= next = ⟨ws ++ (next a).warnings, (next a).outcome⟩ := rfl

@[simp] theorem error_bind (ws : List Warning) (failure : Failure) (next : α → Reported β) :
    (⟨ws, .error failure⟩ : Reported α) >>= next = ⟨ws, .error failure⟩ := rfl

end Reported

end ApiCodegen
