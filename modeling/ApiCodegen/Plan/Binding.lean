import ApiCodegen.Warning

/-!
# Service bindings

Which service function an operation calls.

* `BindingTable`: bindings with distinct operation identifiers.
* `BindingTable.validate`: remarks on unused bindings; unbound operations are remarked on or
  refused.
* `BindingTable.body`: what the handler of an operation does.
-/

namespace ApiCodegen

/-- Bindings with distinct operation identifiers. -/
structure BindingTable where
  entries : List Binding
  distinct : (entries.map Binding.operationId).Nodup

/-- What a handler does: it calls a service function, or says that nothing is implemented. -/
inductive Body where
  | delegate (binding : Binding) (passRequest : Bool)
  | stub
  deriving DecidableEq

/-- The first identifier that occurs again after an equal one. -/
def firstRepeated? (seen : List String) : List Binding → Option String
  | [] => none
  | b :: more =>
    if b.operationId ∈ seen then some b.operationId
    else firstRepeated? (seen ++ [b.operationId]) more

theorem nodup_of_firstRepeated?_eq_none {seen : List String} {bindings : List Binding}
    (hs : seen.Nodup) (h : firstRepeated? seen bindings = none) :
    (seen ++ bindings.map Binding.operationId).Nodup := by
  induction bindings generalizing seen with
  | nil => simpa using hs
  | cons b more ih =>
    unfold firstRepeated? at h
    split at h
    · cases h
    · rename_i hb
      have hn : (seen ++ [b.operationId]).Nodup :=
        List.nodup_append.2 ⟨hs, by simp, by
          intro a ha c hc hac
          rw [List.mem_singleton] at hc
          exact hb (hc ▸ hac ▸ ha)⟩
      simpa using ih hn h

namespace BindingTable

/-- The built-in bindings. -/
def builtin : BindingTable where
  entries := [
    ⟨"get_weather", "app.services.external.get_weather_impl", "get_weather_impl"⟩,
    ⟨"get_random_quote", "app.services.external.get_random_quote_impl", "get_random_quote_impl"⟩]
  distinct := by decide

/-- The table of some bindings. An identifier that is bound twice is refused. -/
def ofList (bindings : List Binding) : Except Failure BindingTable :=
  match h : firstRepeated? [] bindings with
  | some id => .error (.settings (.boundTwice id))
  | none => .ok ⟨bindings, by simpa using nodup_of_firstRepeated?_eq_none List.nodup_nil h⟩

/-- The table that settings ask for. -/
def ofSettings (bindings : Option (List Binding)) : Except Failure BindingTable :=
  match bindings with
  | some bindings => ofList bindings
  | none => .ok builtin

/-- The binding of an operation. -/
def get? (table : BindingTable) (id : String) : Option Binding :=
  table.entries.find? fun b => b.operationId = id

/-- The identifiers without a binding, in order. -/
def unbound (table : BindingTable) (ids : List String) : List String :=
  ids.filter fun id => (table.get? id).isNone

/-- The bound identifiers that are none of the given ones, in order. -/
def unmatched (table : BindingTable) (ids : List String) : List String :=
  (table.entries.map Binding.operationId).filter fun id => id ∉ ids

/-- Checks the identifiers of all operations against the table. -/
def validate (table : BindingTable) (policy : BindingPolicy) (ids : List String) : Reported Unit :=
  let remarks := (table.unmatched ids).map Warning.unmatchedBinding
  match policy with
  | .lenient => .warn (remarks ++ (table.unbound ids).map Warning.unboundOperation)
  | .strict =>
    match table.unbound ids with
    | [] => .warn remarks
    | unbound => ⟨remarks, .error (.unboundOperations unbound)⟩

/-- What the handler of an operation does. -/
def body (table : BindingTable) (id : String) (hasRequest : Bool) : Body :=
  match table.get? id with
  | some binding => .delegate binding hasRequest
  | none => .stub

end BindingTable

end ApiCodegen
