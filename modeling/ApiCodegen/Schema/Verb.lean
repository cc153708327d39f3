/-!
# HTTP verbs

The verbs that have handlers.
-/

namespace ApiCodegen

/-- An HTTP verb. -/
inductive Verb where
  | get
  | post
  | put
  | delete
  | patch
  deriving DecidableEq

namespace Verb

/-- The verb in lower case. -/
def lower : Verb → String
  | .get => "get"
  | .post => "post"
  | .put => "put"
  | .delete => "delete"
  | .patch => "patch"

/-- The verb in upper case. -/
def upper : Verb → String
  | .get => "GET"
  | .post => "POST"
  | .put => "PUT"
  | .delete => "DELETE"
  | .patch => "PATCH"

/-- All verbs. -/
def all : List Verb := [.get, .post, .put, .delete, .patch]

/-- The verb of a key in lower case. -/
def ofKey? (key : String) : Option Verb := all.find? fun verb => verb.lower = key

theorem ofKey?_lower (verb : Verb) : ofKey? verb.lower = some verb := by
  cases verb <;> decide

end Verb

end ApiCodegen
