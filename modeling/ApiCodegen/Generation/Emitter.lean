import ApiCodegen.Client.Methods
import ApiCodegen.File.Stage
import ApiCodegen.Server.Router
import ApiCodegen.Tool.Process

/-!
# Emitters

* `Emitter`: how the files of a target are rendered and formatted.
* `Emitter.builtin`: the emitters of the two targets.
-/

namespace ApiCodegen.Generation

open File Tool

/-- All that files are rendered from. -/
structure Plan where
  settings : Settings
  declarations : List Declaration
  routes : RoutePlan

/-- How the files of a target are rendered and formatted. -/
structure Emitter where
  target : Target
  render : Plan → Except Failure (List Artifact)
  /-- The formatters to be tried, in order. -/
  commands : List Invocation

namespace Emitter

/-- The server files. -/
def renderServer (plan : Plan) : List Artifact :=
  let options := plan.settings.server
  [⟨options.modelsPath, (Server.ModelsFile.ofDeclarations plan.declarations).render⟩,
    ⟨options.routesPath, (Server.RouterFile.ofPlan options plan.settings.apiPrefix
      plan.declarations plan.routes).render⟩]

/-- The client files. -/
def renderClient (plan : Plan) : List Artifact :=
  let options := plan.settings.client
  [⟨options.typesPath, (Client.TypesFile.ofDeclarations plan.declarations).render⟩,
    ⟨options.clientPath, (Client.ClientFile.ofPlan options plan.routes).render⟩]

/-- The emitter of a target. -/
def builtin : Target → Emitter
  | .python => {
      target := .python
      render := fun plan => .ok (renderServer plan)
      commands := [⟨"poetry", ["run", "ruff", "format"]⟩, ⟨"ruff", ["format"]⟩] }
  | .typeScript => {
      target := .typeScript
      render := fun plan => .ok (renderClient plan)
      commands := [⟨"npx", ["--no-install", "prettier", "--write"]⟩, ⟨"prettier", ["--write"]⟩] }

end Emitter

end ApiCodegen.Generation
