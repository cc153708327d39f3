import ApiCodegen.Proofs.Client.TypeGrammar
import ApiCodegen.Proofs.Server.TypeGrammar

/-!
# Written types mean what their schemas mean

* `types_read`: **the type of a schema is read as what the schema means**, in both languages.
-/

namespace ApiCodegen

open Text

/-- **The type of a schema is read as what the schema means**, in both languages: its text is a type as a
whole, with one reading, which the reader finds. -/
theorem types_read (s : Schema) :
    let client := tokens .client (Client.TypeExpr.ofSchema s).render
    let server := tokens .server (Server.TypeExpr.ofSchema s).render
    Client.TypeExpr.read client = some (.denoted s) ∧
    (∀ t, Client.TypeExpr.IsType client t ↔ t = .denoted s) ∧
    (∃ t, Server.TypeExpr.read server = some t ∧ Server.TypeExpr.Denotes s t) ∧
    ∀ t, Server.TypeExpr.Derives server (.operand t) ↔ Server.TypeExpr.Denotes s t := by
  intro client server
  have hclient := Client.TypeExpr.isType_ofSchema_iff s
  have hserver := Server.TypeExpr.derives_ofSchema_iff s
  have hdenotes : Server.TypeExpr.Denotes s (.ofSchema s) := Server.TypeExpr.denotes_iff.2 rfl
  refine ⟨?_, hclient, ⟨.ofSchema s, ?_, hdenotes⟩, hserver⟩
  · exact Client.TypeExpr.read_of_isType ((hclient _).2 rfl)
  · exact Server.TypeExpr.read_of_derives ((hserver _).2 hdenotes)

/-- A bar inside a literal is no bar, and brackets behind parentheses belong to the whole union. -/
example : Client.TypeExpr.read (tokens .client "(\"a | b\" | \"c\" | null)[][]") =
    some (.array (.array (.union [.text "a | b", .text "c", .name "null"]))) := by rfl

end ApiCodegen
