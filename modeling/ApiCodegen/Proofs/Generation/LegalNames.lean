import ApiCodegen.Proofs.Client.PathExpression
import ApiCodegen.Proofs.Name.Case
import ApiCodegen.Proofs.Server.Models

/-!
# Declared names and parameters are identifiers

The name of a component is kept if it is an identifier, and otherwise made of its words. Nothing keeps it from
being a keyword. The parameters of the client are kept from being words that are reserved everywhere, but not from
those that are reserved in modules only.

* `Name.SpellsOut`: texts that are made a name of their only word.
* `Name.declaration_eq_keyword_iff`: **which components have a keyword as the name of their type.**
* `Client.Method.strict_mem_iff`: **which parameters have a name that modules reserve.**
* `legal_names_iff`: both, for all names of the generated files.
-/

namespace ApiCodegen

/-! ## Declared names -/

namespace Name

variable {text keyword : String}

/-- **A text spells out a name**: it is no identifier, and its only word is the name, but for the case of the
first letter. -/
def SpellsOut (text name : String) : Prop :=
  ¬ isIdentifier text.toList ∧ ∃ word, runs Char.isAlphanum text.toList = [word] ∧
    Text.capitalize word = name.toList

/-- Letters of words are in upper case if they come first. -/
theorem capitalize_eq_cons {c : Char} (hc : c.isAlphanum) (rest : List Char) :
    Text.capitalize (c :: rest) = c.toUpper :: rest := by
  rw [Text.capitalize, Text.upper, if_pos (toNat_lt_of_isWordChar (isWordChar_of_isAlphanum hc))]
  rfl

/-- Keywords are identifiers of letters, in lower case behind the first one. -/
theorem of_mem_serverReserved (h : keyword ∈ serverReserved) : isIdentifier keyword.toList ∧
    '_' ∉ keyword.toList ∧ keyword.toList.tail.all Char.isLower := by
  revert keyword
  decide +kernel

/-- Words that are joined to a keyword are one word: a second one would start with no small letter. -/
theorem eq_singleton_of_joined {words : List (List Char)} (hkeyword : keyword ∈ serverReserved)
    (hne : ∀ word ∈ words, word ≠ []) (hall : ∀ word ∈ words, ∀ c ∈ word, c.isAlphanum)
    (h : words.flatMap Text.capitalize = keyword.toList) :
    ∃ word, words = [word] ∧ Text.capitalize word = keyword.toList := by
  obtain ⟨hident, -, hlower⟩ := of_mem_serverReserved hkeyword
  cases words with
  | nil => exact absurd h.symm (isIdentifier_iff.1 hident).1
  | cons first words =>
    cases words with
    | nil => exact ⟨first, rfl, by simpa using h⟩
    | cons second more =>
      have hsecond : second ∈ first :: second :: more := List.mem_cons_of_mem _ List.mem_cons_self
      obtain ⟨c, first, rfl⟩ := List.exists_cons_of_ne_nil (hne first List.mem_cons_self)
      obtain ⟨d, second, rfl⟩ := List.exists_cons_of_ne_nil (hne second hsecond)
      have hc : c.isAlphanum := hall _ List.mem_cons_self c List.mem_cons_self
      have hd : d.isAlphanum := hall _ hsecond d List.mem_cons_self
      rw [List.flatMap_cons, List.flatMap_cons, capitalize_eq_cons hc, capitalize_eq_cons hd] at h
      -- the first letter of the second word is behind the first one of the keyword
      have hmem : d.toUpper ∈ keyword.toList.tail := by
        rw [← h]
        simp
      have hupper := List.all_eq_true.1 hlower _ hmem
      rw [isLower_toUpper (isWordChar_of_isAlphanum hd)] at hupper
      cases hupper

/-- **Which components have a keyword as the name of their type**: those with this name, and those that spell it
out. -/
theorem declaration_eq_keyword_iff (hkeyword : keyword ∈ serverReserved) :
    declaration text = keyword ↔ text = keyword ∨ SpellsOut text keyword := by
  obtain ⟨hident, hunderscore, -⟩ := of_mem_serverReserved hkeyword
  by_cases htext : isIdentifier text.toList
  · rw [declaration_of_isIdentifier htext]
    exact ⟨.inl, fun h => h.resolve_right fun hspells => hspells.1 htext⟩
  · have hmade : declaration text =
        sanitize (String.ofList ((runs Char.isAlphanum text.toList).flatMap Text.capitalize)) := by
      rw [declaration, declarationChars, if_neg htext, sanitize, String.toList_ofList]
    have hne : text ≠ keyword := by
      rintro rfl
      exact htext hident
    rw [hmade, or_iff_right hne]
    constructor
    · intro h
      -- without an underscore the words are joined to the keyword itself
      have hjoined := eq_of_sanitize (by rwa [h])
      rw [h] at hjoined
      refine ⟨htext, eq_singleton_of_joined hkeyword (fun _ => ne_nil_of_mem_runs) (fun _ => all_of_mem_runs) ?_⟩
      rw [hjoined, String.toList_ofList]
    · rintro ⟨-, word, hruns, hword⟩
      rw [hruns, List.flatMap_singleton, hword, String.ofList_toList, sanitize_eq_iff]
      exact hident

end Name

/-- **The models file declares a type for every component**, and no other. -/
theorem Server.ModelsFile.mem_declared_iff {declarations : List Declaration} {name : String} :
    name ∈ (ofDeclarations declarations).declared ↔ ∃ d ∈ declarations, d.name = name := by
  constructor
  · intro h
    rcases List.mem_append.1 h with h | h
    · have hname : name ∈ (declarations.filter Declaration.isObject).map Declaration.name := names_classes _ ▸ h
      obtain ⟨d, hd, rfl⟩ := List.mem_map.1 hname
      exact ⟨d, (List.mem_filter.1 hd).1, rfl⟩
    · obtain ⟨a, ha, rfl⟩ := List.mem_map.1 h
      have hname : a.name ∈ (declarations.filter fun d => !d.isObject).map Declaration.name :=
        names_aliases _ ▸ List.mem_map_of_mem (mem_aliasOrder ha)
      obtain ⟨d, hd, hname⟩ := List.mem_map.1 hname
      exact ⟨d, (List.mem_filter.1 hd).1, hname⟩
  · rintro ⟨d, hd, rfl⟩
    exact mem_declared hd

/-! ## Parameters -/

namespace Client

/-- Words that are reserved in modules, beside those that are reserved everywhere. -/
def strictReserved : List String := [
  "implements", "interface", "let", "package", "private", "protected", "public", "static", "yield", "await"]

theorem of_mem_strictReserved {word : String} (h : word ∈ strictReserved) :
    '_' ∉ word.toList ∧ Name.client word = word ∧ word ≠ "request" := by
  revert word
  decide +kernel

/-- The parameters of a method have the names that it gives. -/
theorem Method.mem_paramNames {route : Route} {names : String × String} {name : String}
    (h : name ∈ (ofRoute route names).parameterNames) : name ∈ paramNames route.pathParams := by
  rw [parameterNames_ofRoute, List.mem_append] at h
  rw [paramNames_eq, List.mem_append]
  refine h.imp_right fun h => ?_
  obtain ⟨_, -, rfl⟩ := Option.map_eq_some_iff.1 (Option.mem_toList.1 h)
  exact List.mem_singleton_self _

/-- **A parameter has a name that modules reserve** exactly if a token of the path has. -/
theorem Method.strict_mem_iff {word : String} (hword : word ∈ strictReserved) (route : Route)
    (names : String × String) : word ∈ (ofRoute route names).parameterNames ↔ word ∈ route.pathParams := by
  obtain ⟨hunderscore, hclient, hrequest⟩ := of_mem_strictReserved hword
  constructor
  · intro h
    have hnames := mem_paramNames h
    have hasked : paramNames route.pathParams =
        Name.assign [] ((route.pathParams ++ ["request"]).map Name.client) := by
      rw [paramNames, List.map_append, List.map_singleton, Name.client_request]
    rw [hasked, Name.mem_assign_client_iff hunderscore hclient, List.mem_append] at hnames
    exact hnames.1.resolve_right fun h => hrequest (List.mem_singleton.1 h)
  · intro h
    rw [parameterNames_ofRoute]
    exact List.mem_append_left _ ((Name.mem_assign_client_iff hunderscore hclient).2 ⟨h, List.not_mem_nil⟩)

/-- **The methods of a file** are made of the routes of the operations, in order. -/
theorem ClientFile.forall₂_methods {options : ClientOptions} {doc : Document} {topology : Topology}
    {table : BindingTable} {P : Operation → Method → Prop}
    (h : ∀ op id names, P op (.ofRoute (RoutePlan.routeOf topology table op id) names)) :
    List.Forall₂ P doc.operations (ofPlan options (RoutePlan.ofDocument doc topology table)).methods := by
  -- the method of a place is made of the route there, and this of the operation there
  refine List.forall₂_iff_get.2 ⟨length_methods.symm, fun k hop hm => ?_⟩
  obtain ⟨route, names, hroute, -, hmethod⟩ := getElem?_methods.1 (List.getElem?_eq_getElem hm)
  obtain ⟨op, id, hoperation, -, rfl⟩ := RoutePlan.getElem?_routes.1 hroute
  obtain rfl := Option.some.inj ((List.getElem?_eq_getElem hop).symm.trans hoperation)
  rw [List.get_eq_getElem, List.get_eq_getElem, ← hmethod]
  exact h _ _ _

end Client

/-- **Which names are legal**, for every document.

* The types of the models file are declared under identifiers. One of them is a keyword exactly if it is the name
  of a component, or a component spells it out.
* The parameters of each method of the client are identifiers that are not reserved everywhere. One of them is
  reserved in modules exactly if it is a token of the path of the operation. -/
theorem legal_names_iff (options : ClientOptions) (doc : Document) (topology : Topology) (table : BindingTable) :
    let models := Server.ModelsFile.ofDeclarations (doc.components.map Declaration.ofComponent)
    let client := Client.ClientFile.ofPlan options (RoutePlan.ofDocument doc topology table)
    (∀ name ∈ models.declared, Name.isIdentifier name.toList) ∧
    (∀ keyword ∈ Name.serverReserved, keyword ∈ models.declared ↔
      ∃ c ∈ doc.components, c.name = keyword ∨ Name.SpellsOut c.name keyword) ∧
    List.Forall₂ (fun op m => (∀ name ∈ m.parameterNames, Name.Legal Name.clientReserved name) ∧
      ∀ word ∈ Client.strictReserved, word ∈ m.parameterNames ↔ word ∈ pathTokens op.path)
        doc.operations client.methods := by
  intro models client
  have hdeclared {name : String} :
      name ∈ models.declared ↔ ∃ c ∈ doc.components, Name.declaration c.name = name := by
    simp [models, Server.ModelsFile.mem_declared_iff, Declaration.ofComponent]
  refine ⟨fun name hname => ?_, fun keyword hkeyword => ?_, Client.ClientFile.forall₂_methods fun op id names =>
    ⟨fun name hname => ?_, fun word hword => Client.Method.strict_mem_iff hword _ names⟩⟩
  · obtain ⟨c, -, rfl⟩ := hdeclared.1 hname
    exact Name.isIdentifier_declaration c.name
  · rw [hdeclared]
    exact exists_congr fun c => and_congr_right fun _ => Name.declaration_eq_keyword_iff hkeyword
  · exact Client.Method.legal_paramNames _ name (Client.Method.mem_paramNames hname)

/-- A component with the name of a keyword, one that spells out another, and a path with a token that is
reserved in modules: all three are names of the generated files. -/
theorem not_legal_class_none_let :
    let doc : Document := ⟨[⟨"class", none, .untyped⟩, ⟨"none!", none, .untyped⟩],
      [⟨"/api/v1/{let}", [{ path := "/api/v1/{let}", verb := .get, operationId := some "build" }]⟩]⟩
    let models := Server.ModelsFile.ofDeclarations (doc.components.map Declaration.ofComponent)
    let client := Client.ClientFile.ofPlan {} (RoutePlan.ofDocument doc (.ofDocument "/api/v1" doc) .builtin)
    models.declared = ["class", "None"] ∧ "class" ∈ Name.serverReserved ∧ "None" ∈ Name.serverReserved ∧
      client.methods.map Client.Method.parameterNames = [["let"]] ∧ "let" ∈ Client.strictReserved := by
  decide +kernel

end ApiCodegen
