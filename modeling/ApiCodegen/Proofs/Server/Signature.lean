import ApiCodegen.Proofs.Server.Declared
import ApiCodegen.Proofs.Server.Handlers

/-!
# The signatures of handlers

A path parameter keeps the name of its token where that is a name that is free, and no default is written
for it. Otherwise the token becomes the alias of the parameter, which is given as a default. The parameter
of the request comes last and has no default.

* `parametersIn`: **the parameters in the text of a parameter list.** They are read as attributes are.
* `Handler.parametersIn_parameters`: what the text of a handler's parameters is read as.
* `renamed`, `getElem?_renamed`: for each token of a path, whether its parameter has another name.
* `DefaultsLast`: no parameter without a default stands behind one with a default.
* `Handler.signature`: **names are always distinct, and defaults come last for some paths only.**
* `Handler.not_defaultsLast_class`: a path whose handler has a parameter list that is none.
-/

namespace ApiCodegen.Server

open Text

/-- **The parameters in a list of parameters**, read between its commas. -/
def parametersIn (text : String) : List DeclaredField :=
  (parts (separatedBy ',') 0 (tokens .server text)).filterMap fun ts => field? (0, ts)

/-- **No parameter without a default stands behind one with a default.** -/
def DefaultsLast (params : List DeclaredField) : Prop :=
  params.Pairwise fun p q => p.default?.isSome → q.default?.isSome

instance (params : List DeclaredField) : Decidable (DefaultsLast params) :=
  inferInstanceAs (Decidable (params.Pairwise _))

/-- The names of the path parameters of a handler. -/
def givenNames (tokens : List String) : List String := Name.ofTokens Name.server tokens

/-- For each token, whether its parameter has another name. -/
def renamed (tokens : List String) : List Bool :=
  List.zipWith (fun given token => given != token) (givenNames tokens) tokens

/-- **A token is kept** if it is a legal name that no parameter before it has. -/
theorem getElem?_renamed {tokens : List String} {i : ℕ} {token : String} (h : tokens[i]? = some token) :
    (renamed tokens)[i]? = some false ↔
      Name.server token = token ∧ token ∉ givenNames (tokens.take i) := by
  have hasked : (tokens.map Name.server)[i]? = some (Name.server token) := by rw [List.getElem?_map, h]; rfl
  have hgiven := Name.getElem?_assign hasked []
  rw [Name.take_assign, ← List.map_take] at hgiven
  have hget : (renamed tokens)[i]? = some
      (Name.fresh ((givenNames (tokens.take i)).reverse ++ []) (Name.server token) != token) := by
    rw [renamed, List.getElem?_zipWith]
    simp only [givenNames, Name.ofTokens, hgiven, h]
  rw [hget, Option.some_inj, bne_eq_false_iff_eq, Name.fresh_server_eq_iff, List.append_nil, List.mem_reverse]

/-! ## Reading parameters -/

/-- The tokens of the default of a path parameter. -/
def aliasTokens (token : String) : List Token :=
  [.word "Path", .mark '(', .word "alias", .mark '=', .text token, .mark ')']

namespace PathParam

variable {p : PathParam}

/-- The tokens of a path parameter. -/
def tokens (p : PathParam) : List Token :=
  .word p.name :: .mark ':' :: .word "str" ::
    if p.name = p.token then [] else .mark '=' :: aliasTokens p.token

/-- A path parameter as it is declared. -/
def declared (p : PathParam) : DeclaredField :=
  ⟨p.name, p.name, if p.name = p.token then none else some (aliasTokens p.token)⟩

theorem nested_tokens (p : PathParam) : Nested false p.tokens := by
  have hargument : Nested true [.word "alias", .mark '=', .text p.token] :=
    .token rfl (.token rfl (.singleton rfl))
  refine .token rfl (.token rfl (.token rfl ?_))
  split
  · exact .nil
  · exact .token rfl (.token rfl (hargument.wrap (by decide)))

theorem field?_tokens (p : PathParam) : field? (0, p.tokens) = some p.declared := by
  unfold tokens declared
  split <;> rfl

/-- **The text of a path parameter is read as the parameter.** -/
theorem reads_paramText (hname : Name.isIdentifier p.name.toList) :
    Reads .server (Handler.paramText p).toList p.tokens := by
  unfold Handler.paramText tokens
  split
  · have hchars : (p.name ++ ": str").toList = p.name.toList ++ ':' :: ' ' :: "str".toList := by simp
    rw [hchars]
    exact .cons_word hname (by decide) (.cons_mark (by decide) (.cons_space (reads_word (by decide))))
  · have hchars : (p.name ++ ": str = Path(alias=" ++ Text.quote p.token ++ ")").toList =
        p.name.toList ++ ':' :: ' ' :: ("str".toList ++ ' ' :: '=' :: ' ' :: ("Path".toList ++ '(' ::
          (("alias".toList ++ '=' :: (Text.quote p.token).toList) ++ [')']))) := by
      simp
    have halias : Reads .server ("alias".toList ++ '=' :: (Text.quote p.token).toList)
        [.word "alias", .mark '=', .text p.token] :=
      .cons_word (by decide) (by decide) (.cons_mark (by decide) (reads_quote p.token))
    have hcall : Reads .server ("Path".toList ++ '(' ::
        (("alias".toList ++ '=' :: (Text.quote p.token).toList) ++ [')'])) _ :=
      .cons_word (by decide) (by decide) (halias.wrap (by decide))
    rw [hchars]
    exact .cons_word hname (by decide) (.cons_mark (by decide) (.cons_space
      (.cons_word (by decide) (by decide) (.cons_space (.cons_mark (by decide) (.cons_space hcall))))))

end PathParam

/-- **Some texts are read as parameters**, each wherever it stands. -/
def ReadAs (texts : List String) (params : List DeclaredField) : Prop :=
  ∃ tss, (∀ ts ∈ tss, Nested false ts) ∧ List.Forall₂ (Reads .server) (texts.map String.toList) tss ∧
    tss.map (fun ts => field? (0, ts)) = params.map some

theorem readAs_nil : ReadAs [] [] := ⟨[], by simp, .nil, rfl⟩

theorem ReadAs.append {texts more : List String} {params others : List DeclaredField}
    (h : ReadAs texts params) (hmore : ReadAs more others) : ReadAs (texts ++ more) (params ++ others) := by
  obtain ⟨tss, hnested, hreads, hparams⟩ := h
  obtain ⟨uss, hnested', hreads', hothers⟩ := hmore
  refine ⟨tss ++ uss, fun ts hts => ?_, ?_, ?_⟩
  · exact (List.mem_append.1 hts).elim (hnested ts) (hnested' ts)
  · rw [List.map_append]
    exact List.rel_append hreads hreads'
  · rw [List.map_append, List.map_append, hparams, hothers]

theorem readAs_params {params : List PathParam} (h : ∀ p ∈ params, Name.isIdentifier p.name.toList) :
    ReadAs (params.map Handler.paramText) (params.map PathParam.declared) := by
  refine ⟨params.map PathParam.tokens, fun ts hts => ?_, ?_, ?_⟩
  · obtain ⟨p, -, rfl⟩ := List.mem_map.1 hts
    exact p.nested_tokens
  · rw [List.map_map]
    exact forall₂_map fun p hp => PathParam.reads_paramText (h p hp)
  · rw [List.map_map, List.map_map]
    exact List.map_congr_left fun p _ => p.field?_tokens

/-- The parameter of a request has no default. -/
theorem readAs_request {name : String} (hname : Name.isIdentifier name.toList) (s : Schema) :
    ReadAs [name ++ ": " ++ (TypeExpr.ofBody s).render] [⟨name, name, none⟩] := by
  rw [TypeExpr.ofBody_eq]
  have hderives := TypeExpr.derives_written s.body
  have hassign : ∀ u ∈ (TypeExpr.ofSchema s.body).written, decide (u ≠ .mark '=') := fun u hu =>
    decide_eq_true fun heq => TypeExpr.assign_not_mem hderives (heq ▸ hu)
  have hreads : Reads .server (name ++ ": " ++ (TypeExpr.ofSchema s.body).render).toList
      (.word name :: .mark ':' :: (TypeExpr.ofSchema s.body).written) := by
    have hchars : (name ++ ": " ++ (TypeExpr.ofSchema s.body).render).toList =
        name.toList ++ ':' :: ' ' :: (TypeExpr.ofSchema s.body).chars := by
      simp [TypeExpr.render]
    rw [hchars]
    exact .cons_word hname (by decide) (.cons_mark (by decide) (.cons_space (TypeExpr.reads_ofSchema s.body)))
  refine ⟨[_], fun ts hts => ?_, .cons hreads .nil, ?_⟩
  · rw [List.mem_singleton.1 hts]
    exact .token rfl (.token rfl (TypeExpr.nested_of_derives hderives))
  · rw [List.map_singleton, field?, List.dropWhile_eq_nil_iff.2 hassign]
    rfl

/-- **A list of parameters is read parameter by parameter.** -/
theorem ReadAs.parametersIn_eq {texts : List String} {params : List DeclaredField} (h : ReadAs texts params) :
    parametersIn (String.intercalate ", " texts) = params := by
  obtain ⟨tss, hnested, hreads, hparams⟩ := h
  have hparts : (parts (separatedBy ',') 0 (List.intercalate [.mark ','] tss)).filterMap
      (fun ts => field? (0, ts)) = tss.filterMap fun ts => field? (0, ts) := by
    by_cases hnil : tss = []
    · rw [hnil]
      rfl
    · rw [parts_intercalate hnil fun ts hts => (hnested ts hts).inside (quiet_comma ts 0) le_rfl]
  have htokens : tokens .server (String.intercalate ", " texts) = List.intercalate [.mark ','] tss := by
    refine Reads.tokens_eq ?_
    rw [String.toList_intercalate]
    exact reads_commas hreads
  have hmap := congrArg (List.filterMap id) hparams
  rw [List.filterMap_map, List.filterMap_map, Function.id_comp, Function.id_comp, List.filterMap_some] at hmap
  rw [parametersIn, htokens, hparts, hmap]

/-! ## Handlers -/

namespace Handler

variable {groups : List GroupRouter} {services : List ServiceImport} {route : Route} {name : String}

theorem isIdentifier_param {p : PathParam} (hp : p ∈ (ofRoute groups services route name).params) :
    Name.isIdentifier p.name.toList := by
  rw [params_ofRoute] at hp
  obtain ⟨given, hgiven, token, -, rfl⟩ := exists_of_mem_zipWith hp
  refine (legal_paramNames route.pathParams given ?_).1
  rw [paramNames_eq]
  exact List.mem_append_left _ hgiven

/-- The parameter of a request as it is declared. -/
def declaredRequest (route : Route) : List DeclaredField :=
  (route.request.map fun _ => ⟨requestName route.pathParams, requestName route.pathParams, none⟩).toList

/-- **What the text of the parameters is read as.** -/
theorem parametersIn_parameters : parametersIn (ofRoute groups services route name).parameters =
    (ofRoute groups services route name).params.map PathParam.declared ++ declaredRequest route := by
  have hname : Name.isIdentifier (requestName route.pathParams).toList := by
    refine (legal_paramNames route.pathParams _ ?_).1
    rw [paramNames_eq]
    exact List.mem_append_right _ List.mem_cons_self
  have hparams : ReadAs ((ofRoute groups services route name).params.map paramText) _ :=
    readAs_params fun p hp => isIdentifier_param hp
  refine (hparams.append ?_).parametersIn_eq
  cases hrequest : route.request with
  | none =>
    rw [ofRoute, declaredRequest, hrequest]
    exact readAs_nil
  | some s =>
    rw [ofRoute, declaredRequest, hrequest]
    exact readAs_request hname s

/-- The names of the parameters, whether the request is among them or not. -/
theorem names_parametersIn :
    (parametersIn (ofRoute groups services route name).parameters).map DeclaredField.name =
      givenNames route.pathParams ++ (route.request.map fun _ => requestName route.pathParams).toList := by
  have hparams : ((ofRoute groups services route name).params.map PathParam.declared).map DeclaredField.name =
      givenNames route.pathParams := by
    rw [List.map_map, params_ofRoute]
    exact map_zipWith_left (fun _ _ => rfl) (Name.length_ofTokens _ _)
  rw [parametersIn_parameters, List.map_append, hparams, declaredRequest]
  cases route.request <;> rfl

/-- A parameter has a default exactly if it was renamed. -/
theorem defaults_parametersIn :
    (parametersIn (ofRoute groups services route name).parameters).map (fun p => p.default?.isSome) =
      renamed route.pathParams ++ (route.request.map fun _ => false).toList := by
  have hrenamed (p : PathParam) : p.declared.default?.isSome = (p.name != p.token) := by
    unfold PathParam.declared
    split <;> simp [*]
  have hparams : ((ofRoute groups services route name).params.map PathParam.declared).map
      (fun p => p.default?.isSome) = renamed route.pathParams := by
    rw [List.map_map, params_ofRoute, List.map_zipWith]
    simp only [Function.comp_apply, hrenamed]
    rfl
  rw [parametersIn_parameters, List.map_append, hparams, declaredRequest]
  cases route.request <;> rfl

/-- **The signature of a handler.** The names of the parameters are distinct. Those and only those have a
default whose names are not their tokens, and the request has none. A token is kept if it is a legal name
that is free. So defaults come last exactly if the kept tokens stand in front of the others, and if all of
them are kept where there is a request. -/
theorem signature (groups : List GroupRouter) (services : List ServiceImport) (topology : Topology)
    (table : BindingTable) (op : Operation) (id name : String) :
    let params := parametersIn
      (ofRoute groups services (RoutePlan.routeOf topology table op id) name).parameters
    params.map DeclaredField.name = givenNames (pathTokens op.path) ++
      (op.request.map fun _ => requestName (pathTokens op.path)).toList ∧
    (params.map DeclaredField.name).Nodup ∧
    params.map (fun p => p.default?.isSome) =
      renamed (pathTokens op.path) ++ (op.request.map fun _ => false).toList ∧
    (∀ i token, (pathTokens op.path)[i]? = some token → ((renamed (pathTokens op.path))[i]? = some false ↔
      Name.server token = token ∧ token ∉ givenNames ((pathTokens op.path).take i))) ∧
    (DefaultsLast params ↔ (renamed (pathTokens op.path)).Pairwise (fun a b : Bool => a → b) ∧
      (op.request.isSome → true ∉ renamed (pathTokens op.path))) := by
  intro params
  have hnames : params.map DeclaredField.name = givenNames (pathTokens op.path) ++
      (op.request.map fun _ => requestName (pathTokens op.path)).toList := names_parametersIn
  have hdefaults : params.map (fun p => p.default?.isSome) =
      renamed (pathTokens op.path) ++ (op.request.map fun _ => false).toList := defaults_parametersIn
  refine ⟨hnames, ?_, hdefaults, fun i token => getElem?_renamed, ?_⟩
  · rw [hnames]
    exact Name.nodup_ofTokens_append Name.server (pathTokens op.path) op.request
  · have hmap : DefaultsLast params ↔
        (params.map fun p => p.default?.isSome).Pairwise (fun a b : Bool => a → b) := by
      rw [List.pairwise_map]
      rfl
    rw [hmap, hdefaults, List.pairwise_append]
    cases op.request with
    | none => simp
    | some s => simp

/-- The handler of an operation on a path with a keyword for a token, and another token behind it. -/
def classHandler : Handler :=
  ofRoute [] [] (RoutePlan.routeOf (.ofDocument "/api/v1" {}) .builtin
    { path := "/api/v1/\x7bclass\x7d/\x7bid\x7d", verb := .get } "get_class") "get_class"

/-- The parameter of the keyword is renamed and has a default, and the one behind it has none. -/
theorem not_defaultsLast_class :
    classHandler.parameters = "class_: str = Path(alias=\"class\"), id: str" ∧
      ¬ DefaultsLast (parametersIn classHandler.parameters) := by
  have htext : classHandler.parameters = "class_: str = Path(alias=\"class\"), id: str" := by
    decide +kernel
  refine ⟨htext, ?_⟩
  rw [htext]
  decide +kernel

end Handler

end ApiCodegen.Server
