import ApiCodegen.Proofs.Client.Methods
import ApiCodegen.Proofs.Text.Lexeme
import ApiCodegen.Proofs.Generation.Correspondence
import ApiCodegen.Proofs.Generation.Texts
import ApiCodegen.Proofs.Server.Attributes
import ApiCodegen.Proofs.Server.Mounting
import ApiCodegen.Proofs.Server.Signature

/-!
# The texts of a description in the generated files

Texts of a description that a file needs at run time stand in literals: alternatives of enumerations, names
of properties, defaults, prefixes, tags, paths and summaries.

* `Server.Attribute.literals_line`, `Server.RouterFile.literals_routerLines`,
  `Server.RouterFile.literals_decorators`: what the literals of a line of the server mean.
* `Client.Member.literals_declaration`, `Client.ClientFile.literals_endpoints`: and of a line of the client.
* `quoted_texts_read`: **every literal means the text of the description**, by the rules of its language.
-/

namespace ApiCodegen

open Markup (Value)
open Text

variable {lang : Language} {name : String}

/-- What depends on the first list only. -/
theorem map_zipWith_eq {α β γ δ : Type} {f : α → β → γ} {g : γ → δ} {k : α → δ}
    (h : ∀ a b, g (f a b) = k a) {as : List α} {bs : List β} (hlength : as.length = bs.length) :
    (List.zipWith f as bs).map g = as.map k := by
  have hfirst := map_zipWith_left (f := fun a (_ : β) => a) (g := id) (fun _ _ => rfl) hlength
  rw [List.map_id] at hfirst
  rw [List.map_zipWith]
  simp only [h]
  rw [← List.map_zipWith (f := k) (g := fun a _ => a), hfirst]

/-- What a route has from its operation. -/
theorem map_routes {doc : Document} {topology : Topology} {table : BindingTable} {α : Type} {g : Route → α}
    {k : Operation → α} (h : ∀ op id, g (RoutePlan.routeOf topology table op id) = k op) :
    (RoutePlan.ofDocument doc topology table).routes.map g = doc.operations.map k :=
  map_zipWith_eq h doc.length_operationIds.symm

/-! ## Lines of the server -/

namespace Server

/-- A text in front of a quoted one. -/
theorem embeds_keyword {keyword s : String} (h : '"' ∉ keyword.toList) :
    Embeds lang (keyword ++ quote s).toList [s] := by
  rw [String.toList_append]
  exact (embeds_quote s).behind _ h

/-- Texts with commas between them. -/
theorem embeds_commas {parts : List String} {means : List (List String)}
    (h : List.Forall₂ (fun part mean => Embeds lang part.toList mean) parts means) :
    Embeds lang (String.intercalate ", " parts).toList means.flatten := by
  rw [String.toList_intercalate]
  exact embeds_intercalate _ (by decide) (by decide) (List.forall₂_map_left_iff.2 h)

namespace Attribute

theorem forall₂_argument {α : Type} {keyword : String} {text : α → String} {g : α → List String}
    {value : Option α} (h : ∀ v ∈ value, Embeds lang (keyword ++ "=" ++ text v).toList (g v)) :
    List.Forall₂ (fun part mean => Embeds lang part.toList mean) (argument keyword text value)
      (value.map g).toList := by
  cases value with
  | none => exact .nil
  | some v => exact .cons (h v rfl) .nil

/-- The texts of the arguments of an attribute: its alias and its description. -/
def argumentTexts (a : Attribute) : List String :=
  a.alias?.toList ++ (a.description.map Text.trimmed).toList

/-- What the arguments of an attribute mean, one by one. -/
theorem exists_forall₂_arguments (a : Attribute) : ∃ means : List (List String),
    List.Forall₂ (fun part mean => Embeds .server part.toList mean) a.arguments means ∧
      means.flatten = a.argumentTexts := by
  -- the bounds and lengths are numbers, and the other arguments are quoted
  have hplain {α : Type} (keyword : String) (text : α → String) (value : Option α)
      (hkeyword : '"' ∉ (keyword ++ "=").toList) (htext : ∀ v, ∀ c ∈ (text v).toList, Numeric.isNumberChar c) :
      List.Forall₂ (fun part mean => Embeds .server part.toList mean) (argument keyword text value)
        (value.map fun _ => []).toList := by
    refine forall₂_argument fun v _ => ?_
    rw [String.toList_append]
    exact (embeds_number (htext v)).behind _ hkeyword
  have hquoted {α : Type} (keyword : String) (g : α → String) (value : Option α)
      (hkeyword : '"' ∉ (keyword ++ "=").toList) :
      List.Forall₂ (fun part mean => Embeds .server part.toList mean)
        (argument keyword (fun v => quote (g v)) value) (value.map fun v => [g v]).toList :=
    forall₂_argument fun _ _ => embeds_keyword hkeyword
  have halias := hquoted "alias" id a.alias? (by decide)
  have hdescription := hquoted "description" Text.trimmed a.description (by decide)
  have hge := hplain "ge" Numeric.bound a.constraints.minimum (by decide) Numeric.forall_bound
  have hle := hplain "le" Numeric.bound a.constraints.maximum (by decide) Numeric.forall_bound
  have hmin := hplain "min_length" toString a.constraints.minLength (by decide) fun n _ hc =>
    Numeric.forall_nat n hc
  have hmax := hplain "max_length" toString a.constraints.maxLength (by decide) fun n _ hc =>
    Numeric.forall_nat n hc
  have hall := List.rel_append (List.rel_append (List.rel_append (List.rel_append (List.rel_append
    halias hdescription) hge) hle) hmin) hmax
  refine ⟨_, hall, ?_⟩
  have hempty {α : Type} (value : Option α) : (value.map fun _ => ([] : List String)).toList.flatten = [] := by
    cases value <;> rfl
  have hone {α : Type} (g : α → String) (value : Option α) :
      (value.map fun v => [g v]).toList.flatten = (value.map g).toList := by
    cases value <;> rfl
  simp only [List.flatten_append, hempty, hone, List.append_nil, argumentTexts, id_eq, Option.map_id']

/-- A call of `Field`. -/
theorem embeds_field (a : Attribute) {first : String} {texts : List String}
    (h : Embeds .server first.toList texts) : Embeds .server
      ("Field(" ++ String.intercalate ", " (first :: a.arguments) ++ ")").toList
      (texts ++ a.argumentTexts) := by
  obtain ⟨means, hmeans, hflatten⟩ := a.exists_forall₂_arguments
  have hcommas := embeds_commas (.cons h hmeans)
  rw [List.flatten_cons, hflatten] at hcommas
  rw [String.toList_append, String.toList_append, List.append_assoc]
  exact (hcommas.before _ (by decide)).behind _ (by decide)

/-- The texts of the default of an attribute. -/
def defaultTexts (a : Attribute) : List String := (a.default?.map (literalTexts .server)).getD []

theorem embeds_literal (v : Value) : Embeds .server (literal v).toList (literalTexts .server v) := by
  rw [literal, String.toList_ofList]
  exact embeds_literalChars v

/-- The value of an attribute has the texts of its default and those of its arguments. -/
theorem embeds_value (a : Attribute) : ∀ value ∈ a.value?,
    Embeds .server value.toList (a.defaultTexts ++ a.argumentTexts) := by
  have hnone (harguments : a.arguments = []) : a.argumentTexts = [] := by
    obtain ⟨means, hmeans, hflatten⟩ := a.exists_forall₂_arguments
    rw [harguments, List.forall₂_nil_left_iff] at hmeans
    rw [← hflatten, hmeans, List.flatten_nil]
  intro value hvalue
  unfold value? at hvalue
  unfold defaultTexts
  split at hvalue
  · cases hvalue
  · rename_i hdefault _
    obtain rfl := Option.some.inj hvalue
    rw [hdefault]
    exact a.embeds_field (embeds_plain (by decide))
  · rename_i v hdefault harguments
    obtain rfl := Option.some.inj hvalue
    rw [hdefault, hnone harguments, List.append_nil]
    exact embeds_literal v
  · rename_i v hdefault _
    obtain rfl := Option.some.inj hvalue
    rw [hdefault]
    refine a.embeds_field ?_
    rw [String.toList_append]
    exact (embeds_literal v).behind _ (by decide)

/-- The annotation of a field has the texts of its schema. -/
theorem embeds_annotationOf (f : Field) : Embeds .server (annotationOf f).chars f.schema.texts := by
  have hschema := TypeExpr.embeds_ofSchema f.schema
  have hoptional : Embeds .server (TypeExpr.optional f.schema).chars f.schema.texts := by
    unfold TypeExpr.optional
    split
    · exact hschema
    · exact TypeExpr.embeds_apply (by decide) hschema
  unfold annotationOf
  split
  · exact hschema
  · exact hoptional
  · exact hoptional
  · exact hschema

/-- The texts of the attribute of a field: those of its schema, those of its default, the name of the
property where the attribute has another one, and the description. -/
def fieldTexts (f : Field) (given : String) : List String :=
  f.schema.texts ++ ((defaultOf f).map (literalTexts .server)).getD [] ++
    ((if given = f.name then [] else [f.name]) ++ (f.description.map Text.trimmed).toList)

theorem fieldTexts_eq (f : Field) (given : String) : fieldTexts f given =
    f.schema.texts ++ (ofField f given).defaultTexts ++ (ofField f given).argumentTexts := by
  have halias : (ofField f given).alias?.toList = if given = f.name then [] else [f.name] := by
    change (if given = f.name then none else some f.name).toList = _
    split_ifs <;> rfl
  rw [argumentTexts, halias]
  rfl

/-- **The line of an attribute has the texts of its field.** -/
theorem literals_line (f : Field) (h : Name.isIdentifier name.toList) :
    literals .server (ofField f name).line = some (fieldTexts f name) := by
  rw [fieldTexts_eq]
  refine Embeds.literals_eq ?_
  have hdeclared : Embeds .server ("    " ++ name ++ ": " ++ (annotationOf f).render).toList f.schema.texts := by
    have hfront : '"' ∉ ("    " ++ name ++ ": ").toList := by
      simpa using not_mem_of_isIdentifier h
    rw [String.toList_append, TypeExpr.render, String.toList_ofList]
    exact (embeds_annotationOf f).behind _ hfront
  have hvalue := embeds_value (ofField f name)
  unfold line
  dsimp only
  split
  · rename_i hnone
    -- without a value there is no default and nothing to say
    have hempty : (ofField f name).defaultTexts = [] ∧ (ofField f name).argumentTexts = [] := by
      unfold value? at hnone
      split at hnone
      · rename_i hdefault harguments
        obtain ⟨means, hmeans, hflatten⟩ := (ofField f name).exists_forall₂_arguments
        rw [harguments, List.forall₂_nil_left_iff] at hmeans
        rw [← hflatten, hmeans, defaultTexts, hdefault]
        exact ⟨rfl, rfl⟩
      all_goals cases hnone
    rw [hempty.1, hempty.2, List.append_nil, List.append_nil]
    exact hdeclared
  · rename_i value hsome
    rw [String.toList_append, String.toList_append, List.append_assoc, List.append_assoc]
    exact hdeclared.append ((hvalue value hsome).behind _ (by decide)) (by simp)

end Attribute

/-- **The attributes of a class have the texts of its fields**, in order. -/
theorem ModelClass.literals_attributes (description : Option String) (fields : List Field) :
    (ofFields name description fields).attributes.map (fun a => literals .server a.line) =
      (fields.zip (attributeNames fields)).map fun given => some (Attribute.fieldTexts given.1 given.2) := by
  rw [ofFields, ← List.map_uncurry_zip_eq_zipWith, List.map_map]
  refine List.map_congr_left fun given hgiven => ?_
  exact Attribute.literals_line given.1 (isAttributeName_of_mem (List.of_mem_zip hgiven).2).legal.1

/-! ## The router file -/

theorem embeds_tagsArgument (tags : List String) : Embeds .server (tagsArgument tags).toList tags := by
  have htags : Embeds .server (String.intercalate ", " (tags.map quote)).toList (tags.flatMap fun t => [t]) := by
    rw [String.toList_intercalate, List.map_map]
    exact embeds_map _ (by decide) (by decide) fun t _ => embeds_quote t
  rw [List.flatMap_singleton'] at htags
  rw [tagsArgument, String.toList_append, String.toList_append, List.append_assoc]
  exact (htags.before _ (by decide)).behind _ (by decide)

/-- The line of a router has the texts of its arguments. -/
theorem literals_routerLine {arguments : List String} {means : List (List String)}
    (hname : Name.isIdentifier name.toList)
    (h : List.Forall₂ (fun part mean => Embeds .server part.toList mean) arguments means) :
    literals .server (routerLine name arguments) = some means.flatten := by
  refine Embeds.literals_eq ?_
  have hfront : '"' ∉ (name ++ " = APIRouter(").toList := by
    simpa using not_mem_of_isIdentifier hname
  rw [routerLine, String.toList_append, String.toList_append, List.append_assoc]
  exact ((embeds_commas h).before _ (by decide)).behind _ hfront

/-- The texts of a group: its prefix, if it is not empty, and its tags. -/
def groupTexts (g : Group) : List String := (if g.base.isEmpty then [] else [g.base]) ++ g.tags

theorem GroupRouter.literals_line {r : GroupRouter} (h : Name.isIdentifier r.name.toList) :
    literals .server r.line = some (groupTexts r.group) := by
  unfold GroupRouter.line groupTexts
  split
  · have hline := literals_routerLine h (.cons (embeds_tagsArgument r.group.tags) .nil)
    simpa using hline
  · have hbase : Embeds .server ("prefix=" ++ quote r.group.base).toList [r.group.base] :=
      embeds_keyword (by decide)
    have hline := literals_routerLine h (.cons hbase (.cons (embeds_tagsArgument r.group.tags) .nil))
    simpa using hline

namespace RouterFile

variable {options : ServerOptions} {apiPrefix : String} {declarations : List Declaration}
  {plan : RoutePlan}

theorem isIdentifier_group {r : GroupRouter} (hr : r ∈ (ofPlan options apiPrefix declarations plan).groups) :
    Name.isIdentifier r.name.toList := by
  have hname : r.name ∈ (ofPlan options apiPrefix declarations plan).groups.map GroupRouter.name :=
    List.mem_map_of_mem hr
  rw [names_groups] at hname
  refine Name.isIdentifier_of_mem_assign (fun base hbase => ?_) hname
  obtain ⟨g, -, rfl⟩ := List.mem_map.1 hbase
  exact Name.isIdentifier_sanitize g.name

/-- **The lines of the routers have the prefixes and tags of the plan.** -/
theorem literals_routerLines : (ofPlan options apiPrefix declarations plan).routerLines.map (literals .server) =
    plan.activeGroups.map (fun g => some (groupTexts g)) ++
      (if plan.hasLegacyRoutes then [some plan.topology.legacy.tags] else []) ++ [some [apiPrefix]] := by
  have hgroups : (ofPlan options apiPrefix declarations plan).groups.map (fun r => literals .server r.line) =
      plan.activeGroups.map fun g => some (groupTexts g) := by
    have hlines := List.map_congr_left fun r
      (hr : r ∈ (ofPlan options apiPrefix declarations plan).groups) =>
        GroupRouter.literals_line (isIdentifier_group hr)
    have hgroup : ((ofPlan options apiPrefix declarations plan).groups.map GroupRouter.group).map
        (fun g => some (groupTexts g)) = plan.activeGroups.map fun g => some (groupTexts g) :=
      congrArg _ groups_groups
    rw [List.map_map] at hgroup
    exact hlines.trans hgroup
  have hlegacy (tags : List String) : literals .server (routerLine legacyVariable [tagsArgument tags]) =
      some tags := by
    have hname : Name.isIdentifier legacyVariable.toList := by decide
    have hline := literals_routerLine hname (.cons (embeds_tagsArgument tags) .nil)
    simpa using hline
  have haggregate : literals .server (routerLine aggregateVariable ["prefix=" ++ quote apiPrefix]) =
      some [apiPrefix] := by
    have hprefix : Embeds .server ("prefix=" ++ quote apiPrefix).toList [apiPrefix] := embeds_keyword (by decide)
    exact literals_routerLine (by decide) (.cons hprefix .nil)
  rw [routerLines, List.map_append, List.map_append, List.map_map, List.map_singleton]
  refine congrArg₂ (· ++ ·) (congrArg₂ (· ++ ·) hgroups ?_) (congrArg (fun line => [line]) haggregate)
  rw [ofPlan]
  dsimp only
  split
  · exact congrArg (fun line => [line]) (hlegacy plan.topology.legacy.tags)
  · rfl

end RouterFile

namespace Handler

variable {groups : List GroupRouter} {services : List ServiceImport} {route : Route}

/-- The line that registers a handler has its path and its summary. -/
theorem literals_decorator {h : Handler} (hrouter : '"' ∉ h.router.toList) :
    literals .server h.decorator = some (h.path :: (h.summary.map Text.trimmed).toList) := by
  refine Embeds.literals_eq ?_
  have hfront : '"' ∉ ("@" ++ h.router ++ "." ++ h.verb.lower ++ "(").toList := by
    have hverb : '"' ∉ h.verb.lower.toList := by cases h.verb <;> decide
    simp [hrouter, hverb]
  have hpath : Embeds .server (("@" ++ h.router ++ "." ++ h.verb.lower ++ "(").toList ++ (quote h.path).toList)
      [h.path] := (embeds_quote h.path).behind _ hfront
  unfold decorator
  dsimp only
  split
  · rename_i summary hsummary
    rw [String.toList_append, String.toList_append, String.toList_append, hsummary, List.append_assoc]
    exact hpath.append ((embeds_keyword (by decide)).before _ (by decide)) (by simp)
  · rename_i hsummary
    rw [String.toList_append, String.toList_append, String.toList_append, hsummary, List.append_assoc]
    exact hpath.before _ (by decide)

/-- A path parameter has its token, if that is not its name. -/
theorem literals_paramText {p : PathParam} (h : Name.isIdentifier p.name.toList) :
    literals .server (paramText p) = some (if p.name = p.token then [] else [p.token]) := by
  refine Embeds.literals_eq ?_
  unfold paramText
  split
  · rw [String.toList_append]
    exact (embeds_name h).before _ (by decide)
  · have hfront : '"' ∉ (p.name ++ ": str = Path(alias=").toList := by
      simpa using not_mem_of_isIdentifier h
    rw [String.toList_append, String.toList_append, List.append_assoc]
    exact ((embeds_quote p.token).before _ (by decide)).behind _ hfront

/-- The router of a handler has a name without quotes. -/
theorem not_mem_routerOf {slot : Slot} (h : ∀ r ∈ groups, Name.isIdentifier r.name.toList) :
    '"' ∉ (routerOf groups slot).toList := by
  unfold routerOf
  split
  · decide
  · decide
  · split
    · rename_i r hfind
      exact not_mem_of_isIdentifier (h r (List.mem_of_find?_eq_some hfind))
    · decide

end Handler

namespace RouterFile

variable {options : ServerOptions} {apiPrefix : String} {declarations : List Declaration}
  {plan : RoutePlan}

theorem handlers_eq : (ofPlan options apiPrefix declarations plan).handlers =
    List.zipWith (Handler.ofRoute (ofPlan options apiPrefix declarations plan).groups
      (ofPlan options apiPrefix declarations plan).services) plan.routes (handlerNames declarations plan) := rfl

theorem literals_handler (route : Route) (given : String) : literals .server
    (Handler.ofRoute (ofPlan options apiPrefix declarations plan).groups
      (ofPlan options apiPrefix declarations plan).services route given).decorator =
      some (route.relativePath :: (route.summary.map Text.trimmed).toList) := by
  have hrouters : ∀ r ∈ (ofPlan options apiPrefix declarations plan).groups, Name.isIdentifier r.name.toList :=
    fun r hr => isIdentifier_group hr
  exact Handler.literals_decorator (Handler.not_mem_routerOf hrouters)

/-- **The handlers have the paths and summaries of the operations**, in order. -/
theorem literals_decorators :
    (ofPlan options apiPrefix declarations (.ofDocument doc topology table)).handlers.map
      (fun h => literals .server h.decorator) =
    doc.operations.map fun op => some (topology.relativePath op :: (op.summary.map Text.trimmed).toList) := by
  rw [handlers_eq, map_zipWith_eq (g := fun h : Handler => literals .server h.decorator) literals_handler
    length_handlerNames.symm]
  exact map_routes fun _ _ => rfl

/-- **The parameters of handlers have their tokens.** -/
theorem literals_params {h : Handler} (hh : h ∈ (ofPlan options apiPrefix declarations plan).handlers)
    {p : PathParam} (hp : p ∈ h.params) :
    literals .server (Handler.paramText p) = some (if p.name = p.token then [] else [p.token]) := by
  obtain ⟨route, -, name, -, rfl⟩ := exists_of_mem_zipWith hh
  exact Handler.literals_paramText (Handler.isIdentifier_param hp)

end RouterFile

end Server

/-! ## Lines of the client -/

namespace Client

/-- A property key in front of something. -/
theorem embeds_entry (name : String) {between rest : String} {texts : List String}
    (h : Embeds .client rest.toList texts) (hbetween : '"' ∉ between.toList ∧ between.toList ≠ []) :
    Embeds .client (propertyKey name ++ (between ++ rest)).toList (propertyTexts name ++ texts) := by
  rw [String.toList_append, String.toList_append]
  refine (embeds_propertyKey name).append (h.behind _ hbetween.1) ?_
  rw [List.head?_append_of_ne_nil _ hbetween.2]
  exact fun hhead => hbetween.1 (List.mem_of_mem_head? hhead)

namespace Member

/-- **The declaration of a member, behind its comment, has its name and the texts of its schema.** -/
theorem literals_declaration (f : Field) :
    (ofField f).lines.getLast?.bind (literals .client) = some (propertyTexts f.name ++ f.schema.texts) := by
  have hline : (ofField f).lines.getLast? = some (propertyKey f.name ++
      (((if (ofField f).isOptional then "?" else "") ++ ": ") ++
        ((TypeExpr.ofSchema f.schema).render ++ ";"))) := by
    simp only [lines, List.getLast?_concat, String.append_assoc]
    rfl
  rw [hline, Option.bind_some]
  refine Embeds.literals_eq ?_
  have htype : Embeds .client ((TypeExpr.ofSchema f.schema).render ++ ";").toList f.schema.texts := by
    rw [String.toList_append, TypeExpr.render, String.toList_ofList]
    exact (TypeExpr.embeds_ofSchema f.schema).before _ (by decide)
  exact embeds_entry f.name htype (by split <;> decide)

/-- **The entry of a member among the defaults has its name and the texts of its default.** -/
theorem literals_defaultLine (m : Member) : m.defaultLine?.map (literals .client) =
    m.default?.map fun v => some (propertyTexts m.property ++ literalTexts .client v) := by
  rw [defaultLine?, Option.map_map]
  refine Option.map_congr fun v _ => ?_
  have hvalue : Embeds .client (literal v ++ ",").toList (literalTexts .client v) := by
    rw [String.toList_append, literal, String.toList_ofList]
    exact (embeds_literalChars v).before _ (by decide)
  have hcolon : '"' ∉ ": ".toList ∧ ": ".toList ≠ [] := by decide
  rw [Function.comp_apply, String.append_assoc, String.append_assoc]
  exact (embeds_entry m.property hvalue hcolon).literals_eq

end Member

/-- The line of an endpoint. -/
def Endpoint.line (e : Endpoint) : String := e.name ++ ": " ++ quote e.path ++ ","

namespace ClientFile

variable {options : ClientOptions} {doc : Document} {topology : Topology} {table : BindingTable}

/-- The line of an endpoint is a line of the file. -/
theorem line_mem_lines {file : ClientFile} {e : Endpoint} (he : e ∈ file.endpoints) :
    indented e.line ∈ file.lines := by
  have hblock : indented e.line ∈ block "export const API_ENDPOINTS = "
      (file.endpoints.map fun e => e.name ++ ": " ++ Text.quote e.path ++ ",") " as const;" := by
    refine List.mem_cons_of_mem _ (List.mem_append_left _ ?_)
    exact List.mem_map_of_mem (List.mem_map_of_mem he)
  simp only [lines, List.mem_append]
  exact .inl (.inl (.inl (.inl (.inr hblock))))

/-- The line of an endpoint has its path. -/
theorem literals_endpoint {e : Endpoint} (h : Name.isIdentifier e.name.toList) :
    literals .client e.line = some [e.path] := by
  refine Embeds.literals_eq ?_
  have hfront : '"' ∉ (e.name ++ ": ").toList := by
    simpa using not_mem_of_isIdentifier h
  have hpath : Embeds .client (quote e.path ++ ",").toList [e.path] := by
    rw [String.toList_append]
    exact (embeds_quote e.path).before _ (by decide)
  rw [Endpoint.line, String.append_assoc, String.toList_append]
  exact hpath.behind _ hfront

/-- **The endpoints have the paths of the operations**, in order. -/
theorem literals_endpoints :
    (ofPlan options (.ofDocument doc topology table)).endpoints.map (fun e => literals .client e.line) =
      doc.operations.map fun op => some [op.path] := by
  have hlines : ∀ e ∈ (ofPlan options (.ofDocument doc topology table)).endpoints,
      literals .client e.line = some [e.path] := by
    intro e he
    have hname := List.mem_map_of_mem (f := Endpoint.name) he
    rw [names_endpoints] at hname
    exact literals_endpoint (family_endpointNames.legal _ hname).1
  have hpaths : (ofPlan options (.ofDocument doc topology table)).endpoints.map Endpoint.path =
      (RoutePlan.ofDocument doc topology table).routes.map Route.path := by
    refine map_zipWith_right (fun _ _ => rfl) ?_
    rw [List.length_map]
    exact length_endpointNames.symm
  have hroutes : (RoutePlan.ofDocument doc topology table).routes.map Route.path =
      doc.operations.map Operation.path := map_routes fun _ _ => rfl
  rw [hroutes] at hpaths
  have hmap := congrArg (List.map fun path => some [path]) hpaths
  rw [List.map_map, List.map_map] at hmap
  exact (List.map_congr_left hlines).trans hmap

end ClientFile

end Client

/-! ## All texts -/

/-- **Every literal of the generated files means a text of the description**, by the rules of the language of
its file.

* A quoted text stands on one line, and is one literal that means this text in either language.
* Types have the alternatives of enumerations as literals, and expressions of values the strings in them.
* The key of a property stands for its name, with or without quotes.
* An attribute has the texts of its schema, of its default, of its alias and of its description; a member of
  an interface those of its name and its schema, and its entry among the defaults those of its default.
* The routers have the prefixes and tags of the layout, the handlers the paths behind the prefixes, the
  parameters the tokens that are not their names, and the endpoints the paths of the operations. -/
theorem quoted_texts_read :
    (∀ (lang : Language) (s : String), (∀ c ∈ (quote s).toList, 32 ≤ c.toNat) ∧
      readLiteral lang (quote s).toList = some (s.toList, []) ∧ literals lang (quote s) = some [s]) ∧
    (∀ schema : Schema,
      literals .server (Server.TypeExpr.ofSchema schema).render = some schema.texts ∧
      literals .client (Client.TypeExpr.ofSchema schema).render = some schema.texts) ∧
    (∀ v : Value,
      literals .server (Server.literal v) = some (literalTexts .server v) ∧
      literals .client (Client.literal v) = some (literalTexts .client v)) ∧
    (∀ (name : String) (description : Option String) (fields : List Field),
      (Server.ModelClass.ofFields name description fields).attributes.map (fun a => literals .server a.line) =
        (fields.zip (Server.ModelClass.attributeNames fields)).map fun given =>
          some (Server.Attribute.fieldTexts given.1 given.2)) ∧
    (∀ f : Field,
      readKey .client ((Client.propertyKey f.name).toList ++ [':']) = some (f.name.toList, [':']) ∧
      (Client.Member.ofField f).lines.getLast?.bind (literals .client) =
        some (propertyTexts f.name ++ f.schema.texts) ∧
      (Client.Member.ofField f).defaultLine?.map (literals .client) =
        (Client.Member.ofField f).default?.map fun v => some (propertyTexts f.name ++ literalTexts .client v)) ∧
    (∀ (options : ServerOptions) (apiPrefix : String) (declarations : List Declaration) (doc : Document)
        (topology : Topology) (table : BindingTable),
      let plan := RoutePlan.ofDocument doc topology table
      let file := Server.RouterFile.ofPlan options apiPrefix declarations plan
      file.routerLines.map (literals .server) =
        plan.activeGroups.map (fun g => some ((if g.base.isEmpty then [] else [g.base]) ++ g.tags)) ++
          (if plan.hasLegacyRoutes then [some topology.legacy.tags] else []) ++ [some [apiPrefix]] ∧
      file.handlers.map (fun h => literals .server h.decorator) =
        doc.operations.map (fun op =>
          some (topology.relativePath op :: (op.summary.map Text.trimmed).toList)) ∧
      ∀ h ∈ file.handlers, ∀ p ∈ h.params,
        literals .server (Server.Handler.paramText p) = some (if p.name = p.token then [] else [p.token])) ∧
    (∀ (options : ClientOptions) (doc : Document) (topology : Topology) (table : BindingTable),
      let file := Client.ClientFile.ofPlan options (.ofDocument doc topology table)
      (∀ e ∈ file.endpoints, Client.indented e.line ∈ file.lines) ∧
      file.endpoints.map (fun e => literals .client e.line) = doc.operations.map fun op => some [op.path]) := by
  refine ⟨fun lang s => ⟨fun c hc => ?_, ?_, (embeds_quote s).literals_eq⟩, fun schema => ⟨?_, ?_⟩,
    fun v => ⟨?_, ?_⟩, fun name description fields => Server.ModelClass.literals_attributes description fields,
    fun f => ⟨?_, Client.Member.literals_declaration f, Client.Member.literals_defaultLine (.ofField f)⟩,
    fun options apiPrefix declarations doc topology table => ?_, fun options doc topology table => ?_⟩
  · rw [quote, String.toList_ofList] at hc
    exact le_of_mem_quoteChars hc
  · have hread : readLiteral lang (quoteChars s.toList ++ []) = some (s.toList, []) :=
      readLiteral_quoteChars s.toList (by simp)
    rw [List.append_nil] at hread
    rwa [quote, String.toList_ofList]
  · refine Embeds.literals_eq ?_
    rw [Server.TypeExpr.render, String.toList_ofList]
    exact Server.TypeExpr.embeds_ofSchema schema
  · refine Embeds.literals_eq ?_
    rw [Client.TypeExpr.render, String.toList_ofList]
    exact Client.TypeExpr.embeds_ofSchema schema
  · refine Embeds.literals_eq ?_
    rw [Server.literal, String.toList_ofList]
    exact Server.embeds_literalChars v
  · refine Embeds.literals_eq ?_
    rw [Client.literal, String.toList_ofList]
    exact Client.embeds_literalChars v
  · exact readKey_propertyKey f.name (separate_cons (by decide))
  · exact ⟨Server.RouterFile.literals_routerLines, Server.RouterFile.literals_decorators,
      fun h hh p hp => Server.RouterFile.literals_params hh hp⟩
  · exact ⟨fun e he => Client.ClientFile.line_mem_lines he, Client.ClientFile.literals_endpoints⟩

end ApiCodegen
