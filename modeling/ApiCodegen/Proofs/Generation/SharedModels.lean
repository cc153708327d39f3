import ApiCodegen.Proofs.Client.Declared
import ApiCodegen.Proofs.Generation.BoundNames
import ApiCodegen.Proofs.Server.Attributes

/-!
# Both targets describe the same models

Both files are read from their texts on, and what is read is compared. The orders differ: classes stand
in front of aliases, and these follow each other by their references, while the types file keeps the order
of the components.

* `SameObject`: attributes and members hold the same properties, in one order, and agree on which of them
  can be left out.
* `literalDefaults`: the properties whose literal default is the default of their attribute.
* `SameModels`: **what one file says of the models of a document, the other one says.**
* `same_models`: **the files of the declarations of a document do so**, if comments stay comments.
* `not_same_names_empty`: the types file declares the type of dates with times in any case.
-/

namespace ApiCodegen

open Markup (Value)
open Text

variable {doc : Document} {declarations : List Declaration} {d : Declaration} {fields : List Field}

/-! ## The models file -/

namespace Server

namespace Declared

/-- The declared name. -/
def name : Declared → String
  | .alias name => name
  | .model name _ => name

/-- The name of a class. -/
def modelName? : Declared → Option String
  | .alias _ => none
  | .model name _ => some name

end Declared

namespace ModelClass

/-- The attributes of an object as they are declared. -/
def declaredFields (fields : List Field) : List DeclaredField :=
  (ofFields "" none fields).attributes.map Attribute.declared

theorem names_declaredFields (fields : List Field) :
    (declaredFields fields).map DeclaredField.name =
      Name.assign [] (fields.map fun f => attributeBase f.name) := by
  rw [declaredFields, List.map_map]
  exact map_zipWith_right (fun _ _ => rfl) (length_attributeNames fields)

theorem properties_declaredFields (fields : List Field) :
    (declaredFields fields).map DeclaredField.property = fields.map Field.name := by
  rw [declaredFields, List.map_map]
  exact map_attributes (fun f given => (Attribute.ofField f given).property_declared) fields

theorem defaults_declaredFields (fields : List Field) :
    (declaredFields fields).map DeclaredField.default? =
      fields.map fun f => (Attribute.defaultOf f).map fun v => tokens .server (literal v) := by
  rw [declaredFields, List.map_map]
  exact map_attributes (fun _ _ => rfl) fields

end ModelClass

namespace ModelsFile

/-- What is declared for a declaration of an object is a class with its fields. -/
theorem model_mem_declares (hd : d ∈ declarations) (hshape : d.shape = .object fields) :
    .model d.name (ModelClass.declaredFields fields) ∈ (ofDeclarations declarations).declares := by
  refine List.mem_append_left _ (List.mem_map.2 ⟨.ofFields d.name d.description fields, ?_, rfl⟩)
  exact List.mem_filterMap.2 ⟨d, hd, by rw [classOf?, hshape]⟩

theorem names_declares (file : ModelsFile) : file.declares.map Declared.name = file.declared := by
  simp [declares, declared, Function.comp_def, Declared.name]

theorem modelNames_declares (declarations : List Declaration) :
    (ofDeclarations declarations).declares.filterMap Declared.modelName? =
      (declarations.filter Declaration.isObject).map Declaration.name := by
  rw [← names_classes]
  simp [declares, ofDeclarations, List.filterMap_append, Function.comp_def, Declared.modelName?]

/-- **What the models file of some declarations declares**, if descriptions of aliases stay comments. -/
theorem declaredIn_ofDeclarations (hnames : ∀ d ∈ declarations, Name.isIdentifier d.name.toList)
    (hcomments : ∀ a ∈ declarations.filterMap aliasOf?, a.CommentsOnly) :
    declaredIn (ofDeclarations declarations).render = (ofDeclarations declarations).declares := by
  refine declaredIn_render (fun c hc => ?_) fun a ha => ?_
  · obtain ⟨d, hd, hclass⟩ := List.mem_filterMap.1 hc
    unfold classOf? at hclass
    split at hclass
    · obtain rfl := Option.some.inj hclass
      exact ⟨hnames d hd, fun a ha => ModelClass.proper_ofFields ha⟩
    · cases hclass
  · have hmem := mem_aliasOrder ha
    refine ⟨?_, hcomments a hmem⟩
    obtain ⟨d, hd, halias⟩ := List.mem_filterMap.1 hmem
    unfold aliasOf? at halias
    split at halias
    · cases halias
    · obtain rfl := Option.some.inj halias
      exact hnames d hd

end ModelsFile

end Server

/-! ## The types file -/

namespace Client

namespace Declared

/-- The name of a declared type. A constant is no type. -/
def typeName? : Declared → Option String
  | .alias name => some name
  | .interface name _ => some name
  | .constant _ _ => none

/-- The name of an interface. -/
def interfaceName? : Declared → Option String
  | .interface name _ => some name
  | _ => none

end Declared

variable {name constant : String} {members : List Member} {entries : List (String × List Token)}

/-- **The constant of the defaults is there if there are any**, with all of them. -/
theorem constant_mem_declaredDefaults : .constant constant entries ∈ declaredDefaults name members ↔
    constant = name ++ "Defaults" ∧ entries ≠ [] ∧ entries =
      (members.filterMap Member.propertyDefault?).map fun e => (e.1, tokens .client (literal e.2)) := by
  unfold declaredDefaults
  cases members.filterMap Member.propertyDefault? with
  | nil =>
    simp only [List.not_mem_nil, List.map_nil, false_iff]
    exact fun h => h.2.1 h.2.2
  | cons e more =>
    simp only [List.mem_singleton, Declared.constant.injEq]
    refine and_congr_right fun _ => ⟨?_, And.right⟩
    rintro rfl
    exact ⟨by simp, rfl⟩

theorem ofDeclaration_alias {s : Schema} (hshape : d.shape = .alias s) :
    Declared.ofDeclaration d = [.alias d.name] := by
  rw [Declared.ofDeclaration, hshape]

theorem ofDeclaration_object (hshape : d.shape = .object fields) : Declared.ofDeclaration d =
    .interface d.name (fields.map fun f => (Member.ofField f).declared) ::
      declaredDefaults d.name (fields.map Member.ofField) := by
  rw [Declared.ofDeclaration, hshape]

/-- Defaults are no types. -/
theorem types_declaredDefaults (name : String) (members : List Member) :
    (declaredDefaults name members).filterMap Declared.typeName? = [] ∧
      (declaredDefaults name members).filterMap Declared.interfaceName? = [] := by
  unfold declaredDefaults
  split <;> exact ⟨rfl, rfl⟩

/-- **Every declaration declares one type**, which is an interface if it is that of an object. -/
theorem types_ofDeclaration (d : Declaration) :
    (Declared.ofDeclaration d).filterMap Declared.typeName? = [d.name] ∧
      (Declared.ofDeclaration d).filterMap Declared.interfaceName? =
        if d.isObject then [d.name] else [] := by
  rcases hshape : d.shape with fields | s
  · obtain ⟨htypes, hinterfaces⟩ := types_declaredDefaults d.name (fields.map Member.ofField)
    rw [ofDeclaration_object hshape]
    simp [Declared.typeName?, Declared.interfaceName?, Declaration.isObject, hshape, htypes, hinterfaces]
  · rw [ofDeclaration_alias hshape]
    simp [Declared.typeName?, Declared.interfaceName?, Declaration.isObject, hshape]

theorem types_declarations (declarations : List Declaration) :
    (declarations.flatMap Declared.ofDeclaration).filterMap Declared.typeName? =
      declarations.map Declaration.name ∧
    (declarations.flatMap Declared.ofDeclaration).filterMap Declared.interfaceName? =
      (declarations.filter Declaration.isObject).map Declaration.name := by
  induction declarations with
  | nil => exact ⟨rfl, rfl⟩
  | cons d more ih =>
    obtain ⟨htypes, hinterfaces⟩ := types_ofDeclaration d
    rw [List.flatMap_cons, List.filterMap_append, List.filterMap_append, htypes, hinterfaces, ih.1, ih.2]
    cases hobject : d.isObject <;> simp [hobject]

/-- Constants are those of declared objects. -/
theorem constant_mem_declarations (hn : (declarations.map Declaration.name).Nodup) (hd : d ∈ declarations)
    (hshape : d.shape = .object fields) :
    .constant (d.name ++ "Defaults") entries ∈ declarations.flatMap Declared.ofDeclaration ↔
      entries ≠ [] ∧ entries = ((fields.map Member.ofField).filterMap Member.propertyDefault?).map
        fun e => (e.1, tokens .client (literal e.2)) := by
  have hself : .constant (d.name ++ "Defaults") entries ∈ Declared.ofDeclaration d ↔ entries ≠ [] ∧
      entries = ((fields.map Member.ofField).filterMap Member.propertyDefault?).map
        fun e => (e.1, tokens .client (literal e.2)) := by
    rw [ofDeclaration_object hshape, List.mem_cons, constant_mem_declaredDefaults]
    simp
  rw [← hself, List.mem_flatMap]
  refine ⟨?_, fun h => ⟨d, hd, h⟩⟩
  rintro ⟨e, he, hmem⟩
  -- a constant has the name of its object, and no other object has that name
  suffices hname : e.name = d.name by rwa [List.inj_on_of_nodup_map hn he hd hname] at hmem
  rcases hother : e.shape with others | s
  · rw [ofDeclaration_object hother, List.mem_cons, constant_mem_declaredDefaults] at hmem
    obtain ⟨happend, -⟩ := hmem.resolve_left (by simp)
    have hchars := congrArg String.toList happend
    rw [String.toList_append, String.toList_append] at hchars
    exact (String.toList_inj.1 (List.append_cancel_right hchars)).symm
  · rw [ofDeclaration_alias hother] at hmem
    simp at hmem

end Client

/-! ## Both files -/

variable {required : List String} {properties : List (Property Schema)}

/-- The entry of a property among the defaults, if its literal default is that of its attribute. -/
def literalDefault? (p : Property Schema) (default? : Option (List Token)) :
    Option (String × List Token) :=
  p.default?.bind fun v =>
    if default? = some (tokens .server (Server.literal v)) then
      some (p.name, tokens .client (Client.literal v))
    else none

/-- The entries of the properties whose literal default is the default of their attribute. -/
def literalDefaults (properties : List (Property Schema)) (fields : List Server.DeclaredField) :
    List (String × List Token) :=
  (List.zipWith literalDefault? properties (fields.map Server.DeclaredField.default?)).reduceOption

/-- **A class and an interface hold the same properties**, in the order of these, and agree on those that
cannot be left out. -/
structure SameObject (properties : List (Property Schema)) (required : List String)
    (fields : List Server.DeclaredField) (members : List Client.DeclaredMember) : Prop where
  /-- No attribute hides another one. -/
  distinct : (fields.map Server.DeclaredField.name).Nodup
  attributes : fields.map Server.DeclaredField.property = properties.map Property.name
  keys : members.map Client.DeclaredMember.key = properties.map Property.name
  withoutDefault : (fields.map fun f => f.default?.isNone) =
    properties.map fun p => decide (p.name ∈ required)
  withoutMark : (members.map fun m => !m.isOptional) =
    properties.map fun p => decide (p.name ∈ required)

/-- The declared names of the objects among the components. -/
def Document.objectNames (doc : Document) : List String :=
  (doc.components.filter fun c => c.schema.isObject).map fun c => Name.declaration c.name

/-- **Both files describe the same models.** -/
structure SameModels (doc : Document) (server : List Server.Declared) (client : List Client.Declared) :
    Prop where
  distinct : (server.map Server.Declared.name).Nodup
  /-- Beside the types of the models there is that of dates with times. -/
  names : (client.filterMap Client.Declared.typeName?).Perm
    (Client.dateTimeName :: server.map Server.Declared.name)
  classes : server.filterMap Server.Declared.modelName? = doc.objectNames
  interfaces : client.filterMap Client.Declared.interfaceName? = doc.objectNames
  objects : ∀ c ∈ doc.components, ∀ properties required, c.schema = .object properties required →
    ∃ fields members, .model (Name.declaration c.name) fields ∈ server ∧
      .interface (Name.declaration c.name) members ∈ client ∧
      SameObject properties required fields members ∧
      ∀ entries, .constant (Name.declaration c.name ++ "Defaults") entries ∈ client ↔
        entries ≠ [] ∧ entries = literalDefaults properties fields

theorem presence_required_iff {p : Property Schema} :
    p.presence required = .required ↔ p.name ∈ required := by
  unfold Property.presence
  split
  · simp [*]
  · split <;> simp [*]

/-- The default of an attribute is absent exactly if the property is required. -/
theorem defaultOf_eq_none_iff {p : Property Schema} :
    Server.Attribute.defaultOf (Field.ofProperty required p) = none ↔ p.name ∈ required := by
  rw [← presence_required_iff, Server.Attribute.defaultOf, Field.ofProperty]
  cases p.presence required <;> simp

/-- A member has no mark exactly if the property is required. -/
theorem isOptional_eq_false_iff {p : Property Schema} :
    (Client.Member.ofField (Field.ofProperty required p)).isOptional = false ↔ p.name ∈ required := by
  rw [← presence_required_iff, Client.Member.ofField, Field.ofProperty]
  cases p.presence required <;> simp

/-- **A member has an entry if the literal default is that of the attribute**, and only then. -/
theorem literalDefault?_eq (required : List String) (p : Property Schema) :
    literalDefault? p ((Server.Attribute.defaultOf (Field.ofProperty required p)).map fun v =>
        tokens .server (Server.literal v)) =
      ((Client.Member.ofField (Field.ofProperty required p)).propertyDefault?).map fun e =>
        (e.1, tokens .client (Client.literal e.2)) := by
  unfold literalDefault? Server.Attribute.defaultOf Client.Member.propertyDefault? Client.Member.ofField
    Field.ofProperty Property.presence
  by_cases hrequired : p.name ∈ required
  · cases p.default? <;> simp [hrequired]
  · cases p.default? <;> simp [hrequired]

theorem literalDefaults_declaredFields (properties : List (Property Schema)) (required : List String) :
    literalDefaults properties
        (Server.ModelClass.declaredFields (properties.map (Field.ofProperty required))) =
      (((properties.map (Field.ofProperty required)).map Client.Member.ofField).filterMap
        Client.Member.propertyDefault?).map fun e => (e.1, tokens .client (Client.literal e.2)) := by
  rw [literalDefaults, Server.ModelClass.defaults_declaredFields, List.map_map, List.zipWith_map_right,
    List.zipWith_self, List.map_filterMap, List.map_map, List.filterMap_map, List.reduceOption,
    List.filterMap_map]
  refine List.filterMap_congr fun p _ => ?_
  exact literalDefault?_eq required p

theorem sameObject_ofProperties (properties : List (Property Schema)) (required : List String) :
    SameObject properties required
      (Server.ModelClass.declaredFields (properties.map (Field.ofProperty required)))
      ((properties.map (Field.ofProperty required)).map fun f => (Client.Member.ofField f).declared) where
  distinct := by
    rw [Server.ModelClass.names_declaredFields]
    exact Name.nodup_assign _ _
  attributes := by
    rw [Server.ModelClass.properties_declaredFields, List.map_map]
    rfl
  keys := by
    rw [List.map_map, List.map_map]
    rfl
  withoutDefault := by
    have hdefaults := congrArg (List.map Option.isNone)
      (Server.ModelClass.defaults_declaredFields (properties.map (Field.ofProperty required)))
    rw [List.map_map, List.map_map, List.map_map] at hdefaults
    refine hdefaults.trans (List.map_congr_left fun p _ => Bool.eq_iff_iff.2 ?_)
    simp [defaultOf_eq_none_iff]
  withoutMark := by
    rw [List.map_map, List.map_map]
    refine List.map_congr_left fun p _ => ?_
    simp [← isOptional_eq_false_iff (p := p), Client.Member.declared]

/-- The declared objects are those among the components. -/
theorem Document.names_objects (h : doc.declarations = .ok declarations) :
    (declarations.filter Declaration.isObject).map Declaration.name = doc.objectNames := by
  have hobject (c : Component) : (Declaration.ofComponent c).isObject = c.schema.isObject := by
    cases hs : c.schema <;> simp [Declaration.isObject, Declaration.ofComponent, Shape.ofSchema,
      Schema.isObject, hs]
  rw [(declarations_ok_iff.1 h).2, List.filter_map, List.map_map, objectNames]
  simp only [Function.comp_def, hobject]
  rfl

/-- **Both files describe the same models**, for every document whose components have distinct declared
names, if no description of an alias ends a line of its comment early. -/
theorem same_models (h : doc.declarations = .ok declarations)
    (hcomments : ∀ a ∈ declarations.filterMap Server.ModelsFile.aliasOf?, a.CommentsOnly) :
    SameModels doc (Server.declaredIn (Server.ModelsFile.ofDeclarations declarations).render)
      (Client.declaredIn (Client.TypesFile.ofDeclarations declarations).render) := by
  have hn := Document.nodup_names_declarations h
  obtain ⟨-, hdeclarations⟩ := Document.declarations_ok_iff.1 h
  have hidents : ∀ d ∈ declarations, Name.isIdentifier d.name.toList := by
    intro d hd
    rw [hdeclarations] at hd
    obtain ⟨c, -, rfl⟩ := List.mem_map.1 hd
    exact Name.isIdentifier_declaration c.name
  obtain ⟨htypes, hinterfaces⟩ := Client.types_declarations declarations
  have hperm := Server.ModelsFile.declared_perm hn
  rw [Server.ModelsFile.declaredIn_ofDeclarations hidents hcomments, Client.TypesFile.declaredIn_render hidents]
  constructor
  · rw [Server.ModelsFile.names_declares, hperm.nodup_iff]
    exact hn
  · simp only [List.filterMap_cons, Client.Declared.typeName?, htypes, Server.ModelsFile.names_declares]
    exact hperm.symm.cons _
  · rw [Server.ModelsFile.modelNames_declares, Document.names_objects h]
  · rw [List.filterMap_cons_none rfl, hinterfaces, Document.names_objects h]
  · intro c hc properties required hschema
    have hd : Declaration.ofComponent c ∈ declarations := by
      rw [hdeclarations]
      exact List.mem_map_of_mem hc
    have hshape : (Declaration.ofComponent c).shape =
        .object (properties.map (Field.ofProperty required)) := by
      rw [Declaration.ofComponent, hschema]
      rfl
    refine ⟨_, _, Server.ModelsFile.model_mem_declares hd hshape, ?_,
      sameObject_ofProperties properties required, fun entries => ?_⟩
    · refine List.mem_cons_of_mem _ (List.mem_flatMap.2 ⟨_, hd, ?_⟩)
      rw [Client.ofDeclaration_object hshape]
      exact List.mem_cons_self
    · rw [literalDefaults_declaredFields, List.mem_cons, ← Client.constant_mem_declarations hn hd hshape]
      exact or_iff_right nofun

/-- A ticket has a class, which is required although it has a default, a state with a default, and maybe a
note. -/
def ticketDocument : Document where
  components := [
    ⟨"Tickets", some "All tickets", .array (.reference "Ticket")⟩,
    ⟨"Ticket", none, .object [
      ⟨"class", .primitive .string none, some (.string "A"), none, {}⟩,
      ⟨"state", .primitive .string none, some (.string "open"), none, {}⟩,
      ⟨"_note", .primitive .string none, none, none, {}⟩] ["class"]⟩]

/-- The declarations of `ticketDocument`. -/
def ticketDeclarations : List Declaration := ticketDocument.components.map Declaration.ofComponent

/-- Both files describe tickets, the only object. -/
theorem same_models_ticket : ticketDocument.declarations = .ok ticketDeclarations ∧
    SameModels ticketDocument (Server.declaredIn (Server.ModelsFile.ofDeclarations ticketDeclarations).render)
      (Client.declaredIn (Client.TypesFile.ofDeclarations ticketDeclarations).render) ∧
    ticketDocument.objectNames = ["Ticket"] := by
  have h : ticketDocument.declarations = .ok ticketDeclarations := by rfl
  have hcomments : ∀ a ∈ ticketDeclarations.filterMap Server.ModelsFile.aliasOf?, a.CommentsOnly := by
    intro a ha d hd
    obtain rfl := List.mem_singleton.1 ha
    obtain rfl := Option.some.inj hd
    decide +kernel
  refine ⟨h, same_models h hcomments, ?_⟩
  decide +kernel

/-- The types file declares the type of dates with times in any case, and the models file never does so
of its own accord. -/
theorem not_same_names_empty : ({} : Document).declarations = .ok [] ∧
    ∃ name ∈ (Client.declaredIn (Client.TypesFile.ofDeclarations []).render).filterMap
      Client.Declared.typeName?,
      name ∉ (Server.declaredIn (Server.ModelsFile.ofDeclarations []).render).map Server.Declared.name := by
  have hclient := @Client.TypesFile.declaredIn_render [] (by simp)
  have hserver := @Server.ModelsFile.declaredIn_ofDeclarations [] (by simp) (by simp)
  rw [hclient, hserver]
  exact ⟨rfl, Client.dateTimeName, List.mem_cons_self, List.not_mem_nil⟩

end ApiCodegen
