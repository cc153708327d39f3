import ApiCodegen.Proofs.Server.Declared

/-!
# Attributes hold properties

An attribute may need another name than its property: the name must be an identifier, no keyword, public,
and not that of an attribute before it. The property is then its alias, so that no property is lost.

* `IsAttributeName`, `attributeBase_eq_iff`: names that an attribute can have. **Such a name is asked for as
  it is.**
* `WrittenAttribute`, `attributesIn`, `PopulatesByName`: what is read from the text of a class: its
  attributes, and whether it admits their names beside the aliases.
* `ModelClass.attributesIn_text`, `ModelClass.populatesByName_text`: **what is read are the attributes of the
  class, and the names are admitted if there are aliases.**
* `Named`, `ModelClass.named_ofFields`: the attributes are those of the object, under the names made for them.
* `Holds`, `ModelClass.holds_ofFields`: **the attributes of a class hold the properties of the object, in
  order, under distinct names.**
-/

namespace ApiCodegen.Server

open Text

variable {name given : String} {fields : List Field}

/-! ## Names of attributes -/

/-- **A name that an attribute can have**: an identifier, no keyword, and no private name. -/
structure IsAttributeName (name : String) : Prop where
  legal : Name.Legal Name.serverReserved name
  isPublic : name.toList.head? ≠ some '_'

theorem isAttributeName_attributeBase (property : String) : IsAttributeName (attributeBase property) := by
  have hlegal := Name.legal_server property
  unfold attributeBase
  simp only
  split
  · rename_i hprivate
    -- the underscore stays behind the prefix, and no keyword has one
    have hunderscore : '_' ∈ ("field" ++ Name.server property).toList := by
      rw [String.toList_append]
      exact List.mem_append_right _ (List.mem_of_head? hprivate)
    refine ⟨⟨?_, Name.plain_server.not_mem hunderscore (by decide)⟩, ?_⟩
    · rw [String.toList_append]
      exact Name.isIdentifier_append (by decide) (Name.isIdentifier_iff.1 hlegal.1).2.2
    · rw [String.toList_append, List.head?_append_of_ne_nil _ (by decide)]
      decide
  · exact ⟨hlegal, ‹_›⟩

/-- **A name that an attribute can have is asked for as it is**, and no other name is. -/
theorem attributeBase_eq_iff : attributeBase name = name ↔ IsAttributeName name := by
  constructor
  · intro h
    rw [← h]
    exact isAttributeName_attributeBase name
  · intro h
    rw [attributeBase, Name.server_of_legal h.legal]
    exact if_neg h.isPublic

/-- Numbers keep names public. -/
theorem IsAttributeName.of_isFreshOf (h : IsAttributeName name) (hfresh : Name.IsFreshOf name given) :
    IsAttributeName given := by
  refine ⟨h.legal.of_isFreshOf Name.plain_server hfresh, ?_⟩
  obtain rfl | ⟨n, rfl⟩ := hfresh
  · exact h.isPublic
  · have hne : name.toList ≠ [] := (Name.isIdentifier_iff.1 h.legal.1).1
    rw [Name.toList_numbered, List.head?_append_of_ne_nil _ hne]
    exact h.isPublic

/-! ## Attributes of objects -/

/-- An attribute holds its property, whether this is its name or its alias. -/
theorem Attribute.property_declared (a : Attribute) : a.declared.property = a.property := by
  simp only [declared, alias?]
  split
  · exact ‹a.name = a.property›
  · rfl

namespace ModelClass

variable {description : Option String}

/-- The names that the attributes of some fields have. -/
def attributeNames (fields : List Field) : List String :=
  Name.assign [] (fields.map fun f => attributeBase f.name)

theorem length_attributeNames (fields : List Field) : (attributeNames fields).length = fields.length := by
  rw [attributeNames, Name.length_assign, List.length_map]

/-- What does not depend on the names is that of the fields. -/
theorem map_attributes {α : Type} {g : Attribute → α} {k : Field → α}
    (h : ∀ f given, g (.ofField f given) = k f) (fields : List Field) :
    (ofFields name description fields).attributes.map g = fields.map k := by
  have hfields := map_zipWith_left (f := fun f (_ : String) => f) (g := id) (fun _ _ => rfl)
    (length_attributeNames fields).symm
  rw [List.map_id] at hfields
  rw [ofFields, List.map_zipWith]
  simp only [h]
  rw [← List.map_zipWith (f := k) (g := fun f _ => f)]
  exact congrArg (List.map k) hfields

theorem names_attributes (fields : List Field) :
    (ofFields name description fields).attributes.map Attribute.name = attributeNames fields :=
  map_zipWith_right (fun _ _ => rfl) (length_attributeNames fields)

theorem isAttributeName_of_mem (h : given ∈ attributeNames fields) : IsAttributeName given := by
  obtain ⟨base, hbase, hfresh⟩ := Name.exists_of_mem_assign h
  obtain ⟨f, -, rfl⟩ := List.mem_map.1 hbase
  exact (isAttributeName_attributeBase f.name).of_isFreshOf hfresh

theorem proper_ofFields {a : Attribute} (ha : a ∈ (ofFields name description fields).attributes) :
    a.Proper := by
  obtain ⟨f, -, given, hgiven, rfl⟩ := exists_of_mem_zipWith ha
  exact ⟨(isAttributeName_of_mem hgiven).legal.1, TypeExpr.exists_eq_ofSchema f⟩

end ModelClass

/-! ## Reading a class -/

/-- An attribute as it is read: its name, and its alias if it has one. -/
structure WrittenAttribute where
  name : String
  alias? : Option String
  deriving DecidableEq

/-- The property that an attribute holds. -/
def WrittenAttribute.property (a : WrittenAttribute) : String := a.alias?.getD a.name

/-- The alias that the tokens behind the colon of an attribute give. -/
def writtenAlias? (ts : List Token) : Option String :=
  match ts.dropWhile fun t => t ≠ .mark '=' with
  | [] => none
  | _ :: value => (meaning value).1

/-- The attribute that a line of a class is, if it is one. -/
def attribute? : Line → Option WrittenAttribute
  | (0, _) => none
  | (_, .word name :: .mark ':' :: ts) => some ⟨name, writtenAlias? ts⟩
  | _ => none

/-- **The attributes in the text of a class.** -/
def attributesIn (text : String) : List WrittenAttribute :=
  (logicalLines (fileTokens .server text)).filterMap attribute?

/-- **Whether a class admits the names of its attributes as keys**, beside their aliases. -/
def PopulatesByName (text : String) : Prop :=
  ∃ l ∈ logicalLines (fileTokens .server text), 0 < l.1 ∧ l.2 = ModelClass.configTokens

/-- An attribute as it is written. -/
def Attribute.written (a : Attribute) : WrittenAttribute := ⟨a.name, a.alias?⟩

/-- **The line of an attribute is read as its name and its alias.** -/
theorem Attribute.IsLine.attribute?_eq {a : Attribute} {l : Line} (h : a.IsLine l) :
    attribute? l = some a.written := by
  obtain ⟨ts, rfl, hmeans⟩ := h
  have halias : writtenAlias? ts = a.alias? := by
    unfold writtenAlias?
    unfold Means at hmeans
    split
    · rename_i hnone
      rw [hnone] at hmeans
      exact hmeans.1.symm
    · rename_i hsome
      rw [hsome] at hmeans
      exact congrArg Prod.fst hmeans
  rw [attribute?, halias, written]
  exact Nat.succ_ne_zero 3

namespace ModelClass

variable {c : ModelClass}

/-- The text of a class. -/
def text (c : ModelClass) : String := ofLines c.lines

/-- **The text of a class is read as its first line and its body.** -/
theorem exists_logicalLines (hname : Name.isIdentifier c.name.toList) (h : ∀ a ∈ c.attributes, a.Proper) :
    ∃ ls, c.BodyLines ls ∧ logicalLines (fileTokens .server c.text) = (0, c.classTokens) :: ls := by
  obtain ⟨ls, hls, hbody⟩ := exists_bodyLines h
  have hclass := readLines_line (linesRead_class hname) (by simp [classTokens, startsLine])
  have hread : ReadLines c.lines ((0, c.classTokens) :: ls) := hclass.append hbody
  exact ⟨ls, hls, by rw [text, hread.read.fileTokens_eq, logicalLines_lineTokens hread.whole]⟩

theorem attributesIn_text (hname : Name.isIdentifier c.name.toList) (h : ∀ a ∈ c.attributes, a.Proper) :
    attributesIn c.text = c.attributes.map Attribute.written := by
  obtain ⟨ls, hls, hlines⟩ := exists_logicalLines hname h
  have hconfig : c.configRead.filterMap attribute? = [] := by
    unfold configRead
    split <;> rfl
  rw [attributesIn, hlines, List.filterMap_cons_none rfl,
    hls.filterMap (fun t => by cases t <;> rfl) fun a l hl => hl.attribute?_eq, hconfig, List.nil_append]

/-- **Names are admitted if there are aliases**: no other line of a class is read as the one that does so. -/
theorem populatesByName_text (hname : Name.isIdentifier c.name.toList) (h : ∀ a ∈ c.attributes, a.Proper) :
    PopulatesByName c.text ↔ c.hasAliases := by
  obtain ⟨ls, ⟨front, attributes, rfl, htokens, hattributes⟩, hlines⟩ := exists_logicalLines hname h
  rw [PopulatesByName, hlines]
  constructor
  · rintro ⟨l, hl, hindent, hconfig⟩
    simp only [List.mem_cons, List.mem_append] at hl
    rcases hl with rfl | hl | hl | hl
    · exact absurd hindent (lt_irrefl 0)
    · obtain ⟨t, rfl⟩ := htokens l hl
      cases hconfig
    · unfold configRead at hl
      split at hl
      · assumption
      · exact absurd hl List.not_mem_nil
    · obtain ⟨a, ts, rfl, -⟩ := Attribute.exists_isLine_of_mem hattributes hl
      simp [configTokens] at hconfig
  · intro haliases
    have hmem : (4, configTokens) ∈ c.configRead := by
      rw [configRead, if_pos haliases]
      exact List.mem_cons_self
    refine ⟨(4, configTokens), ?_, Nat.succ_pos 3, rfl⟩
    exact List.mem_cons_of_mem _ (List.mem_append_right _ (List.mem_append_left _ hmem))

end ModelClass

/-- What is read from the text of the class of an object. -/
theorem ModelClass.attributesIn_ofFields (component : String) (description : Option String)
    (fields : List Field) :
    attributesIn (ofFields (Name.declaration component) description fields).text =
      (ofFields (Name.declaration component) description fields).attributes.map Attribute.written :=
  attributesIn_text (Name.isIdentifier_declaration component) fun _ ha => proper_ofFields ha

theorem ModelClass.populatesByName_ofFields (component : String) (description : Option String)
    (fields : List Field) : PopulatesByName (ofFields (Name.declaration component) description fields).text ↔
      (ofFields (Name.declaration component) description fields).hasAliases :=
  populatesByName_text (Name.isIdentifier_declaration component) fun _ ha => proper_ofFields ha

/-- **Some attributes are those of some fields**, under the names that are made for these. -/
structure Named (written : List WrittenAttribute) (fields : List Field) : Prop where
  properties : written.map WrittenAttribute.property = fields.map Field.name
  names : written.map WrittenAttribute.name = ModelClass.attributeNames fields
  aliases : ∀ (i : ℕ) (a : WrittenAttribute) (f : Field), written[i]? = some a → fields[i]? = some f →
    a.alias? = if a.name = f.name then none else some f.name

section Named

variable {written : List WrittenAttribute} {a : WrittenAttribute}

theorem Named.nodup_names (h : Named written fields) : (written.map WrittenAttribute.name).Nodup := by
  rw [h.names]
  exact Name.nodup_assign _ _

theorem Named.isAttributeName (h : Named written fields) (ha : a ∈ written) : IsAttributeName a.name := by
  have hmem : a.name ∈ ModelClass.attributeNames fields := by
    rw [← h.names]
    exact List.mem_map_of_mem ha
  exact ModelClass.isAttributeName_of_mem hmem

end Named

/-- **The class of an object has its attributes**, as far as its text is read. -/
theorem ModelClass.named_ofFields (component : String) (description : Option String) (fields : List Field) :
    Named (attributesIn (ofFields (Name.declaration component) description fields).text) fields := by
  rw [attributesIn_ofFields]
  constructor
  · rw [List.map_map]
    exact map_attributes (fun f given => (Attribute.ofField f given).property_declared) fields
  · rw [List.map_map]
    exact names_attributes fields
  · intro i a f ha hf
    rw [List.getElem?_map, Option.map_eq_some_iff] at ha
    obtain ⟨b, hb, rfl⟩ := ha
    obtain ⟨g, given, hg, -, rfl⟩ := List.getElem?_zipWith_eq_some.1 hb
    obtain rfl := Option.some.inj (hg.symm.trans hf)
    rfl

/-- **Some attributes hold the properties of some fields.** -/
structure Holds (written : List WrittenAttribute) (fields : List Field) : Prop where
  /-- There is one attribute for each property, in order. -/
  properties : written.map WrittenAttribute.property = fields.map Field.name
  distinct : (written.map WrittenAttribute.name).Nodup
  names : ∀ a ∈ written, IsAttributeName a.name
  /-- An attribute has an alias if its name is not that of its property, and only then. -/
  aliases : ∀ (i : ℕ) (a : WrittenAttribute) (f : Field), written[i]? = some a → fields[i]? = some f →
    a.alias? = if a.name = f.name then none else some f.name

/-- **The attributes of a class hold the properties of the object**, whatever their names are. -/
theorem ModelClass.holds_ofFields (component : String) (description : Option String) (fields : List Field) :
    Holds (attributesIn (ofFields (Name.declaration component) description fields).text) fields := by
  have hnamed := named_ofFields component description fields
  exact ⟨hnamed.properties, hnamed.nodup_names, fun a ha => hnamed.isAttributeName ha, hnamed.aliases⟩

end ApiCodegen.Server
