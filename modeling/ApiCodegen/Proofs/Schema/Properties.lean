import ApiCodegen.Proofs.FirstSeen
import ApiCodegen.Proofs.Markup.Keys
import ApiCodegen.Proofs.Schema.Reading

/-!
# The properties of an object

The properties of an object are those of the entries that describe them, one by one. They are told apart
by name, and the name of a property is the text of its key. Keys that differ as values may have one text,
and then the later entry takes the place of the earlier one.

* `Schema.names_foldl_addProperty`, `Schema.find?_foldl_addProperty`: **properties stand where their names
  are seen first, and are those that are given last.**
* `Schema.foldl_addProperty_iff`: all of them are kept, in order, if and only if no name is repeated.
* `Schema.DescribesProperty`: a property is described by an entry.
* `Schema.properties_parseObject`: **an object has a property for every entry if and only if no two keys
  have one text**; in general it has one for every text.
-/

namespace ApiCodegen.Schema

open Markup Reported

variable {known properties : List (Property Schema)} {p : Property Schema} {entries : Entries}
  {name location : String} {s : Schema}

/-! ## Adding properties -/

theorem addProperty_of_not_mem (h : p.name ∉ known.map Property.name) :
    addProperty known p = known ++ [p] := by
  induction known with
  | nil => rfl
  | cons other known ih =>
    rw [List.map_cons, List.mem_cons, not_or] at h
    rw [addProperty, if_neg (Ne.symm h.1), ih h.2, List.cons_append]

theorem names_addProperty_of_mem (h : p.name ∈ known.map Property.name) :
    (addProperty known p).map Property.name = known.map Property.name := by
  induction known with
  | nil => cases h
  | cons other known ih =>
    rw [addProperty]
    split
    · rename_i hsame
      rw [List.map_cons, List.map_cons, hsame]
    · rename_i hne
      rw [List.map_cons, ih ((List.mem_cons.1 h).resolve_left (Ne.symm hne)), List.map_cons]

/-- **Properties stand where their names are seen first.** -/
theorem names_foldl_addProperty (h : (known.map Property.name).Nodup) (properties : List (Property Schema)) :
    (properties.foldl addProperty known).map Property.name =
      (known.map Property.name ++ properties.map Property.name).eraseDups := by
  induction properties generalizing known with
  | nil => rw [List.foldl_nil, List.map_nil, List.append_nil, eraseDups_of_nodup h]
  | cons p properties ih =>
    rw [List.foldl_cons, List.map_cons]
    by_cases hmem : p.name ∈ known.map Property.name
    · have hnames := names_addProperty_of_mem hmem
      rw [ih (hnames ▸ h), hnames, eraseDups_append_cons_of_mem hmem]
    · have hnodup : ((known ++ [p]).map Property.name).Nodup :=
        nodup_map_concat_iff.2 ⟨h, fun q hq heq => hmem (heq ▸ List.mem_map_of_mem hq)⟩
      rw [addProperty_of_not_mem hmem, ih hnodup, List.map_append, List.append_assoc]
      rfl

theorem names_foldl_nil (properties : List (Property Schema)) :
    (properties.foldl addProperty []).map Property.name = (properties.map Property.name).eraseDups := by
  have hnil : (([] : List (Property Schema)).map Property.name).Nodup := List.nodup_nil
  exact names_foldl_addProperty hnil properties

theorem find?_addProperty (known : List (Property Schema)) (p : Property Schema) (name : String) :
    (addProperty known p).find? (fun q => q.name = name) =
      if p.name = name then some p else known.find? fun q => q.name = name := by
  induction known with
  | nil => by_cases h : p.name = name <;> simp [addProperty, h]
  | cons other known ih =>
    by_cases hsame : other.name = p.name
    · rw [addProperty, if_pos hsame]
      by_cases h : p.name = name <;> simp [hsame, h]
    · rw [addProperty, if_neg hsame]
      by_cases h : other.name = name
      · have hp : p.name ≠ name := fun hp => hsame (h.trans hp.symm)
        simp [h, hp]
      · rw [List.find?_cons_of_neg (by simpa using h), ih, List.find?_cons_of_neg (by simpa using h)]

/-- **Of the properties of one name, the last one is kept.** -/
theorem find?_foldl_addProperty (known properties : List (Property Schema)) (name : String) :
    (properties.foldl addProperty known).find? (fun q => q.name = name) =
      (properties.reverse.find? fun q => q.name = name).or (known.find? fun q => q.name = name) := by
  induction properties generalizing known with
  | nil => rfl
  | cons p properties ih =>
    rw [List.foldl_cons, ih, find?_addProperty, List.reverse_cons, List.find?_append, Option.or_assoc]
    by_cases h : p.name = name <;> simp [h]

/-- Of properties with different names, each is found by its name. -/
theorem find?_of_mem (h : (known.map Property.name).Nodup) (hp : p ∈ known) :
    known.find? (fun q => q.name = p.name) = some p := by
  cases hfind : known.find? fun q => q.name = p.name with
  | none => exact absurd (decide_eq_true rfl) (List.find?_eq_none.1 hfind p hp)
  | some q =>
    have hname : q.name = p.name := by simpa using List.find?_some hfind
    rw [List.inj_on_of_nodup_map h (List.mem_of_find?_eq_some hfind) hp hname]

/-- Without repetitions, every property is added at the end. -/
theorem foldl_addProperty_of_nodup (h : ((known ++ properties).map Property.name).Nodup) :
    properties.foldl addProperty known = known ++ properties := by
  induction properties generalizing known with
  | nil => exact (List.append_nil known).symm
  | cons p properties ih =>
    have hsplit : known ++ p :: properties = (known ++ [p]) ++ properties := by simp
    rw [hsplit] at h ⊢
    have hnew : p.name ∉ known.map Property.name := by
      rw [List.map_append] at h
      intro hmem
      obtain ⟨q, hq, heq⟩ := List.mem_map.1 hmem
      exact (nodup_map_concat_iff.1 h.of_append_left).2 q hq heq
    rw [List.foldl_cons, addProperty_of_not_mem hnew, ih h]

/-- **All properties are kept if and only if no name is repeated**: each in its place, and already if
there are as many as were given. -/
theorem foldl_addProperty_iff (properties : List (Property Schema)) :
    (properties.foldl addProperty [] = properties ↔ (properties.map Property.name).Nodup) ∧
      ((properties.foldl addProperty []).length = properties.length ↔
        (properties.map Property.name).Nodup) := by
  have hlength : (properties.foldl addProperty []).length = properties.length ↔
      (properties.map Property.name).Nodup := by
    rw [← length_eraseDups_eq_iff, ← names_foldl_nil, List.length_map, List.length_map]
  refine ⟨⟨fun h => ?_, fun h => ?_⟩, hlength⟩
  · rw [← hlength, h]
  · have hnodup : (([] ++ properties).map Property.name).Nodup := h
    exact foldl_addProperty_of_nodup hnodup

/-! ## Reading properties -/

/-- The entries under `properties`. -/
def propertyEntries (entries : Entries) : Entries :=
  ((entries.get? "properties").bind Value.entries?).getD []

/-- The texts of the keys under `properties`. -/
def propertyNames (entries : Entries) : List String :=
  (propertyEntries entries).filterMap fun entry => entry.1.name?

/-- **An entry describes a property**: its key is the name, and its value says the rest. -/
structure DescribesProperty (location : String) (entry : Value × Value) (p : Property Schema) : Prop where
  name : entry.1.name? = some p.name
  schema : (parse entry.2 (propertyLocation location p.name)).outcome = .ok p.schema
  around : p = propertyOf p.name entry.2 p.schema

/-- Every entry describes a property. -/
theorem describes_parseProperties (entries : Entries) (location : String) :
    (parseProperties entries location).Yields fun properties =>
      List.Forall₂ (DescribesProperty location) entries properties := by
  induction entries with
  | nil =>
    rw [parseProperties]
    exact yields_pure .nil
  | cons entry entries ih =>
    obtain ⟨key, node⟩ := entry
    rw [parseProperties]
    split
    · exact yields_fail
    · rename_i name hname
      have hnode : (parse node (propertyLocation location name)).Yields fun schema =>
          DescribesProperty location (key, node) (propertyOf name node schema) :=
        fun schema hschema => ⟨hname, hschema, rfl⟩
      exact hnode.bind fun schema hschema => ih.bind fun properties hproperties =>
        yields_pure (.cons hschema hproperties)

theorem describes_propertiesOf (entries : Entries) (location : String) :
    (propertiesOf entries location).Yields fun properties =>
      List.Forall₂ (DescribesProperty location) (propertyEntries entries) properties := by
  unfold propertiesOf propertyEntries
  split
  · rename_i value hvalue
    split
    · rename_i inner hinner
      rw [hvalue, Option.bind_some, hinner]
      exact describes_parseProperties inner location
    · exact yields_fail
  · rename_i hnone
    rw [hnone]
    exact yields_pure .nil

theorem names_of_describes (h : List.Forall₂ (DescribesProperty location) entries properties) :
    entries.filterMap (fun entry => entry.1.name?) = properties.map Property.name := by
  induction h with
  | nil => rfl
  | cons hentry _ ih => simp only [List.filterMap_cons, hentry.name, ih, List.map_cons]

/-- Keys that are strings have different texts, for the reader refuses equal keys. -/
theorem nodup_propertyNames_of_strings (hkeyed : (Value.mapping entries).Keyed)
    (hstrings : ∀ entry ∈ propertyEntries entries, ∃ name, entry.1 = .string name) :
    (propertyNames entries).Nodup := by
  have hdiff : (propertyEntries entries).Pairwise fun e f => e.1.same f.1 = false := by
    unfold propertyEntries
    cases hentries : (entries.get? "properties").bind Value.entries? with
    | none => exact List.Pairwise.nil
    | some inner =>
      obtain ⟨value, hvalue, hinner⟩ := Option.bind_eq_some_iff.1 hentries
      exact ((hkeyed.get? hvalue).entries? hinner).pairwise
  refine List.pairwise_filterMap.2 (hdiff.imp_of_mem ?_)
  rintro e f he hf hdiff name hname other hother rfl
  obtain ⟨text, htext⟩ := hstrings e he
  obtain ⟨text', htext'⟩ := hstrings f hf
  rw [htext] at hname hdiff
  rw [htext'] at hother hdiff
  obtain rfl : text = text' := Option.some.inj (hname.trans hother.symm)
  simp [Value.same] at hdiff

/-- **When no property of an object is lost.** Each entry describes a property, and the object has those that
are left of them when of one name the last is kept, where the first one stood.

* Each entry has its own property, in order, exactly if no two keys have one text.
* So it is exactly if there are as many properties as entries.
* So it is if the keys of a mapping that was read are strings. -/
theorem properties_parseObject (h : (parseObject entries location).outcome = .ok s) :
    ∃ described properties, List.Forall₂ (DescribesProperty location) (propertyEntries entries) described ∧
      s = .object properties (requiredOf entries) ∧
      properties.map Property.name = (propertyNames entries).eraseDups ∧
      (∀ p ∈ properties, described.reverse.find? (fun q => q.name = p.name) = some p) ∧
      (properties = described ↔ (propertyNames entries).Nodup) ∧
      (properties.length = (propertyEntries entries).length ↔ (propertyNames entries).Nodup) ∧
      ((Value.mapping entries).Keyed →
        (∀ entry ∈ propertyEntries entries, ∃ name, entry.1 = .string name) → properties = described) := by
  rw [parseObject_eq] at h
  obtain ⟨described, hread, hs⟩ := Reported.bind_ok h
  have hdescribed := describes_propertiesOf entries location described hread
  have hnames : propertyNames entries = described.map Property.name := names_of_describes hdescribed
  obtain ⟨hkept, hlength⟩ := foldl_addProperty_iff described
  have hfold : (described.foldl addProperty []).map Property.name = (propertyNames entries).eraseDups := by
    rw [names_foldl_nil, hnames]
  rw [← hnames] at hkept hlength
  refine ⟨described, described.foldl addProperty [], hdescribed, (Except.ok.inj hs).symm, hfold, ?_, hkept,
    ?_, fun hkeyed hstrings => hkept.2 (nodup_propertyNames_of_strings hkeyed hstrings)⟩
  · intro p hp
    have hnodup : ((described.foldl addProperty []).map Property.name).Nodup := by
      rw [hfold]
      exact nodup_eraseDups _
    -- a property is the one of its name, which is the last one that was given
    have hfind := find?_foldl_addProperty [] described p.name
    rwa [List.find?_nil, Option.or_none, find?_of_mem hnodup hp, eq_comm] at hfind
  · rw [hdescribed.length_eq]
    exact hlength

/-! ## A number and a string as keys -/

/-- The entries of an object with two properties, under the number `1` and under a string. -/
def pairUnder (key : String) : Entries :=
  [(.string "properties",
    .mapping [(.number (.whole 1), typeNamed "string"), (.string key, typeNamed "integer")])]

/-- A property of a primitive type, of which nothing else is said. -/
def propertyUnder (name : String) (kind : Kind) : Property Schema :=
  ⟨name, .primitive kind none, none, none, {}⟩

/-- Both properties are read, and the second one is added to the first. -/
theorem parse_pairUnder (key : String) : (parseObject (pairUnder key) "x").outcome =
    .ok (.object (addProperty [propertyUnder "1" .string] (propertyUnder key .integer)) []) := by
  have hone : (Value.number (.whole 1)).name? = some "1" := by decide +kernel
  have hproperties : propertiesOf (pairUnder key) "x" =
      parseProperties [(.number (.whole 1), typeNamed "string"), (.string key, typeNamed "integer")] "x" := rfl
  have hstring (location : String) : parse (typeNamed "string") location =
      ⟨[], .ok (.primitive .string none)⟩ := by
    rw [parse_typeNamed, parseTyped_eq]
    rfl
  have hinteger (location : String) : parse (typeNamed "integer") location =
      ⟨[], .ok (.primitive .integer none)⟩ := by
    rw [parse_typeNamed, parseTyped_eq]
    rfl
  rw [parseObject_eq, hproperties, parseProperties, hone]
  simp only [hstring, Reported.ok_bind, parseProperties, Value.name?, hinteger, Reported.pure_eq]
  rfl

/-- Under the number `1` and the string `1` there is one property, that of the string; under the string `2`
there is a second one. -/
theorem properties_parseObject_pair :
    ((parseObject (pairUnder "1") "x").outcome = .ok (.object [propertyUnder "1" .integer] []) ∧
      (propertyEntries (pairUnder "1")).length = 2 ∧ ¬ (propertyNames (pairUnder "1")).Nodup) ∧
    (parseObject (pairUnder "2") "x").outcome =
      .ok (.object [propertyUnder "1" .string, propertyUnder "2" .integer] []) ∧
    List.Forall₂ (DescribesProperty "x") (propertyEntries (pairUnder "2"))
      [propertyUnder "1" .string, propertyUnder "2" .integer] := by
  have hone : (parseObject (pairUnder "1") "x").outcome = .ok (.object [propertyUnder "1" .integer] []) :=
    parse_pairUnder "1"
  have htwo : (parseObject (pairUnder "2") "x").outcome =
      .ok (.object [propertyUnder "1" .string, propertyUnder "2" .integer] []) := parse_pairUnder "2"
  refine ⟨⟨hone, rfl, ?_⟩, htwo, ?_⟩
  · obtain ⟨described, properties, -, hs, -, -, -, hlength, -⟩ := properties_parseObject hone
    obtain rfl := (Schema.object.inj hs).1
    rw [← hlength]
    decide
  · obtain ⟨described, properties, hdescribed, hs, hnames, -, hkept, -⟩ := properties_parseObject htwo
    obtain rfl := (Schema.object.inj hs).1
    have htexts : propertyNames (pairUnder "2") = ["1", "2"] := by decide +kernel
    rwa [← hkept.2 (htexts ▸ by decide)] at hdescribed

end ApiCodegen.Schema
