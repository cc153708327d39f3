import ApiCodegen.Proofs.Server.Attributes

/-!
# Keys of the input

A class with aliases is populated by the names of its attributes as well. The names are kept apart, and so
are the properties, but a property may be what an attribute is called that holds another property.

* `WrittenAttribute.keys`: the keys that populate an attribute.
* `Named.exists_earlier`: **a property gets another name than its own only because an attribute before it is
  called so**, if an attribute can be called so at all.
* `Named.shared_iff`, `Named.pairwise_disjoint_iff`: **two attributes share the name of the earlier one if it
  is the alias of the later one**, and nothing else, so the keys are apart if no alias can be a name.
* `InputKeys`, `ModelClass.inputKeys_ofFields`: **which keys the attributes of a class share.**
* `not_disjoint_keys_box`: a class in which two attributes share a key.
-/

namespace ApiCodegen.Server

variable {written : List WrittenAttribute} {fields : List Field} {a b : WrittenAttribute} {i j : ℕ}
  {key : String}

namespace WrittenAttribute

/-- **The keys that populate an attribute**, if its class admits the names of attributes. -/
def keys (a : WrittenAttribute) : List String := a.name :: a.alias?.toList

theorem mem_keys_iff : key ∈ a.keys ↔ a.name = key ∨ a.property = key := by
  unfold keys property
  cases a.alias? with
  | none => simp [eq_comm]
  | some p => simp [eq_comm]

end WrittenAttribute

/-- What has distinct values has one place. -/
theorem eq_of_getElem?_map {α β : Type} {f : α → β} {as : List α} {x y : α} (hn : (as.map f).Nodup)
    (hx : as[i]? = some x) (hy : as[j]? = some y) (h : f x = f y) : i = j := by
  have hi : (as.map f)[i]? = some (f y) := by rw [List.getElem?_map, hx, ← h, Option.map_some]
  have hj : (as.map f)[j]? = some (f y) := by rw [List.getElem?_map, hy, Option.map_some]
  exact (List.getElem?_inj (List.getElem?_eq_some_iff.1 hi).1 hn).1 (hi.trans hj.symm)

namespace Named

/-- The field that an attribute holds. -/
theorem exists_field (h : Named written fields) (ha : written[i]? = some a) :
    ∃ f, fields[i]? = some f ∧ f.name = a.property := by
  have hproperty : (fields.map Field.name)[i]? = some a.property := by
    rw [← h.properties, List.getElem?_map, ha]
    rfl
  rw [List.getElem?_map] at hproperty
  exact Option.map_eq_some_iff.1 hproperty

/-- No two attributes have one name. -/
theorem eq_of_name (h : Named written fields) (ha : written[i]? = some a) (hb : written[j]? = some b)
    (hname : a.name = b.name) : i = j :=
  eq_of_getElem?_map h.nodup_names ha hb hname

/-- No two attributes hold one property. -/
theorem eq_of_property (h : Named written fields) (hn : (fields.map Field.name).Nodup)
    (ha : written[i]? = some a) (hb : written[j]? = some b) (hproperty : a.property = b.property) :
    i = j := by
  rw [← h.properties] at hn
  exact eq_of_getElem?_map hn ha hb hproperty

theorem alias?_eq_some_iff (h : Named written fields) (ha : written[i]? = some a) :
    a.alias? = some key ↔ a.property = key ∧ a.name ≠ key := by
  obtain ⟨f, hf, hfield⟩ := h.exists_field ha
  have halias := h.aliases i a f ha hf
  rw [hfield] at halias
  rw [halias]
  split
  · rename_i hname
    simp only [reduceCtorEq, false_iff, not_and, not_not]
    exact fun hproperty => hname.trans hproperty
  · rename_i hname
    rw [Option.some.injEq]
    refine ⟨?_, And.left⟩
    rintro rfl
    exact ⟨rfl, hname⟩

/-- **A property gets another name only because an attribute before it has its name**, if an attribute can
have that name. -/
theorem exists_earlier (h : Named written fields) (hb : written[j]? = some b)
    (hname : IsAttributeName b.property) (hne : b.name ≠ b.property) :
    ∃ i < j, ∃ a, written[i]? = some a ∧ a.name = b.property := by
  obtain ⟨f, hf, hfield⟩ := h.exists_field hb
  have hasked : (fields.map fun f => attributeBase f.name)[j]? = some b.property := by
    rw [List.getElem?_map, hf]
    have hbase : attributeBase f.name = b.property := by rw [hfield, attributeBase_eq_iff.2 hname]
    exact congrArg some hbase
  have hgiven : (ModelClass.attributeNames fields)[j]? = some b.name := by
    rw [← h.names, List.getElem?_map, hb]
    rfl
  have htaken : b.property ∈ (ModelClass.attributeNames fields).take j := by
    by_contra hfree
    have hkept := (Name.getElem?_assign_eq_iff hasked []).2 ⟨List.not_mem_nil, hfree⟩
    exact hne (Option.some.inj (hgiven.symm.trans hkept))
  obtain ⟨i, hi, hthere⟩ := Name.mem_take_iff.1 htaken
  rw [← h.names, List.getElem?_map] at hthere
  obtain ⟨a, ha, hsame⟩ := Option.map_eq_some_iff.1 hthere
  exact ⟨i, hi, a, ha, hsame⟩

/-- **What two attributes share** is the name of the earlier one, as the alias of the later one. -/
theorem shared_iff (h : Named written fields) (hn : (fields.map Field.name).Nodup) (hij : i < j)
    (ha : written[i]? = some a) (hb : written[j]? = some b) :
    key ∈ a.keys ∧ key ∈ b.keys ↔ a.name = key ∧ b.alias? = some key := by
  rw [h.alias?_eq_some_iff hb, WrittenAttribute.mem_keys_iff, WrittenAttribute.mem_keys_iff]
  constructor
  · rintro ⟨hkey | hkey, hother | hother⟩
    · exact absurd (h.eq_of_name ha hb (hkey.trans hother.symm)) hij.ne
    · refine ⟨hkey, hother, fun hname => hij.ne ?_⟩
      exact h.eq_of_name ha hb (hkey.trans hname.symm)
    · -- the earlier one was not given its own name, so a third one before it has the name of the later one
      exfalso
      have hproperty : a.property = b.name := hkey.trans hother.symm
      have hname : IsAttributeName a.property := by
        rw [hproperty]
        exact h.isAttributeName (List.mem_of_getElem? hb)
      have hne : a.name ≠ a.property := by
        intro heq
        exact hij.ne (h.eq_of_name ha hb (heq.trans hproperty))
      obtain ⟨k, hk, c, hc, hthird⟩ := h.exists_earlier ha hname hne
      have hkj : k = j := h.eq_of_name hc hb (hthird.trans hproperty)
      omega
    · exact absurd (h.eq_of_property hn ha hb (hkey.trans hother.symm)) hij.ne
  · rintro ⟨hkey, hproperty, -⟩
    exact ⟨.inl hkey, .inr hproperty⟩

/-- **An alias is the name of an attribute before it** if an attribute can have that name, and only then. -/
theorem alias_earlier_iff (h : Named written fields) (hb : written[j]? = some b) (halias : b.alias? = some key) :
    (∃ i < j, ∃ a, written[i]? = some a ∧ a.name = key) ↔ IsAttributeName key := by
  obtain ⟨rfl, hne⟩ := (h.alias?_eq_some_iff hb).1 halias
  constructor
  · rintro ⟨i, -, a, ha, hname⟩
    rw [← hname]
    exact h.isAttributeName (List.mem_of_getElem? ha)
  · intro hname
    exact h.exists_earlier hb hname hne

/-- **The keys are apart** if no alias is a name that an attribute can have, and only then. -/
theorem pairwise_disjoint_iff (h : Named written fields) (hn : (fields.map Field.name).Nodup) :
    (written.map WrittenAttribute.keys).Pairwise List.Disjoint ↔
      ∀ a ∈ written, ∀ key ∈ a.alias?, ¬ IsAttributeName key := by
  rw [List.pairwise_map, List.pairwise_iff_getElem]
  constructor
  · intro hdisjoint b hb key halias hname
    obtain ⟨j, hj⟩ := List.mem_iff_getElem?.1 hb
    obtain ⟨i, hij, a, ha, hkey⟩ := (h.alias_earlier_iff hj halias).2 hname
    obtain ⟨hi, hget⟩ := List.getElem?_eq_some_iff.1 ha
    obtain ⟨hj', hget'⟩ := List.getElem?_eq_some_iff.1 hj
    obtain ⟨hfirst, hsecond⟩ := (h.shared_iff hn hij ha hj).2 ⟨hkey, halias⟩
    rw [← hget] at hfirst
    rw [← hget'] at hsecond
    exact hdisjoint i j hi hj' hij hfirst hsecond
  · intro hnone i j hi hj hij key hkey hother
    have ha := List.getElem?_eq_getElem hi
    have hb := List.getElem?_eq_getElem hj
    obtain ⟨hname, halias⟩ := (h.shared_iff hn hij ha hb).1 ⟨hkey, hother⟩
    refine hnone _ (List.getElem_mem hj) key halias ?_
    exact (h.alias_earlier_iff hb halias).1 ⟨i, hij, _, ha, hname⟩

end Named

/-- A number ends in a digit, so it does not make a name that ends in a letter. -/
theorem eq_of_isFreshOf_config {name : String} (h : Name.IsFreshOf name "model_config") :
    name = "model_config" := by
  obtain h | ⟨n, h⟩ := h
  · exact h.symm
  · have hchars := congrArg String.toList h
    rw [Name.toList_numbered] at hchars
    have hlast : ('_' :: (toString n).toList).getLast? = some 'g' := by
      rw [← List.getLast?_append_of_ne_nil name.toList (List.cons_ne_nil _ _), ← hchars]
      rfl
    rcases List.mem_cons.1 (List.mem_of_getLast? hlast) with hg | hg
    · cases hg
    · exact absurd (Name.isDigit_of_mem_toString hg) (by decide)

/-- **No attribute is called as the configuration of its class**, unless a property asks for that name. -/
theorem Named.ne_config (h : Named written fields)
    (hnone : ∀ f ∈ fields, attributeBase f.name ≠ "model_config") :
    ∀ a ∈ written, a.name ≠ "model_config" := by
  intro a ha hconfig
  have hmem : a.name ∈ ModelClass.attributeNames fields := by
    rw [← h.names]
    exact List.mem_map_of_mem ha
  rw [hconfig] at hmem
  obtain ⟨base, hbase, hfresh⟩ := Name.exists_of_mem_assign hmem
  obtain ⟨f, hf, rfl⟩ := List.mem_map.1 hbase
  exact hnone f hf (eq_of_isFreshOf_config hfresh)

/-- **Which keys the attributes of a class share**, for a class that holds the properties of some fields. -/
structure InputKeys (text : String) (fields : List Field) : Prop where
  /-- Names are admitted beside aliases if there are aliases. -/
  populates : PopulatesByName text ↔ ∃ a ∈ attributesIn text, a.alias?.isSome
  shared : ∀ (i j : ℕ) (a b : WrittenAttribute) (key : String), i < j →
    (attributesIn text)[i]? = some a → (attributesIn text)[j]? = some b →
    (key ∈ a.keys ∧ key ∈ b.keys ↔ a.name = key ∧ b.alias? = some key)
  taken : ∀ (j : ℕ) (b : WrittenAttribute) (key : String), (attributesIn text)[j]? = some b →
    b.alias? = some key →
    ((∃ i < j, ∃ a, (attributesIn text)[i]? = some a ∧ a.name = key) ↔ IsAttributeName key)
  /-- So the keys are apart unless an attribute could have been called by its alias. -/
  disjoint_iff : ((attributesIn text).map WrittenAttribute.keys).Pairwise List.Disjoint ↔
    ∀ a ∈ attributesIn text, ∀ key ∈ a.alias?, ¬ IsAttributeName key
  config : (∀ f ∈ fields, attributeBase f.name ≠ "model_config") →
    ∀ a ∈ attributesIn text, a.name ≠ "model_config"

namespace ModelClass

/-- Names are admitted beside aliases if there are aliases. -/
theorem populatesByName_iff (component : String) (description : Option String) (fields : List Field) :
    PopulatesByName (ofFields (Name.declaration component) description fields).text ↔
      ∃ a ∈ attributesIn (ofFields (Name.declaration component) description fields).text, a.alias?.isSome := by
  rw [populatesByName_ofFields, attributesIn_ofFields, hasAliases, List.any_eq_true]
  simp [Attribute.written]

/-- **Which keys the attributes of a class share.** A key populates two attributes if it is the name of the
earlier one and the alias of the later one. An alias is such a name if an attribute can have it. -/
theorem inputKeys_ofFields (component : String) (description : Option String)
    (hn : (fields.map Field.name).Nodup) :
    InputKeys (ofFields (Name.declaration component) description fields).text fields := by
  have hnamed := named_ofFields component description fields
  exact {
    populates := populatesByName_iff component description fields
    shared := fun i j a b key hij ha hb => hnamed.shared_iff hn hij ha hb
    taken := fun j b key hb halias => hnamed.alias_earlier_iff hb halias
    disjoint_iff := hnamed.pairwise_disjoint_iff hn
    config := hnamed.ne_config }

end ModelClass

/-! ## Boxes -/

/-- A box has a property with a dash, one with an underscore for it, and one that is called as the
configuration of classes is. -/
def boxFields : List Field :=
  ["a-b", "a_b", "model_config"].map fun name => ⟨name, .primitive .string none, .absent, none, {}⟩

/-- The text of the class for boxes. -/
def boxText : String := (ModelClass.ofFields (Name.declaration "Box") none boxFields).text

/-- The attributes of boxes. -/
theorem attributesIn_box :
    attributesIn boxText = [⟨"a_b", some "a-b"⟩, ⟨"a_b_1", some "a_b"⟩, ⟨"model_config", none⟩] := by
  have hwritten : (ModelClass.ofFields (Name.declaration "Box") none boxFields).attributes.map
      Attribute.written = [⟨"a_b", some "a-b"⟩, ⟨"a_b_1", some "a_b"⟩, ⟨"model_config", none⟩] := by
    decide +kernel
  rw [boxText, ModelClass.attributesIn_ofFields, hwritten]

/-- In boxes the key of the second property is the name for the first one. -/
theorem inputKeys_box : (boxFields.map Field.name).Nodup ∧ InputKeys boxText boxFields ∧
    ∃ i < 1, ∃ a, (attributesIn boxText)[i]? = some a ∧ a.name = "a_b" := by
  have hn : (boxFields.map Field.name).Nodup := by decide
  have hkeys : InputKeys boxText boxFields := ModelClass.inputKeys_ofFields "Box" none hn
  have hsecond : (attributesIn boxText)[1]? = some ⟨"a_b_1", some "a_b"⟩ := by
    rw [attributesIn_box]
    rfl
  have hname : IsAttributeName "a_b" := ⟨⟨by decide, by decide⟩, by decide⟩
  exact ⟨hn, hkeys, (hkeys.taken 1 _ "a_b" hsecond rfl).2 hname⟩

/-- The class for boxes admits names, although two of its attributes share a key and one of them is called as
its configuration. -/
theorem not_disjoint_keys_box : (boxFields.map Field.name).Nodup ∧ PopulatesByName boxText ∧
    ¬ ((attributesIn boxText).map WrittenAttribute.keys).Pairwise List.Disjoint ∧
    ∃ a ∈ attributesIn boxText, a.name = "model_config" := by
  have hpopulates : PopulatesByName boxText ↔ ∃ a ∈ attributesIn boxText, a.alias?.isSome :=
    ModelClass.populatesByName_iff "Box" none boxFields
  rw [hpopulates, attributesIn_box]
  refine ⟨by decide, ⟨_, List.mem_cons_self, rfl⟩, fun hdisjoint => ?_,
    ⟨"model_config", none⟩, by simp, rfl⟩
  have hfirst := (List.pairwise_cons.1 hdisjoint).1 ["a_b_1", "a_b"] (by simp [WrittenAttribute.keys])
  exact hfirst (show "a_b" ∈ ["a_b", "a-b"] by simp) (by simp)

end ApiCodegen.Server
