import ApiCodegen.Proofs.Client.Files
import ApiCodegen.Proofs.Client.TypeGrammar
import ApiCodegen.Proofs.Schema.Normal
import ApiCodegen.Proofs.Server.Router
import ApiCodegen.Proofs.Server.TypeGrammar

/-!
# Written types admit null once

What admits null is not made to admit it again: schemas that are read are in normal form, and the type of
an optional value looks first whether null is admitted already.

* `Server.TypeExpr.not_nullTwice`, `Client.TypeExpr.not_nullTwice`: **the type of a schema in normal form
  is written without the tokens that admit null twice**, at any depth.
* `Server.TypeExpr.NullOnce`, `Client.TypeExpr.NullOnce`: the text of a type has no such tokens. Literals
  are tokens of their own, whatever they say.
* `null_once`: **no type of a loaded document admits null twice, and none that is written does.**
-/

namespace ApiCodegen

open Text

variable {s : Schema} {pattern ts : List Token} {t : Token}

/-! ## Patterns of tokens -/

/-- A token in front that a pattern does not start with can be left out. -/
theorem infix_of_infix_cons (h : pattern <:+: t :: ts) (ht : pattern.head? ≠ some t) : pattern <:+: ts := by
  rcases List.infix_cons_iff.1 h with h | h
  · cases pattern with
    | nil => exact List.nil_infix
    | cons u pattern =>
      obtain ⟨rfl, -⟩ := List.cons_prefix_cons.1 h
      exact absurd rfl ht
  · exact h

/-- So can one at the end that the pattern does not have. -/
theorem infix_of_infix_append (h : pattern <:+: ts ++ [t]) (ht : t ∉ pattern) : pattern <:+: ts := by
  rcases List.infix_concat_iff.1 h with h | h
  · rcases List.suffix_concat_iff.1 h with rfl | ⟨front, rfl, -⟩
    · exact List.nil_infix
    · exact absurd (List.mem_append_right _ (List.mem_singleton.2 rfl)) ht
  · exact h

/-- A pattern does not stand where one of its tokens is missing. -/
theorem not_infix_of_notMem (ht : t ∈ pattern) (h : t ∉ ts) : ¬ pattern <:+: ts :=
  fun hfound => h (hfound.subset ht)

/-- Nor in fewer tokens than it has. -/
theorem not_infix_of_length_lt (h : ts.length < pattern.length) : ¬ pattern <:+: ts :=
  fun hfound => absurd hfound.length_le (Nat.not_le.2 h)

/-- Literals with marks between them have no words. -/
theorem word_notMem_texts (word : String) (c : Char) (values : List String) :
    .word word ∉ List.intercalate [.mark c] (values.map fun v => [Token.text v]) := by
  induction values with
  | nil => exact List.not_mem_nil
  | cons v values ih =>
    cases values with
    | nil => simp
    | cons w values => simpa using ih

/-! ## The server -/

namespace Server.TypeExpr

/-- How an annotation starts that admits `None` twice. -/
def nullTwice : List Token := [.word "Optional", .mark '[', .word "Optional", .mark '[']

/-- A name with an argument admits `None` twice inside of the argument, or the name is `Optional` and so is
that of the argument. -/
theorem nullTwice_apply {head : String}
    (h : nullTwice <:+: .word head :: .mark '[' :: (ts ++ [.mark ']'])) :
    nullTwice <:+: ts ∨ head = "Optional" ∧ ts.take 2 = [.word "Optional", .mark '['] := by
  rcases List.infix_cons_iff.1 h with h | h
  · right
    obtain ⟨hhead, h⟩ := List.cons_prefix_cons.1 h
    obtain ⟨-, h⟩ := List.cons_prefix_cons.1 h
    refine ⟨(Token.word.inj hhead).symm, ?_⟩
    have htake := List.prefix_iff_eq_take.1 h
    match ts with
    | [] => cases (List.cons.inj htake).1
    | [t] => cases (List.cons.inj (List.cons.inj htake).2).1
    | t :: u :: more => exact htake.symm
  · exact .inl (infix_of_infix_append (infix_of_infix_cons h (by decide)) (by decide))

/-- What does not admit null is not written with `Optional` in front. -/
theorem take_written_ne (h : s.isNullable = false) :
    (ofSchema s).written.take 2 ≠ [.word "Optional", .mark '['] := by
  cases s with
  | nullable inner => cases h
  | primitive kind format =>
    obtain ⟨n, -, hkind⟩ := exists_ofKind kind format
    rw [ofSchema, hkind]
    simp [written]
  | enumeration values =>
    rw [ofSchema]
    split <;> simp [written]
  | array | object | reference | untyped => simp [ofSchema, mapping, written]

/-- **The annotation of a schema in normal form does not admit `None` twice.** -/
theorem not_nullTwice (h : s.Normal) : ¬ nullTwice <:+: (ofSchema s).written := by
  have hname (n : String) : ¬ nullTwice <:+: [.word n] := not_infix_of_length_lt (by simp [nullTwice])
  induction h with
  | primitive kind format =>
    obtain ⟨n, -, hkind⟩ := exists_ofKind kind format
    rw [ofSchema, hkind]
    exact hname n
  | reference | untyped => exact hname _
  | object => exact (by decide : ¬ nullTwice <:+: mapping.written)
  | enumeration hne =>
    rw [ofSchema, if_neg (by simpa using hne), written, writtenAll_texts]
    intro hfound
    rcases nullTwice_apply hfound with hfound | ⟨hhead, -⟩
    · exact not_infix_of_notMem List.mem_cons_self (word_notMem_texts "Optional" ',' _) hfound
    · exact absurd hhead (by decide)
  | array _ ih =>
    intro hfound
    rcases nullTwice_apply hfound with hfound | ⟨hhead, -⟩
    · exact ih hfound
    · exact absurd hhead (by decide)
  | nullable _ honce ih =>
    intro hfound
    rcases nullTwice_apply hfound with hfound | ⟨-, htake⟩
    · exact ih hfound
    · exact take_written_ne honce htake

/-- **An annotation admits `None` once**: read as tokens, it has no `Optional` right inside of another. -/
def NullOnce (t : TypeExpr) : Prop := ¬ nullTwice <:+: tokens .server t.render

theorem nullOnce_ofSchema (h : s.Normal) : (ofSchema s).NullOnce := by
  rw [NullOnce, tokens_ofSchema]
  exact not_nullTwice h

end Server.TypeExpr

/-! ## The client -/

namespace Client.TypeExpr

/-- How a type ends that admits `null`. -/
def nullLast : List Token := [.mark '|', .word "null"]

/-- How a type ends that admits `null` twice. -/
def nullTwice : List Token := nullLast ++ nullLast

/-- A type of arrays ends in a bracket, and has in it what its items have. -/
theorem written_array (t : TypeExpr) : ∃ front, (TypeExpr.array t).written = front ++ [.mark ']'] ∧
    (nullTwice <:+: front → nullTwice <:+: t.written) := by
  rw [written]
  split
  · refine ⟨.mark '(' :: (t.written ++ [.mark ')', .mark '[']), by simp, fun h => ?_⟩
    have hinner := infix_of_infix_cons h (by decide)
    rw [List.append_cons] at hinner
    exact infix_of_infix_append (infix_of_infix_append hinner (by decide)) (by decide)
  · exact ⟨t.written ++ [.mark '['], by simp, fun h => infix_of_infix_append h (by decide)⟩

/-- A type with `null` at its end admits `null` twice at the end, or admits it twice before. -/
theorem nullTwice_append (h : nullTwice <:+: ts ++ nullLast) :
    nullLast <:+ ts ∨ nullTwice <:+: ts := by
  have happend : ts ++ nullLast = ts ++ [.mark '|'] ++ [.word "null"] := List.append_cons ts _ _
  rw [happend] at h
  rcases List.infix_concat_iff.1 h with h | h
  · rw [← happend, nullTwice] at h
    exact .inl (List.suffix_append_self_iff.1 h)
  · rcases List.infix_concat_iff.1 h with h | h
    · -- a bar is not the last token of the pattern
      exact absurd (h.getLast (by decide)) (by simp [nullTwice, nullLast])
    · exact .inr h

/-- What does not admit null is not written with `null` at its end. -/
theorem not_nullLast (h : s.isNullable = false) : ¬ nullLast <:+ (ofSchema s).written := by
  have hname (n : String) : ¬ nullLast <:+ [.word n] :=
    fun hsuffix => absurd hsuffix.length_le (by simp [nullLast])
  cases s with
  | nullable inner => cases h
  | primitive kind format =>
    obtain ⟨n, -, hkind⟩ := exists_ofKind kind format
    rw [ofSchema, hkind]
    exact hname n
  | reference | untyped => exact hname _
  | object properties required => exact (by decide : ¬ nullLast <:+ TypeExpr.record.written)
  | enumeration values =>
    rw [ofSchema]
    split
    · exact hname _
    · rw [written, writtenAll_texts]
      exact fun hsuffix => word_notMem_texts "null" '|' values (hsuffix.subset (by simp [nullLast]))
  | array items =>
    obtain ⟨front, hwritten, -⟩ := written_array (ofSchema items)
    rw [ofSchema, hwritten]
    exact fun hsuffix => absurd (hsuffix.getLast (by simp [nullLast])) (by simp [nullLast])

/-- **The type of a schema in normal form does not admit `null` twice.** -/
theorem not_nullTwice (h : s.Normal) : ¬ nullTwice <:+: (ofSchema s).written := by
  have hname (n : String) : ¬ nullTwice <:+: [.word n] :=
    not_infix_of_length_lt (by simp [nullTwice, nullLast])
  induction h with
  | primitive kind format =>
    obtain ⟨n, -, hkind⟩ := exists_ofKind kind format
    rw [ofSchema, hkind]
    exact hname n
  | reference | untyped => exact hname _
  | object => exact (by decide : ¬ nullTwice <:+: TypeExpr.record.written)
  | enumeration hne =>
    rw [ofSchema, if_neg (by simpa using hne), written, writtenAll_texts]
    exact not_infix_of_notMem (by simp [nullTwice, nullLast]) (word_notMem_texts "null" '|' _)
  | @array items _ ih =>
    obtain ⟨front, hwritten, hfront⟩ := written_array (ofSchema items)
    rw [ofSchema, hwritten]
    exact fun hfound => ih (hfront (infix_of_infix_append hfound (by decide)))
  | @nullable inner _ honce ih =>
    have hwritten : (ofSchema (.nullable inner)).written = (ofSchema inner).written ++ nullLast := rfl
    rw [hwritten]
    intro hfound
    rcases nullTwice_append hfound with hsuffix | hfound
    · exact not_nullLast honce hsuffix
    · exact ih hfound

/-- **A type admits `null` once**: read as tokens, it has no `null` behind a bar right behind another. -/
def NullOnce (t : TypeExpr) : Prop := ¬ nullTwice <:+: tokens .client t.render

theorem nullOnce_ofSchema (h : s.Normal) : (ofSchema s).NullOnce := by
  rw [NullOnce, tokens_ofSchema]
  exact not_nullTwice h

end Client.TypeExpr

/-- The text says whether null is admitted twice. -/
example : ¬ (Client.TypeExpr.ofSchema (.nullable (.nullable (.enumeration ["a"])))).NullOnce ∧
    (Client.TypeExpr.ofSchema (.nullable (.enumeration ["a | null | null"]))).NullOnce := by
  unfold Client.TypeExpr.NullOnce
  decide +kernel

/-! ## Loaded documents -/

variable {doc : Document} {declarations : List Declaration} {policy : ReferencePolicy} {text : String}

/-- What a declaration is made of stands in its component. -/
theorem Declaration.part_of_mem {c : Component} (h : s ∈ (ofComponent c).schemas) : s.Part c.schema := by
  unfold ofComponent schemas at h
  cases hs : c.schema with
  | object properties required =>
    simp only [hs, Shape.ofSchema, List.map_map] at h
    obtain ⟨p, hp, rfl⟩ := List.mem_map.1 h
    exact .property required hp .self
  | primitive | reference | array | nullable | enumeration | untyped =>
    simp only [hs, Shape.ofSchema] at h
    rw [List.mem_singleton.1 h]
    exact .self

theorem Document.normal_of_declaration (hnormal : ∀ s ∈ doc.schemas, s.Normal)
    (h : doc.declarations = .ok declarations) {d : Declaration} (hd : d ∈ declarations) (hs : s ∈ d.schemas) :
    s.Normal := by
  obtain rfl := declarations_ok h
  obtain ⟨c, hc, rfl⟩ := List.mem_map.1 hd
  have hschema : c.schema ∈ doc.schemas := List.mem_append_left _ (List.mem_map_of_mem hc)
  exact (hnormal _ hschema).part (Declaration.part_of_mem hs)

/-- **No type of a loaded document admits null twice or has no values, and no type that is written admits
null twice**: whether it is that of a schema, of an optional value or of a body, and wherever it stands in
the files of a plan. -/
theorem null_once (h : (Document.load policy text).outcome = .ok doc) :
    (∀ s ∈ doc.schemas, ∀ t : Schema, t.Part s →
      (∀ inner, t ≠ .nullable (.nullable inner)) ∧ t ≠ .enumeration [] ∧
      (∀ a ∈ [Server.TypeExpr.ofSchema t, .optional t, .ofBody t], a.NullOnce) ∧
      ∀ a ∈ [Client.TypeExpr.ofSchema t, .optional t, .ofBody t], a.NullOnce) ∧
    ∀ declarations, doc.declarations = .ok declarations →
      ∀ (topology : Topology) (table : BindingTable) (server : ServerOptions) (client : ClientOptions)
        (apiPrefix : String),
      let plan := RoutePlan.ofDocument doc topology table
      let models := Server.ModelsFile.ofDeclarations declarations
      let router := Server.RouterFile.ofPlan server apiPrefix declarations plan
      let types := Client.TypesFile.ofDeclarations declarations
      let methods := Client.ClientFile.ofPlan client plan
      (∀ a ∈ models.annotations ++ router.annotations, a.NullOnce) ∧
      ∀ a ∈ types.types ++ methods.types, a.NullOnce := by
  have hnormal := Document.normal_load h
  constructor
  · intro s hs t hpart
    obtain ⟨hnull, hvalues⟩ := Schema.normal_iff.1 (hnormal s hs) t hpart
    have ht := (hnormal s hs).part hpart
    refine ⟨hnull, hvalues, ?_, ?_⟩
    · simp only [List.forall_mem_cons, Server.TypeExpr.optional_eq, Server.TypeExpr.ofBody_eq]
      exact ⟨Server.TypeExpr.nullOnce_ofSchema ht, Server.TypeExpr.nullOnce_ofSchema ht.orNull,
        Server.TypeExpr.nullOnce_ofSchema ht.body, fun a ha => absurd ha List.not_mem_nil⟩
    · simp only [List.forall_mem_cons, Client.TypeExpr.optional_eq, Client.TypeExpr.ofBody_eq]
      exact ⟨Client.TypeExpr.nullOnce_ofSchema ht, Client.TypeExpr.nullOnce_ofSchema ht.orNull,
        Client.TypeExpr.nullOnce_ofSchema ht.body, fun a ha => absurd ha List.not_mem_nil⟩
  · intro declarations hdeclarations topology table server client apiPrefix plan models router types methods
    have hroutes : ∀ s ∈ plan.routes.flatMap Route.schemas, s.Normal :=
      fun s hs => hnormal s (RoutePlan.schemas_mem hs)
    refine ⟨fun a ha => ?_, fun a ha => ?_⟩
    · rcases List.mem_append.1 ha with ha | ha
      · obtain ⟨d, hd, s, hs, rfl | rfl⟩ := Server.ModelsFile.exists_of_mem_annotations ha
        · exact Server.TypeExpr.nullOnce_ofSchema (Document.normal_of_declaration hnormal hdeclarations hd hs)
        · rw [Server.TypeExpr.optional_eq]
          exact Server.TypeExpr.nullOnce_ofSchema
            (Document.normal_of_declaration hnormal hdeclarations hd hs).orNull
      · obtain ⟨s, hs, rfl⟩ := Server.RouterFile.exists_of_mem_annotations ha
        rw [Server.TypeExpr.ofBody_eq]
        exact Server.TypeExpr.nullOnce_ofSchema (hroutes s hs).body
    · rcases List.mem_append.1 ha with ha | ha
      · obtain ⟨d, hd, s, hs, rfl⟩ := Client.TypesFile.exists_of_mem_types ha
        exact Client.TypeExpr.nullOnce_ofSchema (Document.normal_of_declaration hnormal hdeclarations hd hs)
      · obtain ⟨s, hs, rfl⟩ := Client.ClientFile.exists_of_mem_types ha
        rw [Client.TypeExpr.ofBody_eq]
        exact Client.TypeExpr.nullOnce_ofSchema (hroutes s hs).body

/-! ## A component that admits null in every way -/

/-- A list, or null, by a flag, by an alternative and by a name; its items are null, by two of these. -/
def nullsText : String :=
  "components:\n schemas:\n  T:\n   nullable: true\n   anyOf:\n   - type: \"null\"\n" ++
  "   - type: [array, \"null\"]\n     items:\n      type: \"null\"\n      nullable: true\npaths:\n"

namespace Document

open Markup

/-- The items as entries. -/
def nullEntries : Entries := [(.string "type", .string "null"), (.string "nullable", .bool true)]

/-- The list as entries. -/
def nullListEntries : Entries := [
  (.string "type", .sequence [.string "array", .string "null"]), (.string "items", .mapping nullEntries)]

/-- The component as entries. -/
def nullsEntries : Entries := [(.string "nullable", .bool true),
  (.string "anyOf", .sequence [Schema.typeNamed "null", .mapping nullListEntries])]

/-- The type of the component. -/
def nullsSchema : Schema := .nullable (.array (.nullable .untyped))

theorem parse_nullEntries (location : String) :
    Schema.parse (.mapping nullEntries) location = ⟨[], .ok (.nullable .untyped)⟩ := by
  rw [Schema.parse_entries rfl, Schema.parseEntries_named rfl rfl rfl, Schema.parseTyped_eq]
  rfl

theorem parse_nullListEntries (location : String) : Schema.parse (.mapping nullListEntries) location =
    ⟨[], .ok nullsSchema⟩ := by
  have hitems (location : String) : Schema.itemsOf nullListEntries location = ⟨[], .ok (.nullable .untyped)⟩ :=
    parse_nullEntries _
  have hnames : ([Value.string "array", .string "null"].filterMap Value.string?).filter (· != "null") =
      ["array"] := by decide +kernel
  rw [Schema.parse_entries rfl, Schema.parseEntries_types rfl rfl rfl hnames, Schema.parseTyped_eq]
  simp only [hitems]
  rfl

theorem parse_nullsEntries (location : String) : Schema.parse (.mapping nullsEntries) location =
    ⟨[], .ok nullsSchema⟩ := by
  have hmember : [Schema.typeNamed "null", .mapping nullListEntries].filter (fun member =>
      !Schema.isNullType member) = [.mapping nullListEntries] := by rfl
  rw [Schema.parse_entries rfl, Schema.parseEntries_alternatives rfl rfl hmember, parse_nullListEntries]
  rfl

/-- What `nullsText` reads as. -/
def nullsRoot : Entries := [
  (.string "components", .mapping [(.string "schemas", .mapping [(.string "T", .mapping nullsEntries)])]),
  (.string "paths", .null)]

/-- The document of `nullsText`. -/
def nullsDocument : Document where
  components := [⟨"T", none, nullsSchema⟩]
  paths := []

theorem parse_nullsRoot : parse (.mapping nullsRoot) = ⟨[], .ok nullsDocument⟩ := by
  have hc : componentsOf nullsRoot = parseComponents [(.string "T", .mapping nullsEntries)] := rfl
  have hp : pathsOf nullsRoot = pure [] := rfl
  have hd : Schema.textOf (.mapping nullsEntries) "description" = none := rfl
  change (do
    let components ← componentsOf nullsRoot
    let paths ← pathsOf nullsRoot
    pure (⟨components, paths⟩ : Document)) = _
  rw [hc, hp]
  simp [parseComponents, Value.name?, hd, parse_nullsEntries, nullsDocument]

theorem value_nullsText : Markup.read? nullsText = some (.mapping nullsRoot) := by
  unfold Markup.read? Markup.Tree.read? Markup.glyphs nullsText
  rw [String.toList_append, String.toList_ofList, String.toList_ofList]
  decide +kernel

end Document

/-- Null is admitted by the list and by its items, once each. -/
theorem null_once_nulls : (Document.load .strict nullsText).outcome = .ok .nullsDocument ∧
    (Server.TypeExpr.ofSchema Document.nullsSchema).render = "Optional[list[Optional[Any]]]" ∧
    (Server.TypeExpr.ofSchema Document.nullsSchema).NullOnce ∧
    (Client.TypeExpr.ofSchema Document.nullsSchema).render = "(any | null)[] | null" ∧
    (Client.TypeExpr.ofSchema Document.nullsSchema).NullOnce := by
  have hload : (Document.load .strict nullsText).outcome = .ok .nullsDocument := by
    rw [Document.outcome_load_of_value Document.value_nullsText Document.parse_nullsRoot]
    rfl
  obtain ⟨-, -, hserver, hclient⟩ := (null_once hload).1 Document.nullsSchema List.mem_cons_self _ .self
  exact ⟨hload, by decide +kernel, hserver _ List.mem_cons_self, by decide +kernel,
    hclient _ List.mem_cons_self⟩

end ApiCodegen
