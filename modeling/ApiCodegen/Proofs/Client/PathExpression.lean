import ApiCodegen.Proofs.Client.Substitution
import ApiCodegen.Proofs.Generation.Correspondence

/-!
# Which methods fill in their paths

* `Method.pathExpr?_eq`: **the path of a method is read as the expression that is meant.**
* `map_valueOf?_zip`: of distinct keys every one has its own value.
* `Method.Placed`: a method in a file that has its endpoint, with distinct parameters.
* `Method.Placed.fills_iff`: **a method fills in its path** exactly if the tokens are distinct, none of them
  is lost, and no parameter hides a name or cannot be bound.
* `ClientFile.fillsPaths_iff`: so it is for the methods of all operations.
* `ClientFile.not_fills_buildPath`: a path with a token that hides the function that fills it in.
-/

namespace ApiCodegen.Client

open Text

/-! ## Reading -/

namespace TokenParam

variable {p : TokenParam}

/-- The entry that stands for a parameter. -/
def entry (p : TokenParam) : ObjectEntry :=
  if p.name = p.token then .shorthand p.name else .keyed p.token p.name

/-- The tokens of the entry. -/
def entryTokens (p : TokenParam) : List Token :=
  if p.name = p.token then [.word p.name] else [keyToken p.token, .mark ':', .word p.name]

/-- The entry of a parameter gives its object no key: it asks for a prototype. -/
def Lost (p : TokenParam) : Prop := p.token = "__proto__" ∧ p.name ≠ p.token

instance (p : TokenParam) : Decidable p.Lost := inferInstanceAs (Decidable (_ ∧ _))

theorem variableName_entry (p : TokenParam) : p.entry.variableName = p.name := by
  unfold entry
  split <;> rfl

theorem ownKey?_entry (p : TokenParam) : p.entry.ownKey? = if p.Lost then none else some p.token := by
  unfold entry Lost
  by_cases hname : p.name = p.token
  · simp [hname, ObjectEntry.ownKey?]
  · simp [hname, ObjectEntry.ownKey?]

theorem propertyOf?_entryTokens (p : TokenParam) : propertyOf? p.entryTokens = some p.entry := by
  unfold entryTokens entry
  split
  · rfl
  · rw [propertyOf?, keyOf?_keyToken]
    rfl

theorem nested_entryTokens (p : TokenParam) : Nested false p.entryTokens := by
  unfold entryTokens
  split
  · exact .singleton rfl
  · exact .token (isPlain_keyToken _) (.token rfl (.singleton rfl))

theorem reads_substitution (hname : Name.isIdentifier p.name.toList) :
    Reads .client (Method.substitution p).toList p.entryTokens := by
  unfold Method.substitution entryTokens
  split
  · exact reads_word hname
  · have hchars : (propertyKey p.token ++ ": " ++ p.name).toList =
        (propertyKey p.token).toList ++ ':' :: ' ' :: p.name.toList := by simp
    rw [hchars]
    exact (reads_propertyKey p.token).append (by decide) (.cons_mark (by decide) (.cons_space (reads_word hname)))

end TokenParam

namespace Method

variable {m : Method}

/-- The expression that is meant by the path of a method. -/
def meantPath (m : Method) : PathExpr :=
  match m.params with
  | [] => .member "API_ENDPOINTS" m.endpoint
  | params => .call "buildPath" "API_ENDPOINTS" m.endpoint (params.map TokenParam.entry)

theorem meantPath_of_ne_nil (h : m.params ≠ []) :
    m.meantPath = .call "buildPath" "API_ENDPOINTS" m.endpoint (m.params.map TokenParam.entry) := by
  unfold meantPath
  split
  · contradiction
  · rfl

theorem pathText_of_ne_nil (h : m.params ≠ []) : m.pathText =
    "buildPath(" ++ ("API_ENDPOINTS." ++ m.endpoint) ++ ", \x7b " ++
      String.intercalate ", " (m.params.map substitution) ++ " \x7d)" := by
  unfold pathText
  split
  · contradiction
  · rfl

/-- An endpoint is read as a member of the endpoints. -/
theorem reads_member {endpoint : String} (h : Name.isIdentifier endpoint.toList) :
    Reads .client ("API_ENDPOINTS." ++ endpoint).toList
      [.word "API_ENDPOINTS", .mark '.', .word endpoint] := by
  have hchars : ("API_ENDPOINTS." ++ endpoint).toList = "API_ENDPOINTS".toList ++ '.' :: endpoint.toList := by
    simp
  rw [hchars]
  exact .cons_word (by decide) (by decide) (.cons_mark (by decide) (reads_word h))

/-- The entries of an object are read one by one. -/
theorem reads_substitutions {params : List TokenParam} (h : ∀ p ∈ params, Name.isIdentifier p.name.toList) :
    Reads .client (List.intercalate [',', ' '] ((params.map substitution).map String.toList))
      (List.intercalate [.mark ','] (params.map TokenParam.entryTokens)) := by
  refine reads_commas ?_
  rw [List.map_map]
  exact forall₂_map fun p hp => TokenParam.reads_substitution (h p hp)

theorem entries_read {params : List TokenParam} (hne : params ≠ []) :
    (parts (separatedBy ',') 0 (List.intercalate [.mark ','] (params.map TokenParam.entryTokens))).filterMap
      propertyOf? = params.map TokenParam.entry := by
  have hinside : ∀ ts ∈ params.map TokenParam.entryTokens, Inside (separatedBy ',') 0 ts := by
    intro ts hts
    obtain ⟨p, -, rfl⟩ := List.mem_map.1 hts
    exact p.nested_entryTokens.inside (quiet_comma _ 0) le_rfl
  rw [parts_intercalate (by simpa using hne) hinside, List.filterMap_map, ← List.filterMap_eq_map]
  exact List.filterMap_congr fun p _ => p.propertyOf?_entryTokens

/-- **The path of a method is read as the expression that is meant.** -/
theorem pathExpr?_eq (hendpoint : Name.isIdentifier m.endpoint.toList)
    (hparams : ∀ p ∈ m.params, Name.isIdentifier p.name.toList) : m.pathExpr? = some m.meantPath := by
  by_cases hnil : m.params = []
  · have htokens := (reads_member hendpoint).tokens_eq
    rw [pathExpr?, pathText, meantPath, hnil]
    simp only [htokens]
    rfl
  · have hobject : Reads .client ('\x7b' :: ' ' ::
        (List.intercalate [',', ' '] ((m.params.map substitution).map String.toList) ++ [' ', '\x7d']))
        (.mark '\x7b' :: (List.intercalate [.mark ','] (m.params.map TokenParam.entryTokens) ++
          [Token.mark '\x7d'])) :=
      .cons_mark (by decide) (.cons_space ((reads_substitutions hparams).append (by decide)
        (.cons_space (.cons_mark (by decide) reads_nil))))
    have harguments := (reads_member hendpoint).append (by decide) (.cons_comma hobject)
    have hcall : Reads .client ("buildPath".toList ++ '(' :: (_ ++ [')'])) _ :=
      .cons_word (by decide) (by decide) (harguments.wrap (by decide))
    have hchars : m.pathText.toList = "buildPath".toList ++ '(' ::
        ((("API_ENDPOINTS." ++ m.endpoint).toList ++ ',' :: ' ' :: '\x7b' :: ' ' ::
          (List.intercalate [',', ' '] ((m.params.map substitution).map String.toList) ++
            [' ', '\x7d'])) ++ [')']) := by
      rw [pathText_of_ne_nil hnil]
      simp [String.toList_intercalate]
    rw [← hchars] at hcall
    have htokens : tokens .client m.pathText =
        .word "buildPath" :: .mark '(' :: .word "API_ENDPOINTS" :: .mark '.' :: .word m.endpoint ::
          .mark ',' :: .mark '\x7b' :: (List.intercalate [.mark ','] (m.params.map TokenParam.entryTokens) ++
            [Token.mark '\x7d'] ++ [Token.mark ')']) := hcall.tokens_eq
    rw [pathExpr?, htokens, meantPath_of_ne_nil hnil, ← entries_read hnil]
    simp only [Client.pathExpr?, List.dropLast_concat]

end Method

/-! ## Looking up -/

section Lookup

variable {α : Type} {xs ys : List (String × α)} {v : α} {members : List (String × String)}
  {key value : String}

theorem lookup_append_of_not_mem (h : key ∉ xs.map Prod.fst) : (xs ++ ys).lookup key = ys.lookup key := by
  have hnone : xs.lookup key = none := by
    rw [List.lookup_eq_none_iff]
    intro x hx
    have hne : key ≠ x.1 := fun heq => h (heq ▸ List.mem_map_of_mem hx)
    simpa using hne
  rw [List.lookup_append, hnone, Option.none_or]

/-- Of distinct keys every one has its own value. -/
theorem lookup_of_mem (hn : (xs.map Prod.fst).Nodup) (h : (key, v) ∈ xs) :
    (xs ++ ys).lookup key = some v := by
  obtain ⟨front, back, rfl⟩ := List.append_of_mem h
  rw [List.map_append, List.map_cons] at hn
  have hfront : key ∉ front.map Prod.fst := fun hmem =>
    (List.nodup_append.1 hn).2.2 key hmem key List.mem_cons_self rfl
  rw [List.append_assoc, lookup_append_of_not_mem hfront, List.cons_append, List.lookup_cons_self]

theorem valueOf?_of_mem (hn : (members.map Prod.fst).Nodup) (h : (key, value) ∈ members) :
    valueOf? members key = some value := by
  have hreverse : (members.reverse.map Prod.fst).Nodup := by rwa [List.map_reverse, List.nodup_reverse]
  have hlookup : (members.reverse ++ []).lookup key = some value :=
    lookup_of_mem hreverse (List.mem_reverse.2 h)
  rwa [List.append_nil] at hlookup

/-- The value of a key that comes again does not matter. -/
theorem valueOf?_shadowed {front back : List (String × String)} {other : String} (h : key ∈ back.map Prod.fst)
    (name : String) :
    valueOf? (front ++ (key, value) :: back) name = valueOf? (front ++ (key, other) :: back) name := by
  simp only [valueOf?, List.reverse_append, List.reverse_cons, List.append_assoc, List.lookup_append,
    List.singleton_append]
  by_cases hname : name = key
  · have hsome : (back.reverse.lookup name).isSome := by
      rw [Option.isSome_iff_ne_none, hname, Ne, List.lookup_eq_none_iff]
      intro hnone
      obtain ⟨e, he, rfl⟩ := List.mem_map.1 h
      simpa using hnone e (List.mem_reverse.2 he)
    rw [Option.or_of_isSome hsome, Option.or_of_isSome hsome]
  · have hskip (v : String) : ((key, v) :: front.reverse).lookup name = front.reverse.lookup name := by
      rw [List.lookup_cons, beq_false_of_ne hname]
    rw [hskip, hskip]

/-- **Keys that are distinct have the values in their places.** -/
theorem map_valueOf?_zip {keys values : List String} (hn : keys.Nodup)
    (hlength : keys.length = values.length) : keys.map (valueOf? (keys.zip values)) = values.map some := by
  have hkeys : (keys.zip values).map Prod.fst = keys := List.map_fst_zip hlength.le
  have hvalues : (keys.zip values).map Prod.snd = values := List.map_snd_zip hlength.ge
  have hpairs : (keys.zip values).map (fun e => valueOf? (keys.zip values) e.1) =
      (keys.zip values).map fun e => some e.2 := by
    refine List.map_congr_left fun e he => valueOf?_of_mem ?_ he
    rwa [hkeys]
  calc
    keys.map (valueOf? (keys.zip values))
      = ((keys.zip values).map Prod.fst).map (valueOf? (keys.zip values)) := by rw [hkeys]
    _ = (keys.zip values).map fun e => some e.2 := by rw [List.map_map]; exact hpairs
    _ = ((keys.zip values).map Prod.snd).map some := by rw [List.map_map]; rfl
    _ = values.map some := by rw [hvalues]

/-- In a list with a repetition something comes again. -/
theorem exists_again {β : Type} {f : β → α} {l : List β} (h : ¬ (l.map f).Nodup) :
    ∃ before b after, l = before ++ b :: after ∧ f b ∈ after.map f := by
  induction l with
  | nil => exact absurd List.nodup_nil h
  | cons b l ih =>
    by_cases hagain : f b ∈ l.map f
    · exact ⟨[], b, l, rfl, hagain⟩
    · obtain ⟨before, c, after, rfl, hc⟩ := ih fun hn => h (List.nodup_cons.2 ⟨hagain, hn⟩)
      exact ⟨b :: before, c, after, rfl, hc⟩

end Lookup

/-! ## Evaluating -/

/-- The member that the entry of a parameter gives its object, by its argument. -/
def TokenParam.own? (e : TokenParam × String) : Option (String × String) :=
  e.1.entry.ownKey?.map fun key => (key, e.2)

/-- **An object has the members that its entries give it**, if the parameters stand for their arguments. -/
theorem members?_eq {scope : Scope} {pairs : List (TokenParam × String)}
    (h : ∀ e ∈ pairs, scope.lookup e.1.name = some (.text e.2)) :
    members? scope ((pairs.map Prod.fst).map TokenParam.entry) = some (pairs.filterMap TokenParam.own?) := by
  induction pairs with
  | nil => rfl
  | cons e more ih =>
    have hfirst := h e List.mem_cons_self
    have hmore := ih fun f hf => h f (List.mem_cons_of_mem _ hf)
    rw [List.map_cons, List.map_cons, members?, TokenParam.variableName_entry, hfirst, hmore]
    cases hown : e.1.entry.ownKey? <;> simp [TokenParam.own?, hown]

namespace Method

/-- **A method in its place**: its parameters stand for the tokens of a path, under distinct names, and the
file has the path as its endpoint. -/
structure Placed (file : ClientFile) (m : Method) (path : String) : Prop where
  tokens : m.params.map TokenParam.token = pathTokens path
  distinct : m.parameterNames.Nodup
  named : ∀ p ∈ m.params, Name.isIdentifier p.name.toList
  /-- Without a token there is no parameter but that of the request. -/
  alone : m.params = [] → ∀ name ∈ m.parameterNames, name = "request"
  endpoint : Name.isIdentifier m.endpoint.toList
  found : valueOf? (file.endpoints.map fun e => (e.name, e.path)) m.endpoint = some path

namespace Placed

variable {file : ClientFile} {m : Method} {path name : String} {args : List String}
  {inherited : String → Option String}

theorem length_params (h : m.Placed file path) : m.params.length = (pathTokens path).length := by
  rw [← h.tokens, List.length_map]

/-- What is no parameter is a name of the module. -/
theorem lookup_module (hname : name ∉ m.parameterNames) :
    (m.scope file args).lookup name = file.moduleScope.lookup name := by
  rw [parameterNames, List.mem_append, not_or] at hname
  have hparams : name ∉ ((m.params.map TokenParam.name).zip (args.map Meaning.text)).map Prod.fst := by
    intro hmem
    obtain ⟨e, he, rfl⟩ := List.mem_map.1 hmem
    exact hname.1 (List.of_mem_zip he).1
  have hrequest : name ∉ ((m.request.map fun request => (request.1, Meaning.other)).toList).map Prod.fst := by
    intro hmem
    obtain ⟨e, he, rfl⟩ := List.mem_map.1 hmem
    obtain ⟨request, hrequest, rfl⟩ := Option.map_eq_some_iff.1 (Option.mem_toList.1 he)
    exact hname.2 (Option.mem_toList.2 (Option.map_eq_some_iff.2 ⟨request, hrequest, rfl⟩))
  rw [scope, lookup_append_of_not_mem hparams, lookup_append_of_not_mem hrequest]

/-- A parameter stands for its argument. -/
theorem lookup_param (h : m.Placed file path) (hargs : args.length = m.params.length)
    {e : TokenParam × String} (he : e ∈ m.params.zip args) :
    (m.scope file args).lookup e.1.name = some (.text e.2) := by
  have hnames : (m.params.map TokenParam.name).Nodup := (List.nodup_append.1 h.distinct).1
  have hzip : (m.params.map TokenParam.name).zip (args.map Meaning.text) =
      (m.params.zip args).map fun e => (e.1.name, .text e.2) := List.zip_map
  rw [scope]
  refine lookup_of_mem ?_ ?_
  · rw [hzip, List.map_map]
    have hfst : (m.params.zip args).map (Prod.fst ∘ fun e => (e.1.name, Meaning.text e.2)) =
        ((m.params.zip args).map Prod.fst).map TokenParam.name := by
      rw [List.map_map]
      rfl
    rwa [hfst, List.map_fst_zip hargs.ge]
  · rw [hzip]
    exact List.mem_map_of_mem he

/-- A parameter hides what the module has under its name. -/
theorem lookup_hidden (h : m.Placed file path) (hargs : args.length = m.params.length)
    (hname : name ∈ m.parameterNames) : (∃ value, (m.scope file args).lookup name = some (.text value)) ∨
      (m.scope file args).lookup name = some .other := by
  rcases List.mem_append.1 hname with hparam | hrequest
  · obtain ⟨p, hp, rfl⟩ := List.mem_map.1 hparam
    rw [← List.map_fst_zip hargs.ge] at hp
    obtain ⟨e, he, rfl⟩ := List.mem_map.1 hp
    exact .inl ⟨e.2, h.lookup_param hargs he⟩
  · right
    have hfree : name ∉ ((m.params.map TokenParam.name).zip (args.map Meaning.text)).map Prod.fst := by
      intro hmem
      obtain ⟨e, he, rfl⟩ := List.mem_map.1 hmem
      exact (List.nodup_append.1 h.distinct).2.2 _ (List.of_mem_zip he).1 _ hrequest rfl
    obtain ⟨request, hsome, rfl⟩ := Option.map_eq_some_iff.1 (Option.mem_toList.1 hrequest)
    rw [scope, lookup_append_of_not_mem hfree, hsome]
    exact List.lookup_cons_self

/-- **A name of the path is not hidden** if the method asks for a path. -/
theorem visible_of_evaluate (h : m.Placed file path) (hargs : args.length = m.params.length) {result : String}
    (heval : m.evaluate inherited file args = some result) :
    ∀ name ∈ m.parameterNames, name ∉ pathNames ++ unbindable := by
  have hbindable : ∀ name ∈ m.parameterNames, name ∉ unbindable := by
    by_contra hnot
    rw [evaluate, if_neg hnot] at heval
    cases heval
  intro name hname hmem
  have hhidden := h.lookup_hidden hargs hname
  rcases List.mem_append.1 hmem with hpath | hmem
  · have hne : m.params ≠ [] := by
      intro hnil
      rw [h.alone hnil name hname] at hpath
      revert hpath
      decide
    rw [evaluate, if_pos hbindable, pathExpr?_eq h.endpoint h.named, Option.bind_some,
      meantPath_of_ne_nil hne, PathExpr.eval] at heval
    rcases List.mem_cons.1 hpath with rfl | hendpoints
    · -- the function is hidden
      rcases hhidden with ⟨value, hvalue⟩ | hother
      · simp [hvalue] at heval
      · simp [hother] at heval
    · rw [List.mem_singleton.1 hendpoints] at hhidden
      have hnone : PathExpr.memberText? (m.scope file args) "API_ENDPOINTS" m.endpoint = none := by
        rcases hhidden with ⟨value, hvalue⟩ | hother
        · rw [PathExpr.memberText?, hvalue]
        · rw [PathExpr.memberText?, hother]
      rw [hnone] at heval
      simp at heval
  · exact hbindable name hname hmem

/-- The endpoint is found in the scope of a method that does not hide the endpoints. -/
theorem memberText?_eq (h : m.Placed file path) (hvisible : "API_ENDPOINTS" ∉ m.parameterNames) :
    PathExpr.memberText? (m.scope file args) "API_ENDPOINTS" m.endpoint = some path := by
  have hscope : (m.scope file args).lookup "API_ENDPOINTS" =
      some (.object (file.endpoints.map fun e => (e.name, e.path))) := lookup_module hvisible
  rw [PathExpr.memberText?, hscope]
  exact h.found

/-- The object of a method has the members that the entries of its parameters give it. -/
theorem members?_scope (h : m.Placed file path) (hargs : args.length = m.params.length) :
    members? (m.scope file args) (m.params.map TokenParam.entry) =
      some ((m.params.zip args).filterMap TokenParam.own?) := by
  have hmembers := members?_eq fun e he => h.lookup_param hargs he
  rwa [List.map_fst_zip hargs.ge] at hmembers

/-- **The path that a method asks for** is the template with its object in place of the tokens. -/
theorem evaluate_eq (h : m.Placed file path) (hargs : args.length = m.params.length)
    (hvisible : ∀ name ∈ m.parameterNames, name ∉ pathNames ++ unbindable) :
    m.evaluate inherited file args =
      some (builtPath inherited path ((m.params.zip args).filterMap TokenParam.own?)) := by
  have hbindable : ∀ name ∈ m.parameterNames, name ∉ unbindable := fun name hname hmem =>
    hvisible name hname (List.mem_append_right _ hmem)
  have hfree (name : String) (hname : name ∈ pathNames) : name ∉ m.parameterNames := fun hmem =>
    hvisible name hmem (List.mem_append_left _ hname)
  have hendpoint : PathExpr.memberText? (m.scope file args) "API_ENDPOINTS" m.endpoint = some path :=
    h.memberText?_eq (hfree _ (by decide))
  rw [evaluate, if_pos hbindable, pathExpr?_eq h.endpoint h.named, Option.bind_some]
  by_cases hnil : m.params = []
  · -- nothing is filled in where there is no token
    have htokens : (pieces path.toList).filterMap Piece.token? = [] := by
      rw [← pathTokens_eq, ← h.tokens, hnil, List.map_nil]
    rw [meantPath, hnil, PathExpr.eval, hendpoint, builtPath, replaced_eq_filled, htokens, List.map_nil,
      filled_of_no_token htokens, flatMap_chars_pieces, String.ofList_toList]
  · have hfunction : (m.scope file args).lookup "buildPath" = some .buildPath :=
      lookup_module (hfree _ (by decide))
    rw [meantPath_of_ne_nil hnil, PathExpr.eval, hfunction, hendpoint, h.members?_scope hargs]

/-- The keys of the object of a method are the tokens whose entries are not lost. -/
theorem ownKeys_eq (h : m.Placed file path) : (m.pathExpr?.map PathExpr.ownKeys).getD [] =
    (m.params.filter fun p => ¬ p.Lost).map TokenParam.token := by
  rw [pathExpr?_eq h.endpoint h.named, Option.map_some, Option.getD_some]
  by_cases hnil : m.params = []
  · rw [meantPath, hnil]
    rfl
  · rw [meantPath_of_ne_nil hnil, PathExpr.ownKeys, List.filterMap_map, ← List.filterMap_eq_map,
      List.filterMap_filter]
    refine List.filterMap_congr fun p _ => ?_
    rw [Function.comp_apply, TokenParam.ownKey?_entry]
    by_cases hlost : p.Lost <;> simp [hlost]

/-- If no entry is lost, the object has the arguments under the tokens. -/
theorem own_eq_zip (h : m.Placed file path) (hlost : ∀ p ∈ m.params, ¬ p.Lost) :
    (m.params.zip args).filterMap TokenParam.own? = (pathTokens path).zip args := by
  have hown : ∀ e ∈ m.params.zip args, TokenParam.own? e = some (e.1.token, e.2) := by
    intro e he
    rw [TokenParam.own?, TokenParam.ownKey?_entry, if_neg (hlost e.1 (List.of_mem_zip he).1)]
    rfl
  have hzip : (pathTokens path).zip args = (m.params.zip args).map fun e => (e.1.token, e.2) := by
    rw [← h.tokens, ← List.map_id args, List.zip_map]
    simp [Prod.map]
  rw [List.filterMap_congr hown, List.filterMap_eq_map', hzip]

/-- **A template is filled in by an object** that has the arguments under tokens that are distinct. -/
theorem builtPath_zip (hn : (pathTokens path).Nodup) (hargs : args.length = (pathTokens path).length) :
    builtPath inherited path ((pathTokens path).zip args) =
      String.ofList (filled (pieces path.toList) (args.map encodeURIComponent)) := by
  have hvalues := map_valueOf?_zip hn hargs.symm
  have hencoded : (pathTokens path).map (fun name => encodeURIComponent
      (((valueOf? ((pathTokens path).zip args) name).or (inherited name)).getD "")) =
        args.map encodeURIComponent := by
    have hencode := congrArg (List.map fun value => encodeURIComponent (Option.getD value "")) hvalues
    rw [List.map_map, List.map_map] at hencode
    refine Eq.trans (List.map_congr_left fun name hname => ?_) hencode
    -- no token is looked for among the members that every object has
    have hmem := List.mem_map_of_mem (f := valueOf? ((pathTokens path).zip args)) hname
    rw [hvalues] at hmem
    obtain ⟨value, -, hvalue⟩ := List.mem_map.1 hmem
    rw [Function.comp_apply, ← hvalue, Option.some_or]
  rw [builtPath, replaced_eq_filled, ← pathTokens_eq, hencoded]

/-- The object has one key for every token, if the tokens are distinct and no entry is lost. -/
theorem entries_of (h : m.Placed file path) (hn : (pathTokens path).Nodup)
    (hlost : ∀ p ∈ m.params, ¬ p.Lost) :
    ((m.pathExpr?.map PathExpr.ownKeys).getD []).dedup.length = (pathTokens path).length := by
  have hkeys : m.params.filter (fun p => ¬ p.Lost) = m.params :=
    List.filter_eq_self.2 fun p hp => decide_eq_true (hlost p hp)
  rw [h.ownKeys_eq, hkeys, h.tokens, hn.dedup]

/-- No arguments but one. -/
def soleArgument (before after : List TokenParam) (value : String) : List String :=
  before.map (fun _ => "") ++ value :: after.map fun _ => ""

/-- **An argument has to be used**: else the path would be the same without it. -/
theorem not_evaluates_of_unused (h : m.Placed file path) {before after : List TokenParam} {p : TokenParam}
    (hsplit : m.params = before ++ p :: after)
    (hunused : ∀ name value other, valueOf? ((m.params.zip (soleArgument before after value)).filterMap
      TokenParam.own?) name = valueOf? ((m.params.zip (soleArgument before after other)).filterMap
        TokenParam.own?) name) : ¬ m.Evaluates inherited file path := by
  intro heval
  have hlength (value : String) : (soleArgument before after value).length = m.params.length := by
    simp [soleArgument, hsplit]
  have hpath (value : String) : builtPath inherited path
      ((m.params.zip (soleArgument before after value)).filterMap TokenParam.own?) =
        String.ofList (filled (pieces path.toList)
          ((soleArgument before after value).map encodeURIComponent)) := by
    have hvalue := heval _ ((hlength value).trans h.length_params)
    have hvisible := h.visible_of_evaluate (hlength value) hvalue
    rw [h.evaluate_eq (hlength value) hvisible] at hvalue
    exact Option.some.inj hvalue
  have hsame : builtPath inherited path
      ((m.params.zip (soleArgument before after "x")).filterMap TokenParam.own?) =
        builtPath inherited path
          ((m.params.zip (soleArgument before after "")).filterMap TokenParam.own?) := by
    simp only [builtPath, hunused _ "x" ""]
  rw [hpath, hpath, String.ofList_inj] at hsame
  -- the argument would make the path longer
  have hcount (value : String) : (filled (pieces path.toList)
      ((soleArgument before after value).map encodeURIComponent)).length +
        ((pieces path.toList).filterMap Piece.token?).length =
          (pieces path.toList).length + (encodeURIComponent value).length := by
    have hnone : (encodeURIComponent "").length = 0 := by rfl
    rw [length_filled (by rw [List.length_map, hlength, h.length_params, pathTokens_eq])]
    simp [soleArgument, hnone]
  have hx := hcount "x"
  rw [hsame, hcount ""] at hx
  have hlengths : (encodeURIComponent "").length = 0 ∧ (encodeURIComponent "x").length = 1 := by
    decide +kernel
  omega

/-- The object of a method with one argument. -/
theorem own_soleArgument {before after : List TokenParam} {p : TokenParam}
    (hsplit : m.params = before ++ p :: after) (value : String) :
    (m.params.zip (soleArgument before after value)).filterMap TokenParam.own? =
      (before.zip (before.map fun _ => "")).filterMap TokenParam.own? ++
        ((TokenParam.own? (p, value)).toList ++
          (after.zip (after.map fun _ => "")).filterMap TokenParam.own?) := by
  rw [hsplit, soleArgument, List.zip_append (by simp), List.zip_cons_cons, List.filterMap_append]
  cases hown : TokenParam.own? (p, value) <;> simp [hown]

/-- **A method asks for its path** exactly if the tokens of the path are distinct, none of them is lost, and
no parameter hides a name of the path or has one that cannot be bound. -/
theorem evaluates_iff (h : m.Placed file path) : m.Evaluates inherited file path ↔
    (pathTokens path).Nodup ∧ (∀ p ∈ m.params, ¬ p.Lost) ∧
      ∀ name ∈ m.parameterNames, name ∉ pathNames ++ unbindable := by
  constructor
  · intro heval
    have hlost : ∀ p ∈ m.params, ¬ p.Lost := by
      intro p hp hlost
      obtain ⟨before, after, hsplit⟩ := List.append_of_mem hp
      refine h.not_evaluates_of_unused hsplit (fun name value other => ?_) heval
      have hown (value : String) : TokenParam.own? (p, value) = none := by
        rw [TokenParam.own?, TokenParam.ownKey?_entry, if_pos hlost]
        rfl
      rw [own_soleArgument hsplit, own_soleArgument hsplit, hown, hown]
    refine ⟨?_, hlost, ?_⟩
    · by_contra hnot
      rw [← h.tokens] at hnot
      obtain ⟨before, p, after, hsplit, hagain⟩ := exists_again hnot
      refine h.not_evaluates_of_unused hsplit (fun name value other => ?_) heval
      have hown (q : TokenParam) (hq : q ∈ m.params) (value : String) :
          TokenParam.own? (q, value) = some (q.token, value) := by
        rw [TokenParam.own?, TokenParam.ownKey?_entry, if_neg (hlost q hq)]
        rfl
      have hp : p ∈ m.params := hsplit ▸ List.mem_append_right _ List.mem_cons_self
      have hkeys : p.token ∈
          ((after.zip (after.map fun _ => "")).filterMap TokenParam.own?).map Prod.fst := by
        obtain ⟨q, hq, htoken⟩ := List.mem_map.1 hagain
        have hmem : q ∈ m.params := hsplit ▸ List.mem_append_right _ (List.mem_cons_of_mem _ hq)
        have hpair : (q, "") ∈ after.zip (after.map fun _ => "") := by
          have hzip : after.zip (after.map fun _ => "") = after.map fun q => (q, "") := by
            simpa using (List.zip_map' : (after.map id).zip (after.map fun _ => "") = _)
          rw [hzip]
          exact List.mem_map_of_mem hq
        rw [← htoken]
        exact List.mem_map.2 ⟨_, List.mem_filterMap.2 ⟨_, hpair, hown q hmem ""⟩, rfl⟩
      rw [own_soleArgument hsplit, own_soleArgument hsplit, hown p hp, hown p hp]
      exact valueOf?_shadowed hkeys name
    · have hreplicate := heval (List.replicate (pathTokens path).length "") List.length_replicate
      exact h.visible_of_evaluate (by rw [List.length_replicate, h.length_params]) hreplicate
  · rintro ⟨hn, hlost, hnames⟩ args hargs
    rw [h.evaluate_eq (hargs.trans h.length_params.symm) hnames, h.own_eq_zip hlost, builtPath_zip hn hargs]

/-- **A method fills in its path** exactly if the tokens of the path are distinct, none of them is lost, and
no parameter hides a name that the method uses or has one that cannot be bound. -/
theorem fills_iff (h : m.Placed file path) : m.Fills inherited file path ↔
    (pathTokens path).Nodup ∧ (∀ p ∈ m.params, ¬ p.Lost) ∧
      ∀ name ∈ m.parameterNames, name ∉ usedNames ++ unbindable := by
  constructor
  · intro hfills
    obtain ⟨hn, hlost, hnames⟩ := h.evaluates_iff.1 hfills.evaluates
    refine ⟨hn, hlost, fun name hname hmem => ?_⟩
    rcases List.mem_append.1 hmem with hused | hunbindable
    · exact hfills.visible name hname hused
    · exact hnames name hname (List.mem_append_right _ hunbindable)
  · rintro ⟨hn, hlost, hnames⟩
    refine ⟨h.evaluates_iff.2 ⟨hn, hlost, fun name hname hmem => hnames name hname ?_⟩,
      fun name hname hmem => hnames name hname (List.mem_append_left _ hmem), h.entries_of hn hlost⟩
    rw [usedNames, List.append_assoc]
    exact (List.mem_append.1 hmem).elim (List.mem_append_left _) fun hmem =>
      List.mem_append_right _ (List.mem_append_right _ hmem)

end Placed

/-! ## The methods of a file -/

/-- The token parameters come first, the request comes last. -/
theorem paramNames_eq (tokens : List String) :
    paramNames tokens = Name.ofTokens Name.client tokens ++ [requestName tokens] :=
  Name.assign_request Name.client tokens

theorem params_ofRoute (route : Route) (names : String × String) : (ofRoute route names).params =
    List.zipWith TokenParam.mk (Name.ofTokens Name.client route.pathParams) route.pathParams :=
  Name.zipWith_request TokenParam.mk Name.client route.pathParams

theorem parameterNames_ofRoute (route : Route) (names : String × String) :
    (ofRoute route names).parameterNames = Name.ofTokens Name.client route.pathParams ++
      (route.request.map fun _ => requestName route.pathParams).toList := by
  have hparams : (ofRoute route names).params.map TokenParam.name =
      Name.ofTokens Name.client route.pathParams := by
    rw [params_ofRoute]
    exact map_zipWith_left (fun _ _ => rfl) (Name.length_ofTokens _ _)
  rw [parameterNames, hparams, ofRoute, Option.map_map]
  rfl

/-- The names of the parameters are legal. -/
theorem legal_paramNames (tokens : List String) :
    ∀ given ∈ paramNames tokens, Name.Legal Name.clientReserved given :=
  fun _ h => Name.legal_of_mem_assign_request Name.plain_client (by decide) h

/-- The names of the parameters are distinct. -/
theorem nodup_parameterNames (route : Route) (names : String × String) :
    (ofRoute route names).parameterNames.Nodup := by
  rw [parameterNames_ofRoute]
  exact Name.nodup_ofTokens_append Name.client route.pathParams route.request

end Method

namespace ClientFile

variable {options : ClientOptions} {doc : Document} {topology : Topology} {table : BindingTable}
  {inherited : String → Option String}

/-- **Every method of a file is in its place**, with the path of its operation. -/
theorem placed {k : ℕ} {op : Operation} (hop : doc.operations[k]? = some op) :
    ∃ m, (ofPlan options (RoutePlan.ofDocument doc topology table)).methods[k]? = some m ∧
      m.Placed (ofPlan options (RoutePlan.ofDocument doc topology table)) op.path := by
  obtain ⟨id, hid, -⟩ := Document.exists_operationId hop
  have hroute := RoutePlan.getElem?_routes.2
    ⟨op, id, hop, hid, (rfl : RoutePlan.routeOf topology table op id = _)⟩
  have hk : k < doc.operations.length := (List.getElem?_eq_some_iff.1 hop).1
  obtain ⟨endpoint, hendpoint⟩ : ∃ e,
      (endpointNames (RoutePlan.ofDocument doc topology table))[k]? = some e :=
    ⟨_, List.getElem?_eq_getElem (family_endpointNames.length.symm ▸ hk)⟩
  obtain ⟨name, hname⟩ : ∃ n, (methodNames (RoutePlan.ofDocument doc topology table))[k]? = some n :=
    ⟨_, List.getElem?_eq_getElem (family_methodNames.length.symm ▸ hk)⟩
  have hpath : ((RoutePlan.ofDocument doc topology table).routes.map Route.path)[k]? = some op.path := by
    rw [List.getElem?_map, hroute]
    rfl
  have hnames : ((methodNames (RoutePlan.ofDocument doc topology table)).zip
      (endpointNames (RoutePlan.ofDocument doc topology table)))[k]? = some (name, endpoint) :=
    List.getElem?_zip_eq_some.2 ⟨hname, hendpoint⟩
  refine ⟨_, getElem?_methods.2 ⟨_, _, hroute, hnames, rfl⟩, ?tokens, Method.nodup_parameterNames _ _, ?named,
    ?alone, ?endpoint, ?found⟩
  case tokens =>
    rw [Method.params_ofRoute]
    exact map_zipWith_right (fun _ _ => rfl) (Name.length_ofTokens _ _).symm
  case named =>
    intro p hp
    rw [Method.params_ofRoute] at hp
    obtain ⟨given, hgiven, token, -, rfl⟩ := exists_of_mem_zipWith hp
    refine (Method.legal_paramNames (pathTokens op.path) given ?_).1
    rw [Method.paramNames_eq]
    exact List.mem_append_left _ hgiven
  case alone =>
    intro hnil given hgiven
    have hnone : pathTokens op.path = [] := by
      have hlength := congrArg List.length hnil
      rw [Method.params_ofRoute, List.length_zipWith, Name.length_ofTokens, Nat.min_self] at hlength
      exact List.eq_nil_of_length_eq_zero hlength
    rw [Method.parameterNames_ofRoute, RoutePlan.routeOf] at hgiven
    simp only [hnone] at hgiven
    obtain ⟨s, -, rfl⟩ := Option.map_eq_some_iff.1 (Option.mem_toList.1 hgiven)
    decide +kernel
  case endpoint => exact (family_endpointNames.legal endpoint (List.mem_of_getElem? hendpoint)).1
  case found =>
    have hmem : ⟨endpoint, op.path⟩ ∈ (ofPlan options (RoutePlan.ofDocument doc topology table)).endpoints :=
      List.mem_of_getElem? (getElem?_endpoints.2 ⟨endpoint, op.path, hendpoint, hpath, rfl⟩)
    have hnodup : ((ofPlan options (RoutePlan.ofDocument doc topology table)).endpoints.map
        Endpoint.name).Nodup := by
      rw [names_endpoints]
      exact family_endpointNames.nodup
    refine valueOf?_of_mem ?_ (List.mem_map_of_mem hmem)
    rwa [List.map_map]

/-- **Which methods fill in their paths**, for every document. In the place of every operation stands a method
with a parameter for every token of the path of the operation, and the names of its parameters are distinct.

* It asks for the path with its arguments in place of the tokens exactly if the tokens are distinct, none of
  them is lost, and no parameter has the name of `buildPath` or of the endpoints, or one that cannot be bound.
* It fills in its path, and hides nothing that it uses, exactly if besides no parameter has the name of
  anything else that it uses. -/
theorem fillsPaths_iff (inherited : String → Option String) (options : ClientOptions) (doc : Document)
    (topology : Topology) (table : BindingTable) :
    let file := ofPlan options (RoutePlan.ofDocument doc topology table)
    List.Forall₂ (fun op m =>
      m.params.map TokenParam.token = pathTokens op.path ∧ m.parameterNames.Nodup ∧
      (m.Evaluates inherited file op.path ↔ (pathTokens op.path).Nodup ∧ (∀ p ∈ m.params, ¬ p.Lost) ∧
        ∀ name ∈ m.parameterNames, name ∉ pathNames ++ unbindable) ∧
      (m.Fills inherited file op.path ↔ (pathTokens op.path).Nodup ∧ (∀ p ∈ m.params, ¬ p.Lost) ∧
        ∀ name ∈ m.parameterNames, name ∉ usedNames ++ unbindable)) doc.operations file.methods := by
  intro file
  refine List.forall₂_iff_get.2 ⟨length_methods.symm, fun k hop hm => ?_⟩
  obtain ⟨m, hk, h⟩ := placed (List.getElem?_eq_getElem hop)
  obtain rfl := Option.some.inj ((List.getElem?_eq_getElem hm).symm.trans hk)
  exact ⟨h.tokens, h.distinct, h.evaluates_iff, h.fills_iff⟩

/-- A path whose token is the name of the function that fills it in. -/
def hidingPath : String := "/api/v1/\x7bbuildPath\x7d"

/-- A client with a method for this path. -/
def hidingFile : ClientFile :=
  ofPlan {} (RoutePlan.ofDocument
    { paths := [⟨hidingPath, [{ path := hidingPath, verb := .get, operationId := some "build" }]⟩] }
    (.ofDocument "/api/v1" {}) .builtin)

/-- The parameter for the token hides the function that is called: the method asks for no path. -/
theorem not_fills_buildPath :
    hidingFile.methods.map Method.pathText =
      ["buildPath(API_ENDPOINTS.BUILD, \x7b buildPath \x7d)"] ∧
    hidingFile.methods.map (fun m => m.evaluate (fun _ => none) hidingFile ["1"]) = [none] ∧
    ∀ m ∈ hidingFile.methods, ¬ m.Fills (fun _ => none) hidingFile hidingPath := by
  have heval : hidingFile.methods.map (fun m => m.evaluate (fun _ => none) hidingFile ["1"]) = [none] := by
    decide +kernel
  refine ⟨by decide +kernel, heval, fun m hm hfills => ?_⟩
  have hnone := List.mem_map_of_mem (f := fun m => m.evaluate (fun _ => none) hidingFile ["1"]) hm
  rw [heval, List.mem_singleton] at hnone
  have hsome := hfills.evaluates ["1"] (by decide +kernel)
  rw [hnone] at hsome
  cases hsome

end ClientFile

end ApiCodegen.Client
