import ApiCodegen.Proofs.Name.Case
import ApiCodegen.Schema.Verb

/-!
# Operations without an identifier

The identifier of such an operation is written in one pass over its verb and its path: one character after the
other, with a look at what was written last. What the pass leaves at the ends is taken off then.

* `SingleUnderscores`: no underscore at an end of a text, and no two in a row.
* `single_intercalate`: **words are joined by single underscores.**
* `foldl_of_splits`, `foldl_writeChar`: what the pass writes behind a word, and for a text.
* `operationChars_eq`: **the pass and the trimming leave the joined words**, for every verb and path.
* `isIdentifier_operation`: **a verb and a path make an identifier**, whatever the path.
* `operation_canonical`: **the identifier is the verb and the words of the path.**
-/

namespace ApiCodegen.Name

variable {c : Char} {cs gap word rest out : List Char} {words : List (List Char)}

/-! ## Underscores -/

/-- **Single underscores**: none at an end of a text, and no two in a row. -/
structure SingleUnderscores (cs : List Char) : Prop where
  head : cs.head? ≠ some '_'
  last : cs.getLast? ≠ some '_'
  inside : ¬ ['_', '_'] <:+: cs

theorem single_of_not_mem (h : '_' ∉ cs) : SingleUnderscores cs where
  head hhead := h (List.mem_of_mem_head? hhead)
  last hlast := h (List.mem_of_getLast? hlast)
  inside hinside := h (hinside.subset List.mem_cons_self)

/-- There are no two in a row around a `_` between two texts. -/
theorem not_infix_append (hword : '_' ∉ word) (h : SingleUnderscores cs) :
    ¬ ['_', '_'] <:+: word ++ '_' :: cs := by
  intro hinside
  induction word with
  | nil =>
    rcases List.infix_cons_iff.1 hinside with ⟨behind, hbehind⟩ | hinside
    · -- the second one would be the first character of the text behind
      refine h.head ?_
      rw [← (List.cons.inj hbehind).2]
      rfl
    · exact h.inside hinside
  | cons c word ih =>
    obtain ⟨hc, hword⟩ := not_or.1 (mt List.mem_cons.2 hword)
    rcases List.infix_cons_iff.1 hinside with ⟨behind, hbehind⟩ | hinside
    · exact hc (List.cons.inj hbehind).1
    · exact ih hword hinside

theorem SingleUnderscores.append (hword : '_' ∉ word) (hne : word ≠ []) (h : SingleUnderscores cs)
    (hcs : cs ≠ []) :
    SingleUnderscores (word ++ '_' :: cs) where
  head := by
    rw [List.head?_append_of_ne_nil _ hne]
    exact (single_of_not_mem hword).head
  last := by
    rw [List.getLast?_append_cons, List.getLast?_cons_of_ne_nil hcs]
    exact h.last
  inside := not_infix_append hword h

theorem intercalate_cons_eq (first : List Char) (more : List (List Char)) :
    List.intercalate ['_'] (first :: more) = first ++ more.flatMap ('_' :: ·) := by
  induction more generalizing first with
  | nil => simp
  | cons second more ih =>
    rw [List.intercalate_cons_cons, ih, List.flatMap_cons, List.append_assoc, List.singleton_append,
      List.cons_append]

/-- **Words are joined by single underscores.** -/
theorem single_intercalate (h : ∀ word ∈ words, word ≠ [] ∧ '_' ∉ word) :
    SingleUnderscores (List.intercalate ['_'] words) := by
  induction words with
  | nil => exact single_of_not_mem List.not_mem_nil
  | cons first more ih =>
    obtain ⟨⟨hne, hfirst⟩, hmore⟩ := List.forall_mem_cons.1 h
    cases more with
    | nil => simpa using single_of_not_mem hfirst
    | cons second more =>
      have hsecond : List.intercalate ['_'] (second :: more) ≠ [] := by
        rw [intercalate_cons_eq]
        exact List.append_ne_nil_of_left_ne_nil (List.forall_mem_cons.1 hmore).1.1 _
      rw [List.intercalate_cons_cons, List.append_assoc, List.singleton_append]
      exact (ih hmore).append hfirst hne hsecond

/-- Underscores around a text are taken off. -/
theorem trimUnderscores_append {front back : List Char} (hfront : ∀ c ∈ front, c = '_')
    (hback : ∀ c ∈ back, c = '_')
    (h : SingleUnderscores cs) : trimUnderscores (front ++ (cs ++ back)) = cs := by
  have hdrop {marks ds : List Char} (hmarks : ∀ c ∈ marks, c = '_') :
      (marks ++ ds).dropWhile (· == '_') = ds.dropWhile (· == '_') :=
    List.dropWhile_append_of_pos fun c hc => beq_iff_eq.2 (hmarks c hc)
  have hkeep {ds : List Char} (hds : ds.head? ≠ some '_') : ds.dropWhile (· == '_') = ds := by
    cases ds with
    | nil => rfl
    | cons c ds => exact List.dropWhile_cons_of_neg (by simpa using hds)
  rw [trimUnderscores, hdrop hfront]
  cases cs with
  | nil =>
    rw [List.nil_append, ← List.append_nil back, hdrop hback]
    rfl
  | cons c cs =>
    have hhead : (c :: cs ++ back).head? ≠ some '_' := h.head
    have hlast : (c :: cs).reverse.head? ≠ some '_' := by
      rw [List.head?_reverse]
      exact h.last
    have hreverse : ∀ d ∈ back.reverse, d = '_' := fun d hd => hback d (List.mem_reverse.1 hd)
    rw [hkeep hhead, List.reverse_append, hdrop hreverse, hkeep hlast, List.reverse_reverse]

/-! ## Writing a text -/

/-- No letter becomes a `_` in lower case. -/
theorem toLower_ne_underscore (hc : c.isAlphanum) : c.toLower ≠ '_' := by
  have h := forall_isWordChar (fun c => !c.isAlphanum || c.toLower != '_') (by decide +kernel)
    (isWordChar_of_isAlphanum hc)
  simpa [hc] using h

theorem not_mem_map_toLower (hword : ∀ c ∈ word, c.isAlphanum) : '_' ∉ word.map Char.toLower := by
  intro hmem
  obtain ⟨c, hc, heq⟩ := List.mem_map.1 hmem
  exact toLower_ne_underscore (hword c hc) heq

/-- What a gap writes: a `_`, unless one was written last. -/
def marked (out : List Char) : List Char := if out.head? = some '_' then out else '_' :: out

theorem writeChar_of_neg (hc : c.isAlphanum = false) : writeChar out c = marked out := by
  simp [writeChar, marked, hc]

theorem writeChar_of_pos (hc : c.isAlphanum) : writeChar out c = c.toLower :: out := by
  simp [writeChar, hc, toLower_ne_underscore hc]

theorem marked_marked (out : List Char) : marked (marked out) = marked out := by
  unfold marked
  split <;> simp_all

theorem foldl_gap (h : ∀ c ∈ gap, c.isAlphanum = false) (hne : gap ≠ []) :
    gap.foldl writeChar out = marked out := by
  induction gap generalizing out with
  | nil => exact absurd rfl hne
  | cons c gap ih =>
    obtain ⟨hc, hgap⟩ := List.forall_mem_cons.1 h
    rw [List.foldl_cons, writeChar_of_neg hc]
    cases gap with
    | nil => rfl
    | cons d gap => rw [ih hgap (List.cons_ne_nil d gap), marked_marked]

theorem foldl_word (h : ∀ c ∈ word, c.isAlphanum) :
    word.foldl writeChar out = (word.map Char.toLower).reverse ++ out := by
  induction word generalizing out with
  | nil => rfl
  | cons c word ih =>
    obtain ⟨hc, hword⟩ := List.forall_mem_cons.1 h
    rw [List.foldl_cons, writeChar_of_pos hc, ih hword, List.map_cons, List.reverse_cons, List.append_assoc,
      List.singleton_append]

theorem head?_of_written (hne : word ≠ []) (hword : ∀ c ∈ word, c.isAlphanum) (out : List Char) :
    ((word.map Char.toLower).reverse ++ out).head? ≠ some '_' := by
  intro hhead
  rw [List.head?_append_of_ne_nil _ (by simpa using hne)] at hhead
  exact not_mem_map_toLower hword (List.mem_reverse.1 (List.mem_of_mem_head? hhead))

/-- **What is written behind a word**: the words that follow, each behind a `_`, and what the last gap leaves. -/
theorem foldl_of_splits (h : Splits Char.isAlphanum rest words) (hrest : ∀ c ∈ rest.head?, c.isAlphanum = false)
    (hout : out.head? ≠ some '_') : ∃ back : List Char, (∀ c ∈ back, c = '_') ∧
      rest.foldl writeChar out = back ++
        ((words.flatMap fun word => '_' :: word.map Char.toLower).reverse ++ out) := by
  induction h generalizing out with
  | @gap gap hgap =>
    cases gap with
    | nil => exact ⟨[], by simp, rfl⟩
    | cons c gap =>
      refine ⟨['_'], by simp, ?_⟩
      rw [foldl_gap hgap (List.cons_ne_nil c gap), marked, if_neg hout]
      rfl
  | @word gap word rest more hgap hne hword hbehind _ ih =>
    -- a word ended before, so there is a gap, and it writes one underscore however long it is
    have hgapne : gap ≠ [] := by
      rintro rfl
      obtain ⟨c, word, rfl⟩ := List.exists_cons_of_ne_nil hne
      have hc := hrest c rfl
      rw [hword c List.mem_cons_self] at hc
      cases hc
    obtain ⟨back, hback, hmore⟩ := ih hbehind (head?_of_written hne hword ('_' :: out))
    refine ⟨back, hback, ?_⟩
    rw [List.foldl_append, foldl_gap hgap hgapne, marked, if_neg hout, List.foldl_append, foldl_word hword, hmore]
    simp

/-- At the start of a text, a gap leaves underscores. -/
theorem exists_foldl_gap (h : ∀ c ∈ gap, c.isAlphanum = false) :
    ∃ front, (∀ c ∈ front, c = '_') ∧ gap.foldl writeChar [] = front := by
  cases gap with
  | nil => exact ⟨[], by simp, rfl⟩
  | cons c gap => exact ⟨['_'], by simp, foldl_gap h (List.cons_ne_nil c gap)⟩

/-- **What is written for a text**: its words in lower case, joined by single underscores, and what the gaps
at its ends leave. -/
theorem foldl_writeChar (cs : List Char) :
    ∃ front back : List Char, (∀ c ∈ front, c = '_') ∧ (∀ c ∈ back, c = '_') ∧
    (cs.foldl writeChar []).reverse = front ++
      (List.intercalate ['_'] ((runs Char.isAlphanum cs).map (·.map Char.toLower)) ++ back) := by
  have h := splits_runs Char.isAlphanum cs
  generalize runs Char.isAlphanum cs = words at h
  cases h with
  | gap hgap =>
    obtain ⟨front, hfront, hwritten⟩ := exists_foldl_gap hgap
    exact ⟨front.reverse, [], by simpa using hfront, by simp, by simp [hwritten]⟩
  | @word gap word rest more hgap hne hword hbehind hmore =>
    obtain ⟨front, hfront, hwritten⟩ := exists_foldl_gap hgap
    obtain ⟨back, hback, heq⟩ := foldl_of_splits hmore hbehind (head?_of_written hne hword front)
    refine ⟨front.reverse, back.reverse, by simpa using hfront, by simpa using hback, ?_⟩
    rw [List.foldl_append, hwritten, List.foldl_append, foldl_word hword, heq, List.map_cons, intercalate_cons_eq,
      List.flatMap_map]
    simp

/-! ## Verbs and paths -/

/-- The words of a text have no underscores in lower case. -/
theorem of_mem_lower_runs :
    ∀ word ∈ (runs Char.isAlphanum cs).map (·.map Char.toLower), word ≠ [] ∧ '_' ∉ word := by
  intro word hword
  obtain ⟨run, hrun, rfl⟩ := List.mem_map.1 hword
  exact ⟨mt List.map_eq_nil_iff.1 (ne_nil_of_mem_runs hrun), not_mem_map_toLower (all_of_mem_runs hrun)⟩

/-- **The pass and the trimming leave the joined words.** -/
theorem operationChars_eq (verb path : List Char) : operationChars verb path =
    List.intercalate ['_'] ((runs Char.isAlphanum (verb ++ '_' :: unbraced path)).map (·.map Char.toLower)) := by
  obtain ⟨front, back, hfront, hback, hwritten⟩ := foldl_writeChar (verb ++ '_' :: unbraced path)
  rw [operationChars, hwritten]
  exact trimUnderscores_append hfront hback (single_intercalate of_mem_lower_runs)

theorem single_operationChars (verb path : List Char) : SingleUnderscores (operationChars verb path) := by
  rw [operationChars_eq]
  exact single_intercalate of_mem_lower_runs

/-- A verb is a word in lower case. -/
theorem word_lower (verb : Verb) : verb.lower.toList ≠ [] ∧ (∀ c ∈ verb.lower.toList, c.isAlphanum) ∧
    verb.lower.toList.map Char.toLower = verb.lower.toList := by
  have hword : verb.lower.toList.all Char.isAlphanum := by cases verb <;> decide
  exact ⟨by cases verb <;> decide, List.all_eq_true.1 hword, by cases verb <;> decide⟩

/-- **What an operation is called**: its verb and the words of its path. -/
theorem toList_operation (verb : Verb) (path : String) : (operation verb.lower path).toList =
    List.intercalate ['_']
      (verb.lower.toList :: (runs Char.isAlphanum (unbraced path.toList)).map (·.map Char.toLower)) := by
  obtain ⟨hne, hword, hlower⟩ := word_lower verb
  have hmark : '_'.isAlphanum = false := by decide
  rw [operation, String.toList_ofList, operationChars_eq, runs_append_word hne hword (by simp),
    runs_cons_of_neg hmark, List.map_cons, hlower]

/-- Its characters are those of the verb, and words behind underscores. -/
theorem toList_operation_append (verb : Verb) (path : String) : (operation verb.lower path).toList =
    verb.lower.toList ++ (runs Char.isAlphanum (unbraced path.toList)).flatMap fun word =>
      '_' :: word.map Char.toLower := by
  rw [toList_operation, intercalate_cons_eq, List.flatMap_map]

/-- **A verb and a path make an identifier**, whatever the path. -/
theorem isIdentifier_operation (verb : Verb) (path : String) :
    isIdentifier (operation verb.lower path).toList := by
  have hverb : isIdentifier verb.lower.toList := by cases verb <;> decide
  rw [toList_operation_append]
  refine isIdentifier_append hverb fun c hc => ?_
  obtain ⟨run, hrun, hc⟩ := List.mem_flatMap.1 hc
  rcases List.mem_cons.1 hc with rfl | hc
  · decide
  · obtain ⟨d, hd, rfl⟩ := List.mem_map.1 hc
    exact isWordChar_toLower (isWordChar_of_isAlphanum (all_of_mem_runs hrun d hd))

/-- No keyword of the server files starts with a verb. -/
theorem not_prefix_of_mem_serverReserved (verb : Verb) :
    ∀ keyword ∈ serverReserved, ¬ verb.lower.toList <+: keyword.toList := by
  cases verb <;> decide +kernel

/-- **The identifier of an operation without one of its own**, for every verb and path.

* The words of the path without its braces are its maximal runs of letters and digits, and nothing else is.
* The identifier is the verb and these words, in lower case and joined by single underscores.
* It is not empty, starts with the verb, is an identifier and no keyword of the server files, and has no
  underscore at an end nor two in a row. -/
theorem operation_canonical (verb : Verb) (path : String) :
    (∀ words, Splits Char.isAlphanum (unbraced path.toList) words ↔
      words = runs Char.isAlphanum (unbraced path.toList)) ∧
    operation verb.lower path = "_".intercalate (verb.lower ::
      (runs Char.isAlphanum (unbraced path.toList)).map fun word => String.ofList (word.map Char.toLower)) ∧
    operation verb.lower path ≠ "" ∧
    verb.lower.toList <+: (operation verb.lower path).toList ∧
    Legal serverReserved (operation verb.lower path) ∧
    SingleUnderscores (operation verb.lower path).toList := by
  have hprefix : verb.lower.toList <+: (operation verb.lower path).toList := by
    rw [toList_operation_append]
    exact List.prefix_append _ _
  refine ⟨fun words => splits_iff, ?_, ?_, hprefix, ⟨isIdentifier_operation verb path, ?_⟩, ?_⟩
  · rw [← String.toList_inj, toList_operation, String.toList_intercalate]
    simp [Function.comp_def]
  · intro hempty
    rw [hempty] at hprefix
    exact (word_lower verb).1 (List.prefix_nil.1 hprefix)
  · exact fun hmem => not_prefix_of_mem_serverReserved verb _ hmem hprefix
  · rw [operation, String.toList_ofList]
    exact single_operationChars _ _

example : operation "get" "/a\x7d\x7bb//\x7bid\x7d/é_X/" = "get_ab_id_x" := by decide +kernel

end ApiCodegen.Name
