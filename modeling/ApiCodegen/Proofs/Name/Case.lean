import ApiCodegen.Proofs.Name.Legal

/-!
# Names made of words

* `Splits`: **a text is gaps and words in turn**, and its words are as long as they can be.
* `splits_iff`: there is one way to split a text, and its words are its runs.
* `all_of_mem_runs`, `ne_nil_of_mem_runs`: runs are made of the characters that were asked for.
* `isIdentifier_upperSnake`, `legal_upperSnake`: **an identifier in upper snake case is a legal name.**
-/

namespace ApiCodegen.Name

variable {p : Char → Bool} {c : Char} {cs gap word rest run : List Char} {words : List (List Char)}

/-! ## Runs -/

/-- **A text is gaps and words in turn.** A word is as long as it can be: a gap or an end of the text is on
either side. -/
inductive Splits (p : Char → Bool) : List Char → List (List Char) → Prop
  | gap {gap : List Char} : (∀ c ∈ gap, p c = false) → Splits p gap []
  | word {gap word rest : List Char} {more : List (List Char)} : (∀ c ∈ gap, p c = false) → word ≠ [] →
      (∀ c ∈ word, p c) → (∀ c ∈ rest.head?, p c = false) → Splits p rest more →
      Splits p (gap ++ (word ++ rest)) (word :: more)

/-- A character of a gap in front of a text is no part of its words. -/
theorem Splits.cons_gap (hc : p c = false) (h : Splits p cs words) : Splits p (c :: cs) words := by
  cases h with
  | gap hgap => exact .gap (List.forall_mem_cons.2 ⟨hc, hgap⟩)
  | word hgap hne hword hrest hmore =>
    rw [← List.cons_append]
    exact .word (List.forall_mem_cons.2 ⟨hc, hgap⟩) hne hword hrest hmore

/-- A text may start with a word. -/
theorem Splits.cons (hne : word ≠ []) (hword : ∀ c ∈ word, p c) (hrest : ∀ c ∈ rest.head?, p c = false)
    (h : Splits p rest words) : Splits p (word ++ rest) (word :: words) := by
  have hgap : ∀ c ∈ ([] : List Char), p c = false := by simp
  exact .word hgap hne hword hrest h

/-- A character of a word in front of a text is a word of its own, or makes the word behind it longer. -/
theorem Splits.exists_cons (hc : p c) (h : Splits p cs words) : ∃ words', Splits p (c :: cs) words' := by
  by_cases hcs : ∀ d ∈ cs.head?, p d = false
  · exact ⟨[c] :: words, .cons (List.cons_ne_nil c []) (by simpa using hc) hcs h⟩
  · cases h with
    | gap hgap => exact absurd (fun d hd => hgap d (List.mem_of_mem_head? hd)) hcs
    | @word gap word rest more hgap hne hword hrest hmore =>
      cases gap with
      | nil => exact ⟨(c :: word) :: more, .cons (List.cons_ne_nil _ _)
          (List.forall_mem_cons.2 ⟨hc, hword⟩) hrest hmore⟩
      | cons d gap => exact absurd (by simpa using hgap d List.mem_cons_self) hcs

theorem exists_splits (p : Char → Bool) (cs : List Char) : ∃ words, Splits p cs words := by
  induction cs with
  | nil => exact ⟨[], .gap (by simp)⟩
  | cons c cs ih =>
    obtain ⟨words, h⟩ := ih
    cases hc : p c with
    | false => exact ⟨words, h.cons_gap hc⟩
    | true => exact h.exists_cons hc

theorem runs_cons_cons {d : Char} (hc : p c) (hd : p d) (h : runs p (d :: cs) = word :: words) :
    runs p (c :: d :: cs) = (c :: word) :: words := by
  rw [runs, if_pos hc]
  simp only [if_pos hd, h]

theorem runs_cons_of_neg (hc : p c = false) (cs : List Char) : runs p (c :: cs) = runs p cs := by
  cases cs <;> simp [runs, hc]

/-- Gaps have no runs. -/
theorem runs_append_gap (h : ∀ c ∈ gap, p c = false) (rest : List Char) : runs p (gap ++ rest) = runs p rest := by
  induction gap with
  | nil => rfl
  | cons c gap ih =>
    obtain ⟨hc, hgap⟩ := List.forall_mem_cons.1 h
    rw [List.cons_append, runs_cons_of_neg hc, ih hgap]

/-- A word is a run. -/
theorem runs_append_word (hne : word ≠ []) (hword : ∀ c ∈ word, p c) (hrest : ∀ c ∈ rest.head?, p c = false) :
    runs p (word ++ rest) = word :: runs p rest := by
  induction word with
  | nil => exact absurd rfl hne
  | cons c word ih =>
    obtain ⟨hc, hword⟩ := List.forall_mem_cons.1 hword
    cases word with
    | nil =>
      cases rest with
      | nil => simp [runs, hc]
      | cons d rest => simp [runs, hc, hrest d rfl]
    | cons d word => exact runs_cons_cons hc (hword d List.mem_cons_self) (ih (List.cons_ne_nil d word) hword)

/-- **There is one way to split a text**: its words are its runs. -/
theorem splits_iff : Splits p cs words ↔ words = runs p cs := by
  have hruns {words : List (List Char)} (h : Splits p cs words) : words = runs p cs := by
    induction h with
    | gap hgap => simpa only [List.append_nil, runs] using (runs_append_gap hgap []).symm
    | word hgap hne hword hrest _ ih => rw [runs_append_gap hgap, runs_append_word hne hword hrest, ← ih]
  refine ⟨hruns, ?_⟩
  rintro rfl
  obtain ⟨words, h⟩ := exists_splits p cs
  exact hruns h ▸ h

theorem splits_runs (p : Char → Bool) (cs : List Char) : Splits p cs (runs p cs) := splits_iff.2 rfl

theorem Splits.forall_mem (h : Splits p cs words) : ∀ word ∈ words, word ≠ [] ∧ ∀ c ∈ word, p c := by
  induction h with
  | gap => simp
  | word _ hne hword _ _ ih => exact List.forall_mem_cons.2 ⟨⟨hne, hword⟩, ih⟩

/-- A run has a first character. -/
theorem ne_nil_of_mem_runs (h : run ∈ runs p cs) : run ≠ [] := ((splits_runs p cs).forall_mem run h).1

/-- The characters of a run are those that were asked for. -/
theorem all_of_mem_runs (h : run ∈ runs p cs) : ∀ c ∈ run, p c := ((splits_runs p cs).forall_mem run h).2

/-! ## Upper snake case -/

/-- The characters of a name in upper snake case: those of the name in upper case, and underscores. -/
theorem mem_upperSnakeChars {afterLow : Bool} (h : c ∈ upperSnakeChars afterLow cs) :
    c = '_' ∨ ∃ d ∈ cs, c = d.toUpper := by
  induction cs generalizing afterLow with
  | nil => exact absurd h List.not_mem_nil
  | cons first rest ih =>
    have htail (h : c ∈ first.toUpper :: upperSnakeChars (first.isLower || first.isDigit) rest) :
        c = '_' ∨ ∃ d ∈ first :: rest, c = d.toUpper := by
      rcases List.mem_cons.1 h with rfl | h
      · exact .inr ⟨first, List.mem_cons_self, rfl⟩
      · refine (ih h).imp_right ?_
        rintro ⟨d, hd, rfl⟩
        exact ⟨d, List.mem_cons_of_mem _ hd, rfl⟩
    unfold upperSnakeChars at h
    dsimp only at h
    split at h
    · rcases List.mem_cons.1 h with rfl | h
      · exact .inl rfl
      · exact htail h
    · exact htail h

/-- **An identifier in upper snake case is an identifier**, and has no lower-case letters. -/
theorem isIdentifier_upperSnake {name : String} (h : isIdentifier name.toList) :
    isIdentifier (upperSnake name).toList ∧ ∀ c ∈ (upperSnake name).toList, c.isLower = false := by
  rw [upperSnake, String.toList_ofList]
  obtain ⟨hne, hhead, hall⟩ := isIdentifier_iff.1 h
  have hchars {c : Char} (hc : c ∈ upperSnakeChars false name.toList) :
      isWordChar c ∧ c.isLower = false := by
    rcases mem_upperSnakeChars hc with rfl | ⟨d, hd, rfl⟩
    · decide
    · exact ⟨isWordChar_toUpper (hall d hd), isLower_toUpper (hall d hd)⟩
  refine ⟨isIdentifier_iff.2 ⟨?_, ?_, fun c hc => (hchars hc).1⟩, fun c hc => (hchars hc).2⟩
  · cases hname : name.toList with
    | nil => exact absurd hname hne
    | cons c rest => simp [upperSnakeChars]
  · cases hname : name.toList with
    | nil => exact absurd hname hne
    | cons c rest =>
      rw [hname] at hhead hall
      have hdigit : c.toUpper.isDigit = false := by
        rw [isDigit_toUpper (hall c List.mem_cons_self)]
        exact hhead c rfl
      simpa [upperSnakeChars] using hdigit

/-- **It is a legal name of the client files**, whose reserved words are in lower case. -/
theorem legal_upperSnake {name : String} (h : isIdentifier name.toList) :
    Legal clientReserved (upperSnake name) := by
  have hlower : ∀ w ∈ clientReserved, w.toList.any Char.isLower := by decide +kernel
  obtain ⟨hid, hupper⟩ := isIdentifier_upperSnake h
  refine ⟨hid, fun hmem => ?_⟩
  obtain ⟨c, hc, hc'⟩ := List.any_eq_true.1 (hlower _ hmem)
  rw [hupper c hc] at hc'
  cases hc'

end ApiCodegen.Name
