import ApiCodegen.Client.Block
import ApiCodegen.Client.Comment
import ApiCodegen.Proofs.Numeric.Text
import ApiCodegen.Proofs.Text.Lines

/-!
# A comment is nothing but a comment

A description is laid out in lines, with marks and indentation in front of them. No comment ends inside,
since it would end between two characters that stand side by side.

* `Unended`: **a text in which no comment ends**, said of every two neighbours.
* `unended_escapeComment`: the text of a description is one, and so is each of its lines.
* `lex_comment`: such a text is passed over inside of a comment.
* `exists_unended_commentOf`: **lines are laid out as one comment**, behind any indentation.
* `Indents`: lines with some spaces in front.
* `linesRead_comment`: **the lines of a comment are read as nothing**, indented or not.
-/

namespace ApiCodegen.Client

open Numeric Text

variable {c : Char} {cs ds rest : List Char} {l : String} {lines : List String}

/-! ## Texts in which no comment ends -/

/-- No comment ends between two characters. -/
def Apart (c d : Char) : Prop := ¬ (c = '*' ∧ d = '/')

/-- **A text in which no comment ends.** -/
def Unended (cs : List Char) : Prop := cs.IsChain Apart

theorem unended_cons (hc : c ≠ '*') (h : Unended cs) : Unended (c :: cs) :=
  List.isChain_cons.2 ⟨fun _ _ hend => hc hend.1, h⟩

theorem unended_star (hc : c ≠ '/') (h : Unended (c :: cs)) : Unended ('*' :: c :: cs) :=
  List.isChain_cons_cons.2 ⟨fun hend => hc hend.2, h⟩

theorem Unended.append (h : Unended cs) (hnext : Unended ds) (hd : ds.head? ≠ some '/') :
    Unended (cs ++ ds) := by
  refine List.isChain_append.2 ⟨h, hnext, fun _ _ d hmem hend => hd ?_⟩
  rw [← hend.2]
  exact hmem

theorem unended_of_not_mem (h : '/' ∉ cs) : Unended cs := by
  induction cs with
  | nil => exact List.isChain_nil
  | cons c cs ih =>
    refine List.isChain_cons.2 ⟨fun d hd hend => h ?_, ih fun hmem => h (List.mem_cons_of_mem _ hmem)⟩
    rw [← hend.2]
    exact List.mem_cons_of_mem _ (List.mem_of_mem_head? hd)

theorem Unended.blanks {blanks : List Char} (hb : ∀ b ∈ blanks, isBlank b) (h : Unended cs) :
    Unended (blanks ++ cs) := by
  induction blanks with
  | nil => exact h
  | cons b blanks ih =>
    obtain ⟨hblank, hb⟩ := List.forall_mem_cons.1 hb
    exact unended_cons (ne_of_isBlank hblank (by decide)) (ih hb)

/-- **Where a comment ends with one more slash, it ends nowhere else.** -/
theorem Unended.eq_nil_of_end {front back : List Char} (h : Unended cs)
    (hend : cs ++ ['/'] = front ++ '*' :: '/' :: back) : back = [] := by
  rcases List.eq_nil_or_concat back with rfl | ⟨more, last, rfl⟩
  · rfl
  · -- otherwise a star and a slash are neighbours in the text
    have hlast : front ++ '*' :: '/' :: more.concat last = front ++ '*' :: '/' :: more ++ [last] := by simp
    have hsplit : cs = front ++ '*' :: '/' :: more := (List.append_inj' (hend.trans hlast) rfl).1
    rw [hsplit] at h
    have hneighbours := (List.isChain_append.1 h).2.1
    exact absurd ⟨rfl, rfl⟩ (List.isChain_cons_cons.1 hneighbours).1

/-- Lines are kept apart by their ends. -/
theorem unended_ofLines (h : ∀ l ∈ lines, Unended l.toList) : Unended (ofLines lines).toList := by
  rw [toList_ofLines]
  induction lines with
  | nil => exact List.isChain_nil
  | cons l lines ih =>
    have hmore := ih fun m hm => h m (List.mem_cons_of_mem _ hm)
    rw [List.flatMap_cons, List.append_assoc, List.singleton_append]
    exact (h l List.mem_cons_self).append (unended_cons (by decide) hmore) (by simp)

/-! ## The lines of a comment -/

theorem head?_escapeComment (cs : List Char) : (escapeComment cs).head? = cs.head? := by
  fun_induction escapeComment cs <;> rfl

/-- **In what is written of a description no comment ends.** -/
theorem unended_escapeComment (cs : List Char) : Unended (escapeComment cs) := by
  fun_induction escapeComment cs with
  | case1 => exact List.isChain_nil
  | case2 rest ih =>
    exact unended_star (by decide) (unended_cons (by decide) (unended_cons (by decide) ih))
  | case3 c rest hend ih =>
    refine List.isChain_cons.2 ⟨fun d hd hapart => ?_, ih⟩
    obtain ⟨rfl, rfl⟩ := hapart
    rw [head?_escapeComment] at hd
    obtain ⟨more, rfl⟩ := List.head?_eq_some_iff.1 hd
    exact hend more rfl rfl

theorem unended_descriptionLine {description : String} (h : l ∈ descriptionLines description) :
    Unended l.toList := by
  obtain ⟨line, hline, rfl⟩ := List.mem_map.1 h
  rw [String.toList_ofList]
  have hinfix := (prefix_of_trimEnd line).isInfix.trans (infix_of_mem_lines hline)
  exact List.IsChain.infix (unended_escapeComment _) hinfix

theorem unended_constraintLine {c : Constraints} (h : l ∈ constraintLines c) : Unended l.toList := by
  -- no slash stands in the text of a number
  have hbound {α : Type} (tag : String) (text : α → String) (value : Option α) (htag : '/' ∉ tag.toList)
      (htext : ∀ v, ∀ c ∈ (text v).toList, isNumberChar c) (h : l ∈ boundLine tag text value) :
      Unended l.toList := by
    cases value with
    | none => exact absurd h List.not_mem_nil
    | some v =>
      rw [List.mem_singleton.1 h]
      refine unended_of_not_mem fun hmem => ?_
      simp only [String.toList_append, List.mem_append] at hmem
      rcases hmem with (hmem | hmem) | hmem
      · exact htag hmem
      · revert hmem
        decide
      · have hnumber := htext v _ hmem
        revert hnumber
        decide
  simp only [constraintLines, List.mem_append] at h
  rcases h with ((h | h) | h) | h
  · exact hbound _ _ _ (by decide) forall_bound h
  · exact hbound _ _ _ (by decide) forall_bound h
  · exact hbound _ _ _ (by decide) (fun n _ => forall_nat n) h
  · exact hbound _ _ _ (by decide) (fun n _ => forall_nat n) h

/-- In no line that a comment is made of does a comment end. -/
theorem unended_commentLine {description : Option String} {constraints : Constraints}
    (h : l ∈ (description.map descriptionLines).getD [] ++ constraintLines constraints) :
    Unended l.toList := by
  rcases List.mem_append.1 h with h | h
  · cases description with
    | none => exact absurd h List.not_mem_nil
    | some d => exact unended_descriptionLine h
  · exact unended_constraintLine h

/-! ## Reading comments -/

/-- **A text in which no comment ends is passed over**, behind a character of the comment. -/
theorem lex_comment (h : Unended (c :: cs)) (rest : List Char) :
    lex .client (.comment (c == '*')) (cs ++ rest) =
      lex .client (.comment ((cs.getLast?.getD c) == '*')) rest := by
  induction cs generalizing c with
  | nil => rfl
  | cons d cs ih =>
    obtain ⟨hapart, hmore⟩ := List.isChain_cons_cons.1 h
    have hstep : step .client (.comment (c == '*')) d = ([], .comment (d == '*')) := by
      refine if_neg fun hend => hapart ⟨by simpa using hend.1, hend.2⟩
    rw [List.cons_append, lex, hstep, List.nil_append, ih hmore, List.getLast?_cons]
    rfl

/-- **A comment is passed over as a whole.** -/
theorem lex_comment_between (h : Unended cs) (rest : List Char) :
    lex .client .between ('/' :: '*' :: (cs ++ ' ' :: '*' :: '/' :: rest)) =
      lex .client .between rest := by
  have hopen (more : List Char) : lex .client .between ('/' :: '*' :: more) =
      lex .client (.comment (' ' == '*')) more := rfl
  have hclose : lex .client (.comment (' ' == '*')) ('*' :: '/' :: rest) = lex .client .between rest := rfl
  have hinside : Unended (' ' :: (cs ++ [' '])) :=
    unended_cons (by decide) (h.append (unended_cons (by decide) List.isChain_nil) (by decide))
  have hbody := lex_comment hinside ('*' :: '/' :: rest)
  rw [List.append_assoc, List.singleton_append, List.getLast?_append] at hbody
  rw [hopen, hbody]
  exact hclose

/-! ## Indentation -/

/-- **Lines are laid out as one comment**, behind any indentation: no comment ends in what stands between
its marks, which a star opens. -/
theorem exists_unended_commentOf {indent : String → String} (hindent : ∀ l, ∀ b ∈ (indent l).toList, isBlank b)
    (h : ∀ l ∈ lines, Unended l.toList) :
    commentOf lines = [] ∨ ∃ l inside, Unended ('*' :: inside) ∧
      (ofLines ((commentOf lines).map fun l => indent l ++ l)).toList =
        (indent l).toList ++ '/' :: '*' :: '*' :: (inside ++ [' ', '*', '/', '\n']) := by
  unfold commentOf
  split
  · exact .inl rfl
  · rename_i line
    right
    refine ⟨"/** " ++ line ++ " */", ' ' :: line.toList, ?_, by simp [toList_ofLines]⟩
    exact unended_star (by decide) (unended_cons (by decide) (h line List.mem_cons_self))
  · right
    set marked := lines.map fun line => if line.isEmpty then " *" else " * " ++ line with hmarked
    have hlines : ∀ l ∈ marked.map fun l => indent l ++ l, Unended l.toList := by
      intro l hl
      obtain ⟨_, hmem, rfl⟩ := List.mem_map.1 hl
      obtain ⟨line, hline, rfl⟩ := List.mem_map.1 hmem
      rw [String.toList_append]
      refine Unended.blanks (hindent _) ?_
      split
      · exact unended_of_not_mem (by decide)
      · rw [String.toList_append]
        exact unended_cons (by decide) (unended_star (by decide) (unended_cons (by decide) (h line hline)))
    have hend : Unended (indent " */").toList := by
      simpa using Unended.blanks (hindent " */") List.isChain_nil
    refine ⟨"/**", '\n' :: ((ofLines (marked.map fun l => indent l ++ l)).toList ++ (indent " */").toList),
      ?_, by simp [toList_ofLines]⟩
    have hrest := (unended_ofLines hlines).append hend fun hhead => ?_
    · exact unended_star (by decide) (unended_cons (by decide) hrest)
    · exact absurd rfl (ne_of_isBlank (hindent " */" '/' (List.mem_of_mem_head? hhead)) (by decide))

/-- Some spaces come in front of every line. -/
def Indents (f : String → String) : Prop := ∀ l, ∃ n, (f l).toList = List.replicate n ' ' ++ l.toList

theorem indents_id : Indents id := fun _ => ⟨0, rfl⟩

theorem indents_indented : Indents indented := by
  intro l
  unfold indented
  split
  · exact ⟨0, rfl⟩
  · exact ⟨2, String.toList_append⟩

theorem lex_blanks (n : ℕ) (rest : List Char) :
    lex .client .between (List.replicate n ' ' ++ rest) = lex .client .between rest := by
  induction n with
  | zero => rfl
  | succ n ih => rw [List.replicate_succ, List.cons_append, lex_space, ih]

variable {f : String → String}

/-- **The lines of a comment are read as nothing.** -/
theorem linesRead_commentOf (hf : Indents f) (h : ∀ l ∈ lines, Unended l.toList) :
    LinesRead .client ((commentOf lines).map f) [] := by
  choose n hn using hf
  obtain rfl : f = fun l => String.ofList (List.replicate (n l) ' ') ++ l := by
    funext l
    rw [← String.toList_inj, hn, String.toList_append, String.toList_ofList]
  have hspaces : ∀ l, ∀ b ∈ (String.ofList (List.replicate (n l) ' ')).toList, isBlank b := by
    intro l
    rw [String.toList_ofList]
    exact fun b => isBlank_of_mem_replicate
  rcases exists_unended_commentOf hspaces h with hnil | ⟨l, inside, hinside, hchars⟩
  · rw [hnil]
    exact linesRead_nil
  · intro rest
    rw [hchars, String.toList_ofList, newLine]
    simp only [List.append_assoc, List.cons_append, List.nil_append]
    rw [lex_blanks]
    exact lex_comment_between hinside _

/-- **The lines of a comment are read as nothing**, indented or not. -/
theorem linesRead_comment (hf : Indents f) (description : Option String) (constraints : Constraints) :
    LinesRead .client ((comment description constraints).map f) [] :=
  linesRead_commentOf hf fun _ => unended_commentLine

end ApiCodegen.Client
