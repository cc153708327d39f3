import ApiCodegen.Proofs.Text.Lines
import ApiCodegen.Server.Docstring

/-!
# A documentation string is one literal

Whatever a description says, no quotes inside the string end it. The string is laid out in lines, and
blanks at line ends are lost, so the question is asked about texts in general.

* `Escaped`: **a text in which no three quotes stand together, and nothing but quotes and backslashes is
  escaped.**
* `escaped_escapeDoc`, `Escaped.lines`, `Escaped.trimEnd`: the text of a description is one, and so is what
  becomes of it.
* `Escaped.lex`: such a text is passed over inside of a long literal.
* `linesRead_docstring`: **the lines of a documentation string are one literal on a line of its own.**
-/

namespace ApiCodegen.Server

open Text

variable {c d : Char} {cs ds : List Char} {q : ℕ}

/-- **A text inside of a long literal**, behind some quotes: no three quotes stand together, and what is
escaped is a quote or a backslash. -/
inductive Escaped : ℕ → List Char → Prop
  | nil {q : ℕ} : Escaped q []
  | quote {q : ℕ} {cs : List Char} (hq : q < 2) (h : Escaped (q + 1) cs) : Escaped q ('"' :: cs)
  | escape {q : ℕ} {d : Char} {cs : List Char} (hd : d = '"' ∨ d = '\\') (h : Escaped 0 cs) :
      Escaped q ('\\' :: d :: cs)
  | char {q : ℕ} {c : Char} {cs : List Char} (hquote : c ≠ '"') (hback : c ≠ '\\') (h : Escaped 0 cs) :
      Escaped q (c :: cs)

/-- **What is written of a description is escaped**, also behind quotes that it does not go on with. -/
theorem escaped_escapeDoc (cs : List Char) (hq : q < 3)
    (h : q = 0 ∨ ¬ List.replicate (3 - q) '"' <+: cs) : Escaped q (escapeDoc cs) := by
  fun_induction escapeDoc cs generalizing q with
  | case1 => exact .nil
  | case2 rest ih =>
    have hrest : Escaped 0 (escapeDoc rest) := ih (by omega) (.inl rfl)
    exact .escape (.inl rfl) (.escape (.inl rfl) (.escape (.inl rfl) hrest))
  | case3 rest ih => exact .escape (.inr rfl) (ih (by omega) (.inl rfl))
  | case4 c rest htriple hback ih =>
    have hback : c ≠ '\\' := fun hc => hback hc
    by_cases hquote : c = '"'
    · subst hquote
      rcases h with rfl | h
      · -- the first of at most two quotes
        refine .quote (by omega) (ih (by omega) (.inr fun hprefix => ?_))
        obtain ⟨more, rfl⟩ := hprefix
        exact htriple more rfl rfl
      · have hmore : ¬ List.replicate (2 - q) '"' <+: rest := by
          intro hprefix
          refine h ?_
          rw [show 3 - q = 2 - q + 1 by omega, List.replicate_succ]
          exact List.cons_prefix_cons.2 ⟨rfl, hprefix⟩
        have hlt : q < 2 := by
          by_contra hge
          rw [show 2 - q = 0 by omega] at hmore
          exact hmore List.nil_prefix
        refine .quote hlt (ih (by omega) (.inr ?_))
        rwa [show 3 - (q + 1) = 2 - q by omega]
    · exact .char hquote hback (ih (by omega) (.inl rfl))

namespace Escaped

theorem append (h : Escaped q cs) (hnext : ∀ k, Escaped k ds) : Escaped q (cs ++ ds) := by
  induction h with
  | nil => exact hnext _
  | quote hq _ ih => exact .quote hq ih
  | escape hd _ ih => exact .escape hd ih
  | char hquote hback _ ih => exact .char hquote hback ih

/-- A line end keeps quotes apart. -/
theorem newline (h : Escaped q cs) (hnext : Escaped 0 ds) : Escaped q (cs ++ '\n' :: ds) :=
  h.append fun _ => .char (by decide) (by decide) hnext

/-- So does an indentation. -/
theorem blanks {blanks : List Char} (hb : ∀ b ∈ blanks, isBlank b) (h : Escaped 0 cs) :
    Escaped 0 (blanks ++ cs) := by
  induction blanks with
  | nil => exact h
  | cons b blanks ih =>
    obtain ⟨hblank, hb⟩ := List.forall_mem_cons.1 hb
    exact .char (ne_of_isBlank hblank (by decide)) (ne_of_isBlank hblank (by decide)) (ih hb)

/-- What is escaped is no blank, so blanks at the end can be left out. -/
theorem of_append {blanks : List Char} (h : Escaped q (cs ++ blanks)) (hb : ∀ b ∈ blanks, isBlank b) :
    Escaped q cs := by
  generalize hall : cs ++ blanks = all at h
  induction h generalizing cs with
  | nil =>
    rw [(List.append_eq_nil_iff.1 hall).1]
    exact .nil
  | quote hq _ ih =>
    cases cs with
    | nil => exact .nil
    | cons c cs =>
      obtain ⟨rfl, hrest⟩ := List.cons.inj hall
      exact .quote hq (ih hrest)
  | @escape q d rest hd _ ih =>
    match cs, hall with
    | [], _ => exact .nil
    | [c], hall =>
      -- the escaped character would be a blank
      obtain ⟨-, rfl⟩ : c = '\\' ∧ blanks = d :: rest := by simpa using hall
      have hblank := hb d List.mem_cons_self
      rcases hd with rfl | rfl <;> cases hblank
    | c :: e :: cs, hall =>
      obtain ⟨rfl, rfl, hrest⟩ : c = '\\' ∧ e = d ∧ cs ++ blanks = rest := by simpa using hall
      exact .escape hd (ih hrest)
  | char hquote hback _ ih =>
    cases cs with
    | nil => exact .nil
    | cons c cs =>
      obtain ⟨rfl, hrest⟩ := List.cons.inj hall
      exact .char hquote hback (ih hrest)

theorem trimEnd (h : Escaped q cs) : Escaped q (trimEnd cs) := by
  obtain ⟨blanks, hcs, hblanks⟩ := exists_blanks cs
  rw [hcs] at h
  exact h.of_append hblanks

/-- **The lines of an escaped text are escaped**, the later ones with no quotes in front. -/
theorem lines (h : Escaped q cs) :
    Escaped q ((Text.lines cs).headD []) ∧ ∀ line ∈ (Text.lines cs).tail, Escaped 0 line := by
  induction h with
  | nil => exact ⟨.nil, fun _ hline => absurd hline List.not_mem_nil⟩
  | quote hq _ ih =>
    rw [lines_cons (by decide) (by simp)]
    exact ⟨.quote hq ih.1, ih.2⟩
  | escape hd _ ih =>
    rcases hd with rfl | rfl
    all_goals
      rw [lines_cons (by decide) (by simp), lines_cons (by decide) (by simp)]
    · exact ⟨.escape (.inl rfl) ih.1, ih.2⟩
    · exact ⟨.escape (.inr rfl) ih.1, ih.2⟩
  | @char q c cs hquote hback _ ih =>
    have hall : ∀ line ∈ Text.lines cs, Escaped 0 line := by
      intro line hline
      cases hlines : Text.lines cs with
      | nil =>
        rw [hlines] at hline
        cases hline
      | cons first more =>
        rw [hlines] at ih hline
        rcases List.mem_cons.1 hline with rfl | hline
        · exact ih.1
        · exact ih.2 line hline
    by_cases hnewline : c = '\n'
    · subst hnewline
      exact ⟨.nil, hall⟩
    by_cases hreturn : c = '\r' ∧ cs.head? = some '\n'
    · obtain ⟨rfl, hhead⟩ := hreturn
      obtain ⟨rest, rfl⟩ := List.head?_eq_some_iff.1 hhead
      exact ⟨.nil, ih.2⟩
    · rw [lines_cons hnewline fun h hhead => hreturn ⟨h, hhead⟩]
      exact ⟨.char hquote hback ih.1, ih.2⟩

/-- **An escaped text is passed over inside of a long literal**, and no quotes are left at its end. -/
theorem lex (h : Escaped q cs) (hlast : cs.getLast? ≠ some '"') (hfront : q = 0 ∨ cs ≠ [])
    (value : List Char) : ∃ value', ∀ rest,
      lex .server (.long value q) (cs ++ rest) = lex .server (.long value' 0) rest := by
  have htail {c : Char} {cs : List Char} (h : (c :: cs).getLast? ≠ some '"') :
      cs.getLast? ≠ some '"' := by
    intro hlast
    rw [List.getLast?_cons, hlast] at h
    exact h rfl
  induction h generalizing value with
  | nil =>
    obtain rfl := hfront.resolve_right fun h => h rfl
    exact ⟨value, fun _ => rfl⟩
  | @quote q cs hq _ ih =>
    have hne : cs ≠ [] := by
      rintro rfl
      exact hlast rfl
    obtain ⟨value', hlex⟩ := ih (htail hlast) (.inr hne) value
    refine ⟨value', fun rest => ?_⟩
    have hstep : step .server (.long value q) '"' = ([], .long value (q + 1)) := if_pos hq
    rw [List.cons_append, Text.lex, hstep]
    exact hlex rest
  | @escape q d cs hd _ ih =>
    obtain ⟨value', hlex⟩ := ih (htail (htail hlast)) (.inl rfl)
      (value ++ List.replicate q '"' ++ [d])
    refine ⟨value', fun rest => ?_⟩
    have hescaped : escaped? d = some d := by rcases hd with rfl | rfl <;> rfl
    have hstep (v : List Char) : step .server (.longEscape v) d = ([], .long (v ++ [d]) 0) := by
      rw [step, hescaped]
    have hback : step .server (.long value q) '\\' =
        ([], .longEscape (value ++ List.replicate q '"')) := rfl
    rw [List.cons_append, List.cons_append, Text.lex, hback, Text.lex, hstep]
    exact hlex rest
  | @char q c cs hquote hback _ ih =>
    obtain ⟨value', hlex⟩ := ih (htail hlast) (.inl rfl) (value ++ List.replicate q '"' ++ [c])
    refine ⟨value', fun rest => ?_⟩
    have hstep : step .server (.long value q) c =
        ([], .long (value ++ List.replicate q '"' ++ [c]) 0) := by
      rw [step, if_neg hquote, if_neg hback]
    rw [List.cons_append, Text.lex, hstep]
    exact hlex rest

end Escaped

/-! ## The last character -/

theorem getLast?_escapeDoc (cs : List Char) : (escapeDoc cs).getLast? = cs.getLast? := by
  fun_induction escapeDoc cs with
  | case1 => rfl
  | case2 rest ih | case3 rest ih | case4 c rest _ _ ih => simp [List.getLast?_cons, ih]

/-- The text of a description, up to its lines, is escaped. -/
theorem escaped_guardEnd (cs : List Char) : Escaped 0 (guardEnd (escapeDoc cs)) := by
  have hescaped := escaped_escapeDoc cs (q := 0) (by omega) (.inl rfl)
  unfold guardEnd
  split
  · exact hescaped.append fun _ => .char (by decide) (by decide) .nil
  · exact hescaped

/-- It ends neither in a quote nor in a line feed. -/
theorem getLast?_guardEnd (cs : List Char) :
    (guardEnd (escapeDoc (trimEnd cs))).getLast? ≠ some '"' ∧
      (guardEnd (escapeDoc (trimEnd cs))).getLast? ≠ some '\n' := by
  unfold guardEnd
  split
  · simp
  · rename_i hquote
    refine ⟨hquote, fun hnewline => ?_⟩
    rw [getLast?_escapeDoc] at hnewline
    have hblank := not_isBlank_of_getLast? hnewline
    revert hblank
    decide

/-! ## The lines of a string -/

variable {indent : String}

/-- Lines behind the first one, up to the closing quotes. -/
theorem escaped_docLines (hindent : ∀ b ∈ indent.toList, isBlank b) {lines : List (List Char)}
    (h : ∀ line ∈ lines, Escaped 0 line) :
    Escaped 0 ((ofLines (lines.map (docLine indent))).toList ++ indent.toList) := by
  rw [toList_ofLines]
  induction lines with
  | nil => simpa using Escaped.nil.blanks hindent
  | cons line lines ih =>
    have hline : Escaped 0 (docLine indent line).toList := by
      have htrim := (h line List.mem_cons_self).trimEnd
      unfold docLine
      split
      · exact .nil
      · rw [String.toList_append, String.toList_ofList]
        exact htrim.blanks hindent
    have hmore := ih fun l hl => h l (List.mem_cons_of_mem _ hl)
    simpa using hline.newline hmore

/-- **A documentation string is an escaped text in triple quotes**, behind any indentation. -/
theorem exists_escaped_docstring (hindent : ∀ b ∈ indent.toList, isBlank b) (description : String) :
    ∃ content, Escaped 0 content ∧ content.getLast? ≠ some '"' ∧
      (ofLines (docstring indent description)).toList =
        indent.toList ++ '"' :: '"' :: '"' :: (content ++ ['"', '"', '"', '\n']) := by
  have hescaped := (escaped_guardEnd (trimEnd (trimStart description.toList))).lines
  obtain ⟨hquote, hnewline⟩ := getLast?_guardEnd (trimStart description.toList)
  have hdoc : docLines description =
      Text.lines (guardEnd (escapeDoc (trimEnd (trimStart description.toList)))) := rfl
  rw [← hdoc] at hescaped
  unfold docstring
  split
  · exact ⟨[], .nil, by simp, by simp [toList_ofLines]⟩
  · rename_i line hlines
    rw [hlines] at hescaped
    refine ⟨line, hescaped.1, ?_, by simp [toList_ofLines]⟩
    rw [hdoc] at hlines
    have hline := (eq_append_of_lines_singleton hlines).resolve_right hnewline
    rwa [hline] at hquote
  · rename_i first more _ hlines
    rw [hlines] at hescaped
    have hcontent : Escaped 0 (first ++ '\n' :: _) :=
      hescaped.1.newline (escaped_docLines hindent hescaped.2)
    refine ⟨_, hcontent, ?_, by simp [toList_ofLines]⟩
    -- the indentation stands at the end, or a line feed
    intro hlast
    rw [List.getLast?_append, List.getLast?_cons, List.getLast?_append, List.tail_cons] at hlast
    cases hend : indent.toList.getLast? with
    | some b =>
      rw [hend] at hlast
      obtain rfl : b = '"' := Option.some.inj hlast
      exact absurd rfl (ne_of_isBlank (hindent _ (List.mem_of_getLast? hend)) (by decide))
    | none =>
      rw [hend] at hlast
      cases hlater : (ofLines (more.map (docLine indent))).toList.getLast? with
      | none =>
        rw [hlater] at hlast
        cases hlast
      | some c =>
        rw [hlater, getLast?_ofLines _ c hlater] at hlast
        cases hlast

/-- **The lines of a documentation string are one literal on a line of its own.** -/
theorem linesRead_docstring (n : ℕ) (description : String) : ∃ value, LinesRead .server
    (docstring (String.ofList (List.replicate n ' ')) description) [.line n, .text value] := by
  have hspaces : ∀ b ∈ (String.ofList (List.replicate n ' ')).toList, isBlank b := by
    rw [String.toList_ofList]
    exact fun b => isBlank_of_mem_replicate
  obtain ⟨content, hescaped, hlast, hchars⟩ := exists_escaped_docstring hspaces description
  obtain ⟨value, hlex⟩ := hescaped.lex hlast (.inl rfl) []
  refine ⟨String.ofList value, fun rest => ?_⟩
  have hopen (k : ℕ) (more : List Char) : lex .server (.line k) ('"' :: '"' :: '"' :: more) =
      .line k :: lex .server (.long [] 0) more := rfl
  have hclose (more : List Char) : lex .server (.long value 0) ('"' :: '"' :: '"' :: '\n' :: more) =
      .text (String.ofList value) :: lex .server (.line 0) more := rfl
  rw [hchars, newLine, String.toList_ofList]
  simp only [List.append_assoc, List.cons_append, List.nil_append]
  rw [lex_spaces, Nat.zero_add, hopen, hlex, hclose]

end ApiCodegen.Server
