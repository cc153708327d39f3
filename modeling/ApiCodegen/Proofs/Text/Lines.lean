import ApiCodegen.Proofs.Text.Token
import ApiCodegen.Text.Blank
import Mathlib.Data.List.DropRight

/-!
# Lines of a file

* `infix_of_mem_lines`, `newline_not_mem_line`: a line is a part of its text, without a line feed.
* `eq_append_of_lines_singleton`: a text of one line is this line, up to its end.
* `prefix_of_trimEnd`, `not_isBlank_of_getLast?`: what is left of a text without the blanks at its end.
* `LinesRead`: **some lines are read as some tokens**, in front of whatever follows.
* `LinesRead.append`, `linesRead_flatMap`: **lines are read one after the other.**
-/

namespace ApiCodegen.Text

variable {cs line : List Char} {c : Char}

/-! ## Lines of a text -/

theorem lines_eq_nil (h : lines cs = []) : cs = [] := by
  unfold lines at h
  split at h
  · rfl
  · cases h
  · cases h
  · split at h <;> cases h

/-- The first line is a start of the text, and every line a part of it. -/
theorem starts_and_parts (cs : List Char) :
    (∀ line ∈ (lines cs).head?, line <+: cs) ∧ ∀ line ∈ lines cs, line <:+: cs := by
  fun_induction lines cs with
  | case1 => simp
  | case2 rest ih =>
    refine ⟨by simp, fun line hline => ?_⟩
    rcases List.mem_cons.1 hline with rfl | hline
    · exact List.nil_infix
    · exact (ih.2 line hline).trans (List.suffix_cons _ _).isInfix
  | case3 rest ih =>
    refine ⟨by simp, fun line hline => ?_⟩
    rcases List.mem_cons.1 hline with rfl | hline
    · exact List.nil_infix
    · exact (ih.2 line hline).trans (List.suffix_append ['\r', '\n'] rest).isInfix
  | case4 c rest _ _ hnil ih =>
    have hprefix : [c] <+: c :: rest := ⟨rest, rfl⟩
    exact ⟨by simp, by simpa using hprefix.isInfix⟩
  | case5 c rest _ _ line more hlines ih =>
    rw [hlines] at ih
    have hprefix : c :: line <+: c :: rest := List.cons_prefix_cons.2 ⟨rfl, ih.1 line rfl⟩
    refine ⟨by simpa using hprefix, fun l hl => ?_⟩
    rcases List.mem_cons.1 hl with rfl | hl
    · exact hprefix.isInfix
    · exact (ih.2 l (List.mem_cons_of_mem _ hl)).trans (List.suffix_cons _ _).isInfix

theorem infix_of_mem_lines (h : line ∈ lines cs) : line <:+: cs := (starts_and_parts cs).2 line h

theorem newline_not_mem_line (h : line ∈ lines cs) : '\n' ∉ line := by
  fun_induction lines cs generalizing line with
  | case1 => exact absurd h List.not_mem_nil
  | case2 rest ih | case3 rest ih =>
    rcases List.mem_cons.1 h with rfl | h
    · exact List.not_mem_nil
    · exact ih h
  | case4 c rest hc _ _ _ =>
    rw [List.mem_singleton.1 h]
    exact fun hmem => hc (List.mem_singleton.1 hmem).symm
  | case5 c rest hc _ first more hlines ih =>
    rw [hlines] at ih
    rcases List.mem_cons.1 h with rfl | h
    · rintro (_ | ⟨_, hmem⟩)
      · exact hc rfl
      · exact ih List.mem_cons_self hmem
    · exact ih (List.mem_cons_of_mem _ h)

/-- A text of one line is this line, up to a line feed. -/
theorem eq_append_of_lines_singleton (h : lines cs = [line]) :
    cs = line ∨ cs.getLast? = some '\n' := by
  fun_induction lines cs generalizing line with
  | case1 => cases h
  | case2 rest _ | case3 rest _ =>
    rw [lines_eq_nil (List.cons.inj h).2]
    exact .inr rfl
  | case4 c rest _ _ hnil _ =>
    rw [lines_eq_nil hnil]
    exact .inl (List.cons.inj h).1
  | case5 c rest _ _ first more hlines ih =>
    obtain ⟨rfl, rfl⟩ := List.cons.inj h
    refine (ih hlines).imp (congrArg _) fun hlast => ?_
    rw [List.getLast?_cons, hlast]
    rfl

/-- A character that ends no line stands at the start of the first one. -/
theorem lines_cons (hc : c ≠ '\n') (hreturn : c = '\r' → cs.head? ≠ some '\n') :
    lines (c :: cs) = (c :: (lines cs).headD []) :: (lines cs).tail := by
  rw [lines.eq_def]
  split
  · exact absurd ‹_› (List.cons_ne_nil _ _)
  · rename_i heq
    exact absurd (List.cons.inj heq).1 hc
  · rename_i heq
    obtain ⟨rfl, rfl⟩ := List.cons.inj heq
    exact absurd rfl (hreturn rfl)
  · rename_i heq
    obtain ⟨rfl, rfl⟩ := List.cons.inj heq
    split <;> rename_i hlines <;> rw [hlines] <;> rfl

/-! ## Blanks -/

theorem ne_of_isBlank {d : Char} (hc : isBlank c) (hd : isBlank d = false) : c ≠ d := by
  rintro rfl
  exact Bool.false_ne_true (hd.symm.trans hc)

theorem isBlank_of_mem_replicate {n : ℕ} (h : c ∈ List.replicate n ' ') : isBlank c := by
  rw [(List.mem_replicate.1 h).2]
  rfl

/-- Behind what is left are blanks only. -/
theorem exists_blanks (cs : List Char) : ∃ blanks, cs = trimEnd cs ++ blanks ∧ ∀ b ∈ blanks, isBlank b := by
  refine ⟨(cs.reverse.takeWhile isBlank).reverse, ?_, fun b hb => ?_⟩
  · rw [trimEnd, ← List.reverse_append, List.takeWhile_append_dropWhile, List.reverse_reverse]
  · exact List.mem_takeWhile_imp (List.mem_reverse.1 hb)

theorem prefix_of_trimEnd (cs : List Char) : trimEnd cs <+: cs := List.rdropWhile_prefix isBlank cs

/-- No blank is left at the end. -/
theorem not_isBlank_of_getLast? (h : (trimEnd cs).getLast? = some c) : isBlank c = false := by
  obtain ⟨hne, rfl⟩ := List.mem_getLast?_eq_getLast h
  exact Bool.eq_false_iff.2 (List.rdropWhile_last_not isBlank cs hne)

/-! ## Reading lines -/

variable {lang : Language} {front more : List String} {l : String} {ts us : List Token}

/-- **Some lines are read as some tokens**, in front of whatever follows. -/
def LinesRead (lang : Language) (lines : List String) (ts : List Token) : Prop :=
  ∀ rest, lex lang (newLine lang) ((ofLines lines).toList ++ rest) = ts ++ lex lang (newLine lang) rest

theorem toList_ofLines (lines : List String) :
    (ofLines lines).toList = lines.flatMap fun l => l.toList ++ ['\n'] := by
  simp [ofLines, String.toList_join, List.flatMap_map]

/-- What lines leave at the end is a line feed. -/
theorem getLast?_ofLines (lines : List String) : ∀ c ∈ (ofLines lines).toList.getLast?, c = '\n' := by
  rw [toList_ofLines]
  rcases List.eq_nil_or_concat lines with rfl | ⟨front, l, rfl⟩
  · simp
  · simp

theorem linesRead_nil : LinesRead lang [] [] := fun _ => rfl

/-- **Lines are read one after the other.** -/
theorem LinesRead.append (h : LinesRead lang front ts) (hmore : LinesRead lang more us) :
    LinesRead lang (front ++ more) (ts ++ us) := by
  intro rest
  have hchars : (ofLines (front ++ more)).toList = (ofLines front).toList ++ (ofLines more).toList := by
    rw [toList_ofLines, List.flatMap_append, ← toList_ofLines, ← toList_ofLines]
  rw [hchars, List.append_assoc, h, hmore, List.append_assoc]

theorem linesRead_flatMap {α : Type} {f : α → List String} {g : α → List Token} {as : List α}
    (h : ∀ a ∈ as, LinesRead lang (f a) (g a)) : LinesRead lang (as.flatMap f) (as.flatMap g) :=
  flatMap_of_append linesRead_nil .append h

/-- One line, in front of whatever follows. -/
theorem linesRead_singleton (h : ∀ rest, lex lang (newLine lang) (l.toList ++ '\n' :: rest) =
    ts ++ lex lang (newLine lang) rest) : LinesRead lang [l] ts := by
  intro rest
  rw [toList_ofLines, List.flatMap_singleton, List.append_assoc, List.singleton_append]
  exact h rest

/-- Fixed lines. -/
theorem linesRead_of_run (h : run lang (newLine lang) (front.flatMap fun l => l.toList ++ ['\n']) =
    (ts, newLine lang)) : LinesRead lang front ts := by
  intro rest
  rw [toList_ofLines, lex_append, h]

theorem linesRead_empty : LinesRead lang [""] [] :=
  linesRead_singleton fun rest => by cases lang <;> rfl

/-- The tokens of a file are those of its lines. -/
theorem LinesRead.fileTokens_eq (h : LinesRead lang front ts) : fileTokens lang (ofLines front) = ts := by
  have halone := h []
  have hnil : lex lang (newLine lang) [] = [] := by cases lang <;> rfl
  rwa [List.append_nil, hnil, List.append_nil] at halone

/-- Spaces at the start of a line are its indentation. -/
theorem lex_spaces (n indent : ℕ) (rest : List Char) :
    lex .server (.line indent) (List.replicate n ' ' ++ rest) = lex .server (.line (indent + n)) rest := by
  induction n generalizing indent with
  | zero => rfl
  | succ n ih =>
    have hstep : step .server (.line indent) ' ' = ([], .line (indent + 1)) := rfl
    rw [List.replicate_succ, List.cons_append, lex, hstep, List.nil_append, ih, Nat.add_right_comm,
      Nat.add_assoc]

/-- What stands between tokens goes on in the next line. -/
theorem lex_newline (rest : List Char) :
    lex lang .between ('\n' :: rest) = lex lang (newLine lang) rest := by
  cases lang <;> rfl

theorem separate_newline (rest : List Char) : Separate lang ('\n' :: rest) :=
  separate_cons (by cases lang <;> decide)

end ApiCodegen.Text
