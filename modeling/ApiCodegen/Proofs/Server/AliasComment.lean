import ApiCodegen.Proofs.Server.Evaluation
import ApiCodegen.Proofs.Text.Lines

/-!
# The comments of aliases

The description of an alias is written as a comment, line by line. A description is split at its line
feeds, but the server's language ends a line at a lone carriage return as well.

* `physicalLines`: the lines that the server's language sees in a text.
* `physicalLines_append`: a line feed parts them, whatever follows it.
* `Marked`: behind every carriage return a comment starts anew.
* `Alias.forall_commentLines_iff`: **every physical line of a comment starts as a comment iff the
  description is marked.**
* `ModelsFile.comments_marked_iff`: **so it is for every alias of a models file**, which has these physical
  lines right before those of its definition.
* `ModelsFile.not_comment_assigned`: a description of which the second half is an assignment.
-/

namespace ApiCodegen.Server

open Text

/-- **The physical lines of a text**: a line ends at a line feed, at a carriage return, or at both
together. -/
def physicalLines : List Char → List (List Char)
  | [] => []
  | c :: rest =>
    if c = '\r' ∧ rest.head? = some '\n' then physicalLines rest
    else if c = '\n' ∨ c = '\r' then [] :: physicalLines rest
    else (c :: (physicalLines rest).headD []) :: (physicalLines rest).tail

/-- A line that starts as a comment. -/
def IsComment (line : List Char) : Prop := line.head? = some '#'

instance : DecidablePred IsComment := fun line => inferInstanceAs (Decidable (line.head? = some '#'))

variable {c : Char} {cs rest line : List Char} {lines more : List String}

/-! ## Physical lines -/

/-- A lone carriage return ends a line. -/
theorem physicalLines_return (h : rest.head? ≠ some '\n') :
    physicalLines ('\r' :: rest) = [] :: physicalLines rest := by
  rw [physicalLines, if_neg fun hboth => h hboth.2, if_pos (.inr rfl)]

/-- A character that ends no line stands at the start of the first one. -/
theorem physicalLines_cons (hnewline : c ≠ '\n') (hreturn : c ≠ '\r') :
    physicalLines (c :: rest) = (c :: (physicalLines rest).headD []) :: (physicalLines rest).tail := by
  rw [physicalLines, if_neg fun hboth => hreturn hboth.1, if_neg (not_or.2 ⟨hnewline, hreturn⟩)]

theorem physicalLines_ne_nil (cs rest : List Char) : physicalLines (cs ++ '\n' :: rest) ≠ [] := by
  induction cs with
  | nil => exact List.cons_ne_nil _ _
  | cons c cs ih =>
    rw [List.cons_append, physicalLines]
    split_ifs
    · exact ih
    · exact List.cons_ne_nil _ _
    · exact List.cons_ne_nil _ _

/-- **A line feed parts the physical lines**, whatever follows it. -/
theorem physicalLines_append (cs rest : List Char) :
    physicalLines (cs ++ '\n' :: rest) = physicalLines (cs ++ ['\n']) ++ physicalLines rest := by
  induction cs with
  | nil => rfl
  | cons c cs ih =>
    -- what a carriage return belongs to is the same with and without the rest
    have hhead : (cs ++ '\n' :: rest).head? = (cs ++ ['\n']).head? := by cases cs <;> rfl
    obtain ⟨first, others, hsplit⟩ := List.exists_cons_of_ne_nil (physicalLines_ne_nil cs [])
    rw [List.cons_append, List.cons_append, physicalLines, physicalLines, hhead, ih, hsplit]
    split_ifs <;> rfl

/-- So whole lines are split one after the other. -/
theorem physicalLines_ofLines_append (lines more : List String) :
    physicalLines (ofLines (lines ++ more)).toList =
      physicalLines (ofLines lines).toList ++ physicalLines (ofLines more).toList := by
  induction lines with
  | nil => rfl
  | cons l lines ih =>
    have hcons (others : List String) :
        (ofLines (l :: others)).toList = l.toList ++ '\n' :: (ofLines others).toList := by
      simp [toList_ofLines]
    rw [List.cons_append, hcons, hcons, physicalLines_append l.toList (ofLines (lines ++ more)).toList,
      physicalLines_append l.toList (ofLines lines).toList, ih, List.append_assoc]

/-! ## Lines with marks -/

/-- Behind every carriage return stands the mark of a comment. -/
def Marked (cs : List Char) : Prop := ∀ front back, cs = front ++ '\r' :: back → IsComment back

theorem marked_cons_iff : Marked (c :: cs) ↔ (c = '\r' → IsComment cs) ∧ Marked cs := by
  constructor
  · intro h
    refine ⟨?_, fun front back hsplit => h (c :: front) back (by rw [hsplit, List.cons_append])⟩
    rintro rfl
    exact h [] cs rfl
  · rintro ⟨hc, hcs⟩ front back hsplit
    cases front with
    | nil =>
      obtain ⟨rfl, rfl⟩ := List.cons.inj hsplit
      exact hc rfl
    | cons d front => exact hcs front back (List.cons.inj hsplit).2

/-- The first physical line starts as its text does. -/
theorem isComment_head_iff (hnewline : '\n' ∉ cs) (hne : cs ≠ []) :
    IsComment ((physicalLines (cs ++ ['\n'])).headD []) ↔ IsComment cs := by
  obtain ⟨c, cs, rfl⟩ := List.exists_cons_of_ne_nil hne
  have hc : c ≠ '\n' := fun hc => hnewline (hc ▸ List.mem_cons_self)
  by_cases hreturn : c = '\r'
  · subst hreturn
    have hempty : (physicalLines ('\r' :: cs ++ ['\n'])).headD [] = [] := by
      cases cs with
      | nil => rfl
      | cons d cs =>
        have hd : d ≠ '\n' := fun hd => hnewline (hd ▸ List.mem_cons_of_mem _ List.mem_cons_self)
        have hhead : (d :: cs ++ ['\n']).head? ≠ some '\n' := fun h => hd (Option.some.inj h)
        rw [List.cons_append, physicalLines_return hhead]
        rfl
    rw [hempty]
    simp [IsComment]
  · rw [List.cons_append, physicalLines_cons hc hreturn]
    rfl

/-- **The physical lines behind the first one start as comments iff the line is marked.** -/
theorem forall_tail_iff (hnewline : '\n' ∉ cs) (hlast : cs.getLast? ≠ some '\r') :
    (∀ line ∈ (physicalLines (cs ++ ['\n'])).tail, IsComment line) ↔ Marked cs := by
  induction cs with
  | nil => simp [physicalLines, Marked]
  | cons c cs ih =>
    have hc : c ≠ '\n' := fun hc => hnewline (hc ▸ List.mem_cons_self)
    have hnewlines : '\n' ∉ cs := fun hmem => hnewline (List.mem_cons_of_mem _ hmem)
    rw [marked_cons_iff]
    cases hcs : cs with
    | nil =>
      have hreturn : c ≠ '\r' := fun hreturn => hlast (by rw [hcs, hreturn]; rfl)
      rw [List.singleton_append, physicalLines_cons hc hreturn]
      simp [physicalLines, Marked, hreturn]
    | cons d ds =>
      rw [← hcs]
      have hne : cs ≠ [] := hcs ▸ List.cons_ne_nil _ _
      have hmore := ih hnewlines (by rwa [hcs, List.getLast?_cons_cons, ← hcs] at hlast)
      by_cases hreturn : c = '\r'
      · -- the carriage return stands alone, so a physical line starts behind it
        have hhead : (cs ++ ['\n']).head? ≠ some '\n' := by
          rw [List.head?_append_of_ne_nil _ hne]
          exact fun h => hnewlines (List.mem_of_mem_head? h)
        obtain ⟨first, others, hsplit⟩ := List.exists_cons_of_ne_nil (physicalLines_ne_nil cs [])
        have hfirst := isComment_head_iff hnewlines hne
        rw [hsplit] at hmore hfirst
        rw [List.cons_append, hreturn, physicalLines_return hhead, List.tail_cons, hsplit,
          List.forall_mem_cons, ← hmore, ← hfirst]
        simp
      · rw [List.cons_append, physicalLines_cons hc hreturn, List.tail_cons, hmore]
        simp [hreturn]

/-- So do all of them behind the mark of a comment. -/
theorem forall_remark_iff (hnewline : '\n' ∉ cs) (hlast : cs.getLast? ≠ some '\r') :
    (∀ line ∈ physicalLines ('#' :: ' ' :: cs ++ ['\n']), IsComment line) ↔ Marked cs := by
  have hremark : Marked ('#' :: ' ' :: cs) ↔ Marked cs := by
    rw [marked_cons_iff, marked_cons_iff]
    simp
  have hnewlines : '\n' ∉ '#' :: ' ' :: cs := by simpa using hnewline
  have hlasts : ('#' :: ' ' :: cs).getLast? ≠ some '\r' := by
    cases cs with
    | nil => decide
    | cons c cs => rwa [List.getLast?_cons_cons, List.getLast?_cons_cons]
  have htail := forall_tail_iff hnewlines hlasts
  rw [hremark, List.cons_append, physicalLines_cons (by decide) (by decide), List.tail_cons] at htail
  rw [List.cons_append, physicalLines_cons (by decide) (by decide), List.forall_mem_cons, htail]
  exact and_iff_right rfl

/-! ## The comment of an alias -/

namespace Alias

/-- The lines that an alias has for its description. -/
def comment (a : Alias) : List String :=
  match a.description with
  | some d => (Text.lines (trim d.toList)).map fun line => "# " ++ String.ofList (trimEnd line)
  | none => []

/-- The line of its definition. -/
def definition (a : Alias) : String := a.name ++ " = " ++ (TypeExpr.ofSchema a.schema).render

theorem lines_eq (a : Alias) : a.lines = a.comment ++ [a.definition] := rfl

/-- **The physical lines that come from the description of an alias.** -/
def commentLines (a : Alias) : List (List Char) := physicalLines (ofLines a.comment).toList

/-- In the description, a comment starts anew behind every carriage return, where only blanks at the end
of a line do not count. -/
def StaysComment (a : Alias) : Prop :=
  ∀ d ∈ a.description, ∀ line ∈ Text.lines (trim d.toList), Marked (trimEnd line)

/-- **Every physical line of a comment starts as a comment iff the description is marked.** -/
theorem forall_commentLines_iff (a : Alias) :
    (∀ line ∈ a.commentLines, IsComment line) ↔ a.StaysComment := by
  cases hd : a.description with
  | none => simp [commentLines, comment, StaysComment, hd, ofLines, physicalLines]
  | some d =>
    have hall (front : List (List Char)) (hfront : ∀ line ∈ front, '\n' ∉ line) :
        (∀ line ∈ physicalLines (ofLines (front.map fun line => "# " ++ String.ofList (trimEnd line))).toList,
          IsComment line) ↔ ∀ line ∈ front, Marked (trimEnd line) := by
      induction front with
      | nil => simp [ofLines, physicalLines]
      | cons l front ih =>
        obtain ⟨hl, hmore⟩ := List.forall_mem_cons.1 hfront
        have hone : (ofLines ["# " ++ String.ofList (trimEnd l)]).toList =
            '#' :: ' ' :: trimEnd l ++ ['\n'] := by
          simp [toList_ofLines]
        have hnewline : '\n' ∉ trimEnd l := fun hmem => hl ((prefix_of_trimEnd l).subset hmem)
        have hlast : (trimEnd l).getLast? ≠ some '\r' := fun hreturn =>
          absurd (not_isBlank_of_getLast? hreturn) (by decide)
        rw [List.map_cons, ← List.singleton_append, physicalLines_ofLines_append, List.forall_mem_append,
          List.forall_mem_cons, hone, forall_remark_iff hnewline hlast, ih hmore]
    have hlines := hall (Text.lines (trim d.toList)) fun _ => newline_not_mem_line
    simpa [commentLines, comment, StaysComment, hd] using hlines

end Alias

/-! ## The file -/

namespace ModelsFile

variable {doc : Document} {declarations : List Declaration} {file : ModelsFile} {a : Alias}

/-- Every models file has the physical lines of an alias in one piece. -/
theorem exists_physicalLines (ha : a ∈ file.aliases) : ∃ front back, physicalLines file.render.toList =
    front ++ (a.commentLines ++ physicalLines (ofLines [a.definition]).toList) ++ back := by
  obtain ⟨before, after, hsplit⟩ := List.append_of_mem ha
  obtain ⟨front, back, hfile⟩ := exists_lines_eq hsplit
  rw [render, hfile, Alias.lines_eq]
  simp only [physicalLines_ofLines_append, List.append_assoc]
  refine ⟨physicalLines (ofLines front).toList ++ physicalLines (ofLines (before.flatMap Alias.lines)).toList,
    physicalLines (ofLines (after.flatMap Alias.lines)).toList ++ physicalLines (ofLines back).toList, ?_⟩
  simp only [Alias.commentLines, List.append_assoc]

/-- **Comments of aliases stay comments iff their descriptions are marked.** For every alias of a plan the
file has the physical lines of its comment right before its definition, and each of them starts as a
comment iff, in the description, one starts anew behind every carriage return that does not belong to a line
feed or to the blanks in front of one. -/
theorem comments_marked_iff (h : doc.declarations = .ok declarations)
    (ha : a ∈ declarations.filterMap aliasOf?) :
    (∃ front back, physicalLines (ofDeclarations declarations).render.toList =
      front ++ (a.commentLines ++ physicalLines (ofLines [a.definition]).toList) ++ back) ∧
    ((∀ line ∈ a.commentLines, IsComment line) ↔ a.StaysComment) := by
  have hn := nodup_names_aliases (Document.nodup_names_declarations h)
  exact ⟨exists_physicalLines ((aliasOrder_perm hn).mem_iff.2 ha), a.forall_commentLines_iff⟩

/-! ## Carriage returns in descriptions -/

/-- A description with a carriage return in front of a mark and one in front of a line feed. -/
def remarked : Alias := ⟨"A", some " a\r# b \r\nc", .primitive .string none⟩

/-- A description of which the second half is an assignment. -/
def assigned : Alias := ⟨"A", some "a\rb = 1", .primitive .string none⟩

/-- One alias. -/
def soleDocument (a : Alias) : Document where
  components := [⟨a.name, a.description, a.schema⟩]

/-- The declarations of `soleDocument`. -/
def soleDeclarations (a : Alias) : List Declaration :=
  (soleDocument a).components.map Declaration.ofComponent

/-- The comment of two lines has three physical ones, all of them comments. -/
theorem comments_marked_iff_remarked :
    (soleDocument remarked).declarations = .ok (soleDeclarations remarked) ∧
    remarked ∈ (soleDeclarations remarked).filterMap aliasOf? ∧
    remarked.commentLines = ["# a".toList, "# b".toList, "# c".toList] ∧ remarked.StaysComment := by
  have hd : (soleDocument remarked).declarations = .ok (soleDeclarations remarked) := by rfl
  have ha : remarked ∈ (soleDeclarations remarked).filterMap aliasOf? := List.mem_singleton_self _
  have hlines : remarked.commentLines = ["# a".toList, "# b".toList, "# c".toList] := by
    decide +kernel
  refine ⟨hd, ha, hlines, (comments_marked_iff hd ha).2.1 ?_⟩
  rw [hlines]
  decide

/-- The assignment stands on a physical line of its own. -/
theorem not_comment_assigned :
    (soleDocument assigned).declarations = .ok (soleDeclarations assigned) ∧
    assigned ∈ (soleDeclarations assigned).filterMap aliasOf? ∧
    assigned.commentLines = ["# a".toList, "b = 1".toList] ∧
      ¬ ∀ line ∈ assigned.commentLines, IsComment line := by
  have hlines : assigned.commentLines = ["# a".toList, "b = 1".toList] := by decide +kernel
  refine ⟨rfl, List.mem_singleton_self _, hlines, ?_⟩
  rw [hlines]
  decide

end ModelsFile

end ApiCodegen.Server
