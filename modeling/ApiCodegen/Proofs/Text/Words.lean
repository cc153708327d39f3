import ApiCodegen.Name.Identifier
import ApiCodegen.Proofs.Members
import ApiCodegen.Text.Quoted

/-!
# The words of a text

A reader of a generated file sees its names as the maximal runs of word characters outside string
literals.

* `words`: these runs, in order.
* `scan_name`, `scan_quoteChars`: **a name is read as one word, and a string literal as none**,
  wherever they stand.
* `Spells`: the words of some characters, wherever they stand, put together from marks, names and parts.
-/

namespace ApiCodegen.Text

open Name

/-- What is being read: a word, of which a part was read, the inside of a literal, or the character
behind a backslash. -/
inductive Reading where
  | word (run : List Char)
  | literal
  | escape

/-- A word, unless nothing of it was read. -/
def finished (run : List Char) : List (List Char) := if run = [] then [] else [run]

/-- The words that are left to read. -/
def scan : Reading → List Char → List (List Char)
  | .word run, [] => finished run
  | .word run, c :: rest =>
    if c = '"' then finished run ++ scan .literal rest
    else if isWordChar c then scan (.word (run ++ [c])) rest
    else finished run ++ scan (.word []) rest
  | .literal, [] => []
  | .literal, c :: rest =>
    if c = '\\' then scan .escape rest
    else if c = '"' then scan (.word []) rest
    else scan .literal rest
  | .escape, [] => []
  | .escape, _ :: rest => scan .literal rest

/-- The words of a text outside its string literals, in order. -/
def words (text : String) : List String := (scan (.word []) text.toList).map String.ofList

/-- No word goes on here. -/
def Boundary (rest : List Char) : Prop := ∀ c ∈ rest.head?, isWordChar c = false

variable {c : Char} {run w cs ds rest : List Char} {name : String} {us vs : List String}

theorem boundary_nil : Boundary [] := fun _ hc => absurd hc (by simp)

theorem boundary_cons (h : isWordChar c = false) : Boundary (c :: rest) := by
  intro d hd
  obtain rfl : c = d := by simpa using hd
  exact h

theorem scan_boundary (h : Boundary rest) :
    scan (.word run) rest = finished run ++ scan (.word []) rest := by
  cases rest with
  | nil => simp [scan, finished]
  | cons c rest =>
    -- a quote and any other mark both end the word
    have hc := h c rfl
    by_cases hq : c = '"'
    · simp [scan, hq, finished]
    · simp [scan, hq, hc, finished]

theorem scan_append (h : ∀ d ∈ w, isWordChar d) :
    scan (.word run) (w ++ rest) = scan (.word (run ++ w)) rest := by
  induction w generalizing run with
  | nil => rw [List.nil_append, List.append_nil]
  | cons c w ih =>
    have hc := h c List.mem_cons_self
    have hq : c ≠ '"' := by
      rintro rfl
      revert hc
      decide
    rw [List.cons_append, scan, if_neg hq, if_pos hc, ih fun d hd => h d (List.mem_cons_of_mem _ hd),
      List.append_assoc, List.singleton_append]

/-- **A name is read as one word.** -/
theorem scan_name (hw : isIdentifier w) (h : Boundary rest) :
    scan (.word []) (w ++ rest) = w :: scan (.word []) rest := by
  cases w with
  | nil => cases hw
  | cons c w =>
    have hall : ∀ d ∈ c :: w, isWordChar d := by
      simp only [isIdentifier, Bool.and_eq_true] at hw
      exact List.all_eq_true.1 hw.2
    rw [scan_append hall, List.nil_append, scan_boundary h]
    rfl

/-- A mark between words is passed over. -/
theorem scan_mark (h : isWordChar c = false ∧ c ≠ '"') :
    scan (.word []) (c :: rest) = scan (.word []) rest := by
  simp [scan, h, finished]

theorem scan_literal (hb : c ≠ '\\') (hq : c ≠ '"') : scan .literal (c :: rest) = scan .literal rest := by
  simp [scan, hb, hq]

theorem hexDigit_plain : ∀ n < 16, hexDigit n ≠ '\\' ∧ hexDigit n ≠ '"' := by decide

/-- Inside a literal, what a character is written as does not end the literal. -/
theorem scan_escapeChar (c : Char) (rest : List Char) :
    scan .literal (escapeChar c ++ rest) = scan .literal rest := by
  unfold escapeChar
  split_ifs with hquote hback _ _ _ _ _ hcontrol
  -- two characters, of which the first is a backslash
  iterate 7 rfl
  · have hhigh := hexDigit_plain (c.toNat / 16) (by omega)
    have hlow := hexDigit_plain (c.toNat % 16) (by omega)
    change scan .literal ('0' :: '0' :: hexDigit _ :: hexDigit _ :: rest) = _
    rw [scan_literal (by decide) (by decide), scan_literal (by decide) (by decide),
      scan_literal hhigh.1 hhigh.2, scan_literal hlow.1 hlow.2]
  · exact scan_literal hback hquote

/-- **A string literal has no words.** -/
theorem scan_quoteChars (cs rest : List Char) :
    scan (.word []) (quoteChars cs ++ rest) = scan (.word []) rest := by
  have hinside : scan .literal (cs.flatMap escapeChar ++ '"' :: rest) = scan (.word []) rest := by
    induction cs with
    | nil => rfl
    | cons c cs ih => rw [List.flatMap_cons, List.append_assoc, scan_escapeChar, ih]
  rw [quoteChars, List.cons_append, List.append_assoc, List.singleton_append]
  exact hinside

/-! ## Parts of a text -/

/-- Some characters spell some words, wherever they stand. -/
def Spells (cs : List Char) (us : List String) : Prop :=
  ∀ rest, Boundary rest → scan (.word []) (cs ++ rest) = us.map String.toList ++ scan (.word []) rest

theorem spells_nil : Spells [] [] := fun _ _ => rfl

theorem spells_name (h : isIdentifier name.toList) : Spells name.toList [name] := fun _ hrest => scan_name h hrest

theorem spells_quoteChars (cs : List Char) : Spells (quoteChars cs) [] := fun rest _ => scan_quoteChars cs rest

/-- A mark in front spells nothing. -/
theorem Spells.cons_mark (hc : isWordChar c = false ∧ c ≠ '"') (h : Spells cs us) : Spells (c :: cs) us := by
  intro rest hrest
  rw [List.cons_append, scan_mark hc, h rest hrest]

/-- **Parts spell their words**, if no word goes on from one to the other. -/
theorem Spells.append (h : Spells cs us) (hc : isWordChar c = false) (hmore : Spells (c :: ds) vs) :
    Spells (cs ++ c :: ds) (us ++ vs) := by
  intro rest hrest
  have hboundary : Boundary (c :: ds ++ rest) := boundary_cons hc
  rw [List.append_assoc, h _ hboundary, hmore rest hrest, List.map_append, List.append_assoc]

/-- A name in front. -/
theorem Spells.cons_name (hname : isIdentifier name.toList) (hc : isWordChar c = false)
    (h : Spells (c :: cs) us) : Spells (name.toList ++ c :: cs) (name :: us) :=
  (spells_name hname).append hc h

/-- A mark behind spells nothing. -/
theorem Spells.concat_mark (h : Spells cs us) (hc : isWordChar c = false ∧ c ≠ '"') : Spells (cs ++ [c]) us := by
  have hmarked := h.append hc.1 (.cons_mark hc spells_nil)
  rwa [List.append_nil] at hmarked

/-- What is spelled everywhere are the words of a text that stands on its own. -/
theorem Spells.words_ofList (h : Spells cs us) : words (String.ofList cs) = us := by
  have halone := h [] boundary_nil
  rw [List.append_nil] at halone
  rw [words, String.toList_ofList, halone]
  simp [scan, finished, Function.comp_def]

/-- Marks in front spell nothing. -/
theorem Spells.marks_append {marks : List Char} (hmarks : ∀ c ∈ marks, isWordChar c = false ∧ c ≠ '"')
    (h : Spells cs us) : Spells (marks ++ cs) us := by
  induction marks with
  | nil => exact h
  | cons c marks ih =>
    exact .cons_mark (hmarks c List.mem_cons_self) (ih fun d hd => hmarks d (List.mem_cons_of_mem _ hd))

/-- Literals with marks between them spell nothing. -/
theorem spells_texts {marks : List Char} (hmarks : ∀ d ∈ c :: marks, isWordChar d = false ∧ d ≠ '"')
    (values : List String) :
    Spells (List.intercalate (c :: marks) (values.map fun v => quoteChars v.toList)) [] := by
  induction values with
  | nil => exact spells_nil
  | cons v values ih =>
    cases values with
    | nil =>
      rw [List.map_singleton, List.intercalate_singleton]
      exact spells_quoteChars _
    | cons w values =>
      rw [List.map_cons, List.map_cons, List.intercalate_cons_cons, List.append_assoc]
      exact (spells_quoteChars _).append (hmarks c List.mem_cons_self).1 (ih.marks_append hmarks)

end ApiCodegen.Text
