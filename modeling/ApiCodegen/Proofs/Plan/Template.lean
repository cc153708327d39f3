import Mathlib
import ApiCodegen.Plan.Route

/-!
# The pieces of a path template

A token is a name between braces that is not empty and has no closing brace. What is no token stays as
it is. The names are read off character by character, while the client looks for matches of a pattern; so
the pieces are defined by the matches, and the names are compared with them.

* `captureAt`: the match of the pattern at the start of a text.
* `pieces`: **the matches in a text from left to right**, and the characters between them.
* `flatMap_chars_pieces`: the pieces make up the text.
* `pathTokens_eq`: **the names of a path are those of its matches.**
* `filled`: the text with values in place of its tokens, in order.
* `replaced_eq_filled`: replacing by name is filling in by place.
* `length_filled`: how long the filled text is.
-/

namespace ApiCodegen

/-- What a token between braces at the start of a text captures, and the text behind it. -/
def captureAt : List Char → Option (List Char × List Char)
  | '\x7b' :: rest =>
    match rest.dropWhile fun c => c ≠ '\x7d' with
    | [] => none
    | _ :: behind =>
      if rest.takeWhile (fun c => c ≠ '\x7d') = [] then none
      else some (rest.takeWhile fun c => c ≠ '\x7d', behind)
  | _ => none

/-- A piece of a template: a character that stays, or a token. -/
inductive Piece where
  | char (c : Char)
  | token (name : String)

namespace Piece

/-- The characters of a piece. -/
def chars : Piece → List Char
  | .char c => [c]
  | .token name => '\x7b' :: (name.toList ++ ['\x7d'])

/-- The name of a token. -/
def token? : Piece → Option String
  | .char _ => none
  | .token name => some name

end Piece

variable {cs rest name behind : List Char} {c : Char}

/-- **What a match is**: a name between braces that is not empty and has no closing brace. -/
theorem captureAt_eq_some_iff : captureAt cs = some (name, behind) ↔
    name ≠ [] ∧ '\x7d' ∉ name ∧ cs = '\x7b' :: (name ++ '\x7d' :: behind) := by
  constructor
  · intro h
    unfold captureAt at h
    split at h
    · rename_i rest
      split at h
      · cases h
      · rename_i d more hdrop
        have hd : d = '\x7d' := by
          have hhead := List.head?_dropWhile_not (fun c => decide (c ≠ '\x7d')) rest
          rw [hdrop] at hhead
          simpa using hhead
        split at h
        · cases h
        · rename_i hne
          obtain ⟨rfl, rfl⟩ := Prod.mk.inj (Option.some.inj h)
          refine ⟨hne, fun hmem => ?_, ?_⟩
          · simpa using List.mem_takeWhile_imp hmem
          · subst hd
            rw [← hdrop, List.takeWhile_append_dropWhile]
    · cases h
  · rintro ⟨hne, hclose, rfl⟩
    have hname : ∀ d ∈ name, decide (d ≠ '\x7d') := fun d hd =>
      decide_eq_true fun heq => hclose (heq ▸ hd)
    have hdrop : (name ++ '\x7d' :: behind).dropWhile (fun c => c ≠ '\x7d') = '\x7d' :: behind := by
      rw [List.dropWhile_append_of_pos hname, List.dropWhile_cons_of_neg (by simp)]
    have htake : (name ++ '\x7d' :: behind).takeWhile (fun c => c ≠ '\x7d') = name := by
      rw [List.takeWhile_append_of_pos hname, List.takeWhile_cons_of_neg (by simp), List.append_nil]
    simp only [captureAt, hdrop, htake]
    rw [if_neg hne]

theorem length_behind (h : captureAt cs = some (name, behind)) : behind.length < cs.length := by
  rw [(captureAt_eq_some_iff.1 h).2.2]
  simp
  omega

/-- **The pieces of a text**: the matches from left to right, and the characters between them. -/
def pieces (cs : List Char) : List Piece :=
  match _h : captureAt cs with
  | some (name, behind) => .token (String.ofList name) :: pieces behind
  | none =>
    match cs with
    | [] => []
    | c :: rest => .char c :: pieces rest
termination_by cs.length
decreasing_by
  · exact length_behind _h
  · simp

theorem pieces_of_capture (h : captureAt cs = some (name, behind)) :
    pieces cs = .token (String.ofList name) :: pieces behind := by
  rw [pieces]
  split
  · rename_i other rest hother
    rw [h] at hother
    obtain ⟨rfl, rfl⟩ := Prod.mk.inj (Option.some.inj hother)
    rfl
  · rename_i hnone
    rw [h] at hnone
    cases hnone

theorem pieces_of_none (h : captureAt (c :: rest) = none) : pieces (c :: rest) = .char c :: pieces rest := by
  rw [pieces]
  split
  · rename_i other behind hother
    rw [h] at hother
    cases hother
  · rfl

theorem pieces_nil : pieces [] = [] := by
  rw [pieces]
  rfl

/-- The pieces make up the text. -/
theorem flatMap_chars_pieces (cs : List Char) : (pieces cs).flatMap Piece.chars = cs := by
  induction cs using pieces.induct with
  | case1 cs name behind hcapture ih =>
    rw [pieces_of_capture hcapture, List.flatMap_cons, ih, (captureAt_eq_some_iff.1 hcapture).2.2]
    simp [Piece.chars]
  | case2 => rw [pieces_nil]; rfl
  | case3 c rest hcapture ih =>
    rw [pieces_of_none hcapture, List.flatMap_cons, ih]
    rfl

/-! ## Names -/

/-- Without a closing brace there is no name. -/
theorem tokensFrom_of_not_mem (h : '\x7d' ∉ cs) (inside : Option (List Char)) :
    tokensFrom inside cs = [] := by
  induction cs generalizing inside with
  | nil => rfl
  | cons c rest ih =>
    obtain ⟨hc, hrest⟩ := not_or.1 (mt List.mem_cons.2 h)
    cases inside with
    | none =>
      rw [tokensFrom]
      split <;> exact ih hrest _
    | some name =>
      rw [tokensFrom]
      simp only [if_neg (Ne.symm hc)]
      exact ih hrest _

/-- A name is read up to the closing brace. -/
theorem tokensFrom_some (h : '\x7d' ∉ name) (front : List Char) :
    tokensFrom (some front) (name ++ '\x7d' :: behind) =
      if front.reverse ++ name = [] then tokensFrom none behind
      else (front.reverse ++ name) :: tokensFrom none behind := by
  induction name generalizing front with
  | nil =>
    rw [List.nil_append, tokensFrom]
    cases front <;> simp
  | cons c name ih =>
    obtain ⟨hc, hname⟩ := not_or.1 (mt List.mem_cons.2 h)
    rw [List.cons_append, tokensFrom]
    simp only [if_neg (Ne.symm hc)]
    rw [ih hname]
    simp

/-- **The names that are read off are those of the matches.** -/
theorem tokensFrom_eq (cs : List Char) :
    (tokensFrom none cs).map String.ofList = (pieces cs).filterMap Piece.token? := by
  induction cs using pieces.induct with
  | case1 cs name behind hcapture ih =>
    obtain ⟨hne, hclose, hcs⟩ := captureAt_eq_some_iff.1 hcapture
    rw [pieces_of_capture hcapture, hcs, tokensFrom, if_pos rfl, tokensFrom_some hclose,
      List.reverse_nil, List.nil_append, if_neg hne, List.map_cons, ih]
    rfl
  | case2 => rw [pieces_nil]; rfl
  | case3 c rest hcapture ih =>
    rw [pieces_of_none hcapture]
    by_cases hc : c = '\x7b'
    · subst hc
      by_cases hclose : '\x7d' ∈ rest
      · -- only an empty name in braces is no match
        obtain ⟨name, behind, rfl, hname⟩ := List.eq_append_cons_of_mem hclose
        have hempty : name = [] := by
          by_contra hne
          have hmatch : captureAt ('\x7b' :: (name ++ '\x7d' :: behind)) = some (name, behind) :=
            captureAt_eq_some_iff.2 ⟨hne, hname, rfl⟩
          rw [hcapture] at hmatch
          cases hmatch
        subst hempty
        rw [tokensFrom, if_pos rfl, tokensFrom_some hname]
        rw [List.nil_append, tokensFrom, if_neg (by decide)] at ih
        exact ih
      · rw [tokensFrom_of_not_mem (by simpa using hclose)]
        rw [tokensFrom_of_not_mem hclose] at ih
        exact ih
    · rw [tokensFrom, if_neg hc, ih]
      rfl

/-- **The names of a path are those of its matches.** -/
theorem pathTokens_eq (path : String) : pathTokens path = (pieces path.toList).filterMap Piece.token? :=
  tokensFrom_eq path.toList

/-! ## Filling in -/

/-- Some pieces with values in place of the tokens, in order. -/
def filled : List Piece → List String → List Char
  | [], _ => []
  | .char c :: more, values => c :: filled more values
  | .token _ :: more, value :: values => value.toList ++ filled more values
  | .token _ :: more, [] => filled more []

/-- Some pieces with the value of every token in its place. -/
def replaced (value : String → String) (ps : List Piece) : List Char :=
  ps.flatMap fun
    | .char c => [c]
    | .token name => (value name).toList

/-- **Replacing by name is filling in by place.** -/
theorem replaced_eq_filled (value : String → String) (ps : List Piece) :
    replaced value ps = filled ps ((ps.filterMap Piece.token?).map value) := by
  induction ps with
  | nil => rfl
  | cons p ps ih =>
    rw [replaced, List.flatMap_cons, ← replaced, ih]
    cases p <;> rfl

/-- Without tokens there is nothing to fill in. -/
theorem filled_of_no_token {ps : List Piece} (h : ps.filterMap Piece.token? = []) :
    filled ps [] = ps.flatMap Piece.chars := by
  induction ps with
  | nil => rfl
  | cons p ps ih =>
    cases p with
    | char c =>
      rw [List.filterMap_cons_none rfl] at h
      rw [filled, ih h]
      rfl
    | token name => cases h

/-- The length of a text depends on that of all values together. -/
theorem length_filled {ps : List Piece} {values : List String}
    (h : values.length = (ps.filterMap Piece.token?).length) :
    (filled ps values).length + (ps.filterMap Piece.token?).length =
      ps.length + (values.map String.length).sum := by
  induction ps generalizing values with
  | nil =>
    obtain rfl := List.length_eq_zero_iff.1 h
    rfl
  | cons p ps ih =>
    cases p with
    | char c =>
      rw [List.filterMap_cons_none rfl] at h ⊢
      have hmore := ih h
      simp only [filled, List.length_cons]
      omega
    | token name =>
      simp only [List.filterMap_cons, Piece.token?] at h ⊢
      cases values with
      | nil => cases h
      | cons value values =>
        have hmore := ih (Nat.succ.inj h)
        simp only [filled, List.length_cons, List.length_append, List.map_cons, List.sum_cons,
          String.length_toList]
        omega

end ApiCodegen
