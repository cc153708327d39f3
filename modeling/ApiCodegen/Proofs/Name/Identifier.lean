import Mathlib
import ApiCodegen.Name.Case

/-!
# What the makers of names make

* `isIdentifier_sanitize`, `isIdentifier_declaration`: **whatever the text, the name made of it is an
  identifier.**
* `sanitize_eq_iff`: an identifier is kept, and nothing else is.
* `declaration_of_isIdentifier`: an identifier is declared as it is.
-/

namespace ApiCodegen.Name

variable {cs : List Char}

theorem isWordChar_wordChar (c : Char) : isWordChar (wordChar c) := by
  unfold wordChar
  split
  · assumption
  · decide

/-- An identifier has a first character, and word characters only. -/
theorem isIdentifier_iff :
    isIdentifier cs ↔ cs ≠ [] ∧ (∀ d ∈ cs.head?, d.isDigit = false) ∧ ∀ d ∈ cs, isWordChar d := by
  cases cs with
  | nil => simp [isIdentifier]
  | cons c rest => simp [isIdentifier]

theorem isIdentifier_guardStart (h : ∀ d ∈ cs, isWordChar d) : isIdentifier (guardStart cs) := by
  cases cs with
  | nil => decide
  | cons c rest =>
    by_cases hc : c.isDigit
    · -- the digit is behind the `_` now
      rw [guardStart, if_pos hc, isIdentifier_iff]
      refine ⟨List.cons_ne_nil _ _, by simp, fun d hd => ?_⟩
      rcases List.mem_cons.1 hd with rfl | hd
      · decide
      · exact h d hd
    · rw [guardStart, if_neg hc, isIdentifier_iff]
      exact ⟨List.cons_ne_nil _ _, by simpa using hc, h⟩

/-- **Every text is made an identifier.** -/
theorem isIdentifier_sanitizeChars (cs : List Char) : isIdentifier (sanitizeChars cs) := by
  refine isIdentifier_guardStart fun d hd => ?_
  obtain ⟨c, -, rfl⟩ := List.mem_map.1 hd
  exact isWordChar_wordChar c

theorem isIdentifier_sanitize (name : String) : isIdentifier (sanitize name).toList := by
  rw [sanitize, String.toList_ofList]
  exact isIdentifier_sanitizeChars _

/-- **An identifier is kept, and nothing else is.** -/
theorem sanitize_eq_iff {name : String} : sanitize name = name ↔ isIdentifier name.toList := by
  constructor
  · intro h
    rw [← h]
    exact isIdentifier_sanitize name
  · intro h
    obtain ⟨-, hstart, hall⟩ := isIdentifier_iff.1 h
    have hmap : name.toList.map wordChar = name.toList :=
      (List.map_congr_left fun c hc => if_pos (hall c hc)).trans (List.map_id _)
    rw [sanitize, sanitizeChars, hmap]
    cases hchars : name.toList with
    | nil =>
      rw [hchars] at h
      cases h
    | cons c rest =>
      have hdigit : ¬ c.isDigit := by simpa [hchars] using hstart
      rw [guardStart, if_neg hdigit, ← hchars, String.ofList_toList]

/-- **Every declared name is an identifier.** -/
theorem isIdentifier_declarationChars (cs : List Char) : isIdentifier (declarationChars cs) := by
  unfold declarationChars
  split
  · assumption
  · exact isIdentifier_sanitizeChars _

theorem isIdentifier_declaration (name : String) : isIdentifier (declaration name).toList := by
  rw [declaration, String.toList_ofList]
  exact isIdentifier_declarationChars _

theorem declaration_of_isIdentifier {name : String} (h : isIdentifier name.toList) : declaration name = name := by
  rw [declaration, declarationChars, if_pos h, String.ofList_toList]

end ApiCodegen.Name
