import Mathlib
import ApiCodegen.Plan.Topology

/-!
# Prefixes and first segments of paths

A group prefix is made by `firstSegment`, which passes over empty segments, and taken off by
`stripSegments`, which does not.

* `behind?_eq_some`, `stripSegments_append`: what is taken off is a prefix, up to a segment.
* `derivedBase?_eq_some`: what a derived group prefix says about the path.
* `firstSegment_append_stripSegments`: **the first segment is taken off once**, unless an empty
  segment stands in front of it.
* `stripSegments_firstSegment`: **behind an empty segment it stays where it is.**
* `stripSegments_of_firstSegment_ne`: **another first segment stays as well.**
-/

namespace ApiCodegen

variable {start cs rest : List Char} {apiPrefix path base : String}

theorem behind?_eq_some : behind? start cs = some rest ↔ cs = start ++ rest := by
  induction start generalizing cs with
  | nil => simp [behind?]
  | cons a start ih =>
    cases cs with
    | nil => simp [behind?]
    | cons c cs =>
      by_cases h : a = c
      · simp [behind?, h, ih]
      · simp [behind?, h, Ne.symm h]

/-- A prefix that ends at a segment is taken off. -/
theorem stripSegments_append (start : List Char) (h : atSegment rest) :
    stripSegments start (start ++ rest) = rest := by
  have hb : behind? start (start ++ rest) = some rest := behind?_eq_some.2 rfl
  rw [stripSegments, hb]
  exact if_pos h

theorem stripSegments_of_behind?_eq_none (h : behind? start cs = none) :
    stripSegments start cs = cs := by
  rw [stripSegments, h]

/-- A path that derives a group prefix is the API prefix, followed by segments of which the first
that is not empty is the group prefix. -/
theorem derivedBase?_eq_some : derivedBase? apiPrefix path = some base ↔
    ∃ rest, path.toList = apiPrefix.toList ++ rest ∧ atSegment rest ∧
      base.toList = firstSegment rest := by
  unfold derivedBase?
  constructor
  · intro h
    split at h
    · rename_i rest hb
      split at h
      · rename_i hs
        refine ⟨rest, behind?_eq_some.1 hb, hs, ?_⟩
        rw [← Option.some.inj h, String.toList_ofList]
      · cases h
    · cases h
  · rintro ⟨rest, hp, hs, hbase⟩
    rw [behind?_eq_some.2 hp]
    simp only [hs, if_true]
    rw [← hbase, String.ofList_toList]

/-! ## First segments -/

theorem firstSegment_slash (cs : List Char) : firstSegment ('/' :: cs) = firstSegment cs := rfl

theorem firstSegment_cons {c : Char} (h : c ≠ '/') (cs : List Char) :
    firstSegment (c :: cs) = '/' :: c :: cs.takeWhile (· != '/') := by
  simp [firstSegment, h]

/-- A first segment has a slash in front and none behind it, where there is at least one
character. -/
theorem firstSegment_eq_nil_or (cs : List Char) :
    firstSegment cs = [] ∨
      ∃ c segment, c ≠ '/' ∧ '/' ∉ segment ∧ firstSegment cs = '/' :: c :: segment := by
  induction cs with
  | nil => exact .inl rfl
  | cons c cs ih =>
    by_cases h : c = '/'
    · rw [h, firstSegment_slash]
      exact ih
    · refine .inr ⟨c, _, h, fun hmem => ?_, firstSegment_cons h cs⟩
      simpa using List.mem_takeWhile_imp hmem

theorem getLast?_firstSegment (cs : List Char) : (firstSegment cs).getLast? ≠ some '/' := by
  rcases firstSegment_eq_nil_or cs with hnil | ⟨c, segment, hc, hsegment, heq⟩
  · simp [hnil]
  · rw [heq, List.getLast?_cons_cons]
    intro hlast
    rcases List.mem_cons.1 (List.mem_of_getLast? hlast) with hslash | hslash
    · exact hc hslash.symm
    · exact hsegment hslash

/-- A first segment is the first segment of what goes on behind it. -/
theorem firstSegment_append (hne : firstSegment cs ≠ []) (h : atSegment rest) :
    firstSegment (firstSegment cs ++ rest) = firstSegment cs := by
  obtain ⟨c, segment, hc, hsegment, heq⟩ := (firstSegment_eq_nil_or cs).resolve_left hne
  have hall : ∀ d ∈ segment, (d != '/') = true := by
    intro d hd
    refine bne_iff_ne.2 ?_
    rintro rfl
    exact hsegment hd
  have hstop : rest.takeWhile (· != '/') = [] := by
    match rest, h with
    | [], _ => rfl
    | d :: rest, h =>
      obtain rfl : d = '/' := by simpa [atSegment] using h
      rfl
  rw [heq, List.cons_append, List.cons_append, firstSegment_slash, firstSegment_cons hc,
    List.takeWhile_append_of_pos hall, hstop, List.append_nil]

theorem atSegment_dropWhile (cs : List Char) : atSegment (cs.dropWhile (· != '/')) := by
  induction cs with
  | nil => rfl
  | cons c cs ih =>
    by_cases h : c = '/'
    · simp [h, atSegment]
    · rw [List.dropWhile_cons_of_pos (by simpa using h)]
      exact ih

/-- A path starts with its first segment, unless an empty one stands in front. -/
theorem exists_eq_firstSegment_append (h : atSegment rest)
    (hone : firstSegment rest = [] ∨ ¬ ['/', '/'] <+: rest) :
    ∃ more, rest = firstSegment rest ++ more ∧ atSegment more := by
  rcases hone with hnil | hone
  · exact ⟨rest, by rw [hnil, List.nil_append], h⟩
  · match rest, h, hone with
    | [], h, _ => exact ⟨[], rfl, h⟩
    | [c], h, _ =>
      -- a slash at the end begins no segment that counts
      obtain rfl : c = '/' := by simpa [atSegment] using h
      exact ⟨['/'], rfl, rfl⟩
    | c :: d :: cs, h, hone =>
      obtain rfl : c = '/' := by simpa [atSegment] using h
      have hd : d ≠ '/' := by
        rintro rfl
        exact hone ⟨cs, rfl⟩
      -- the first segment goes up to the next slash
      refine ⟨cs.dropWhile (· != '/'), ?_, atSegment_dropWhile cs⟩
      rw [firstSegment_slash, firstSegment_cons hd, List.cons_append, List.cons_append,
        List.takeWhile_append_dropWhile]

/-- **The first segment is taken off once**, unless an empty segment stands in front of it. -/
theorem firstSegment_append_stripSegments (h : atSegment rest)
    (hone : firstSegment rest = [] ∨ ¬ ['/', '/'] <+: rest) :
    firstSegment rest ++ stripSegments (firstSegment rest) rest = rest := by
  obtain ⟨more, heq, hmore⟩ := exists_eq_firstSegment_append h hone
  have hstrip := stripSegments_append (firstSegment rest) hmore
  rw [← heq] at hstrip
  rw [hstrip]
  exact heq.symm

/-- **Behind an empty segment the first segment is not found**, and nothing is taken off. -/
theorem stripSegments_firstSegment (hne : firstSegment rest ≠ []) (h : ['/', '/'] <+: rest) :
    stripSegments (firstSegment rest) rest = rest := by
  obtain ⟨c, segment, hc, -, hseg⟩ := (firstSegment_eq_nil_or rest).resolve_left hne
  obtain ⟨more, rfl⟩ := h
  -- its second character is no slash, and that of the path is one
  refine stripSegments_of_behind?_eq_none ?_
  rw [hseg]
  simp [behind?, hc]

/-- **Only the first segment is found**: nothing is taken off for another one. -/
theorem stripSegments_of_firstSegment_ne (hne : firstSegment cs ≠ [])
    (h : firstSegment rest ≠ firstSegment cs) : stripSegments (firstSegment cs) rest = rest := by
  unfold stripSegments
  split
  · rename_i more hmore
    rw [behind?_eq_some] at hmore
    split
    · rename_i hat
      rw [hmore] at h
      exact absurd (firstSegment_append hne hat) h
    · rfl
  · rfl

end ApiCodegen
