import Mathlib
import ApiCodegen.Name.Fresh

/-!
# Fresh names are fresh

* `numbered_injective`: different numbers give different names.
* `fresh_eq_numbered`: **a taken name gets the least number that makes it free.** The candidates and the name
  itself are more than the taken names, so one of them is free.
* `fresh_not_mem`, `fresh_congr`: a fresh name is not taken, and depends only on which names are taken.
* `nodup_assign`, `not_mem_of_mem_assign`: **assigned names are distinct, and none of them was taken.**
* `mem_assign_or`: **a name that was asked for is assigned**, if it was not taken.
* `exists_getElem?_assign`, `getElem?_assign`: **every assigned name is what was asked for in its place, or
  that with a number**, as those before it leave it free.
* `getElem?_assign_eq_iff`: it is what was asked for if none before it is.
-/

namespace ApiCodegen.Name

variable {taken : List String} {name : String}

theorem numbered_injective (name : String) : Function.Injective (numbered name) := by
  intro m n h
  have hl := congrArg String.toList h
  simp only [numbered, String.toList_append] at hl
  exact Nat.repr_injective (String.toList_inj.1 (List.append_cancel_left hl))

/-- A numbered name is longer than the name. -/
theorem numbered_ne (name : String) (n : ℕ) : numbered name n ≠ name := by
  intro h
  have hl := congrArg (List.length ∘ String.toList) h
  simp [numbered] at hl

theorem nodup_cons_candidates (taken : List String) (name : String) :
    (name :: candidates taken name).Nodup := by
  refine List.nodup_cons.2 ⟨?_, ?_⟩
  · intro h
    obtain ⟨n, -, hn⟩ := List.mem_map.1 h
    exact numbered_ne name _ hn
  · refine List.Nodup.map (fun m n h => ?_) List.nodup_range
    have := numbered_injective name h
    omega

/-- Not all candidates for a taken name can be taken. -/
theorem exists_candidate (h : name ∈ taken) : ∃ c ∈ candidates taken name, c ∉ taken := by
  -- otherwise there are fewer taken names than different names among them
  by_contra hall
  push Not at hall
  have hsub : name :: candidates taken name ⊆ taken := by
    intro c hc
    rcases List.mem_cons.1 hc with rfl | hc
    · exact h
    · exact hall c hc
  have hle := (nodup_cons_candidates taken name).length_le_of_subset hsub
  simp [candidates] at hle

/-- **A taken name gets the least number that makes it free.** -/
theorem fresh_eq_numbered (h : name ∈ taken) : ∃ n, fresh taken name = numbered name (n + 1) ∧
    numbered name (n + 1) ∉ taken ∧ ∀ m < n, numbered name (m + 1) ∈ taken := by
  obtain ⟨c, hc, hfree⟩ := exists_candidate h
  have hsome : ((candidates taken name).find? fun c => decide (c ∉ taken)).isSome :=
    List.find?_isSome.2 ⟨c, hc, decide_eq_true hfree⟩
  rw [candidates, List.find?_map, Option.isSome_map] at hsome
  obtain ⟨n, hn⟩ := Option.isSome_iff_exists.1 hsome
  obtain ⟨hfirst, -, hless⟩ := List.find?_range_eq_some.1 hn
  refine ⟨n, ?_, of_decide_eq_true hfirst, fun m hm => by simpa using hless m hm⟩
  rw [fresh, if_pos h, candidates, List.find?_map, hn]
  rfl

/-- **A fresh name is not taken.** -/
theorem fresh_not_mem (taken : List String) (name : String) : fresh taken name ∉ taken := by
  by_cases h : name ∈ taken
  · obtain ⟨n, hn, hfree, -⟩ := fresh_eq_numbered h
    rwa [hn]
  · rwa [fresh_of_not_mem h]

/-- **A name is kept if it is not taken**, and only then. -/
theorem fresh_eq_iff : fresh taken name = name ↔ name ∉ taken := by
  refine ⟨fun h hmem => fresh_not_mem taken name ?_, fresh_of_not_mem⟩
  rwa [h]

/-- A fresh name depends only on which names are taken. -/
theorem fresh_congr {more : List String} (h : ∀ x, x ∈ taken ↔ x ∈ more) :
    fresh taken name = fresh more name := by
  by_cases hname : name ∈ taken
  · obtain ⟨n, hn, hfree, hless⟩ := fresh_eq_numbered hname
    obtain ⟨m, hm, hfree', hless'⟩ := fresh_eq_numbered ((h name).1 hname)
    have hle : n ≤ m := not_lt.1 fun hlt => hfree' ((h _).1 (hless m hlt))
    have hge : m ≤ n := not_lt.1 fun hlt => hfree ((h _).2 (hless' n hlt))
    rw [hn, hm, le_antisymm hle hge]
  · rw [fresh_of_not_mem hname, fresh_of_not_mem fun hmem => hname ((h name).2 hmem)]

/-! ## Lists of names -/

variable {names : List String}

/-- **No assigned name was taken.** -/
theorem not_mem_of_mem_assign (h : name ∈ assign taken names) : name ∉ taken := by
  induction names generalizing taken with
  | nil => exact absurd h List.not_mem_nil
  | cons first more ih =>
    rcases List.mem_cons.1 h with rfl | h
    · exact fresh_not_mem taken first
    · exact fun ht => ih h (List.mem_cons_of_mem _ ht)

/-- **Assigned names are distinct**: each is taken for those that follow. -/
theorem nodup_assign (taken names : List String) : (assign taken names).Nodup := by
  induction names generalizing taken with
  | nil => exact List.nodup_nil
  | cons first more ih =>
    exact List.nodup_cons.2 ⟨fun h => not_mem_of_mem_assign h List.mem_cons_self, ih _⟩

/-- The names that come later are assigned beside those that came before. -/
theorem assign_append (taken names more : List String) :
    assign taken (names ++ more) =
      assign taken names ++ assign ((assign taken names).reverse ++ taken) more := by
  induction names generalizing taken with
  | nil => rfl
  | cons first names ih => simp [assign, ih]

/-- A name that was asked for, or that name with a number. -/
def IsFreshOf (name given : String) : Prop := given = name ∨ ∃ n, given = numbered name n

theorem isFreshOf_fresh (taken : List String) (name : String) : IsFreshOf name (fresh taken name) := by
  unfold fresh
  split
  · right
    cases hfind : (candidates taken name).find? (· ∉ taken) with
    | none => exact ⟨_, rfl⟩
    | some c =>
      obtain ⟨n, -, rfl⟩ := List.mem_map.1 (List.mem_of_find?_eq_some hfind)
      exact ⟨n + 1, rfl⟩
  · exact .inl rfl

/-- **Every assigned name stands where the name stands that was asked for.** -/
theorem exists_getElem?_assign {i : ℕ} (h : names[i]? = some name) (taken : List String) :
    ∃ given, (assign taken names)[i]? = some given ∧ IsFreshOf name given := by
  induction names generalizing taken i with
  | nil => cases h
  | cons first more ih =>
    cases i with
    | zero =>
      obtain rfl : first = name := Option.some.inj h
      exact ⟨_, rfl, isFreshOf_fresh taken first⟩
    | succ i => exact ih h _

/-- Names that come later do not matter. -/
theorem take_assign (taken names : List String) (i : ℕ) :
    (assign taken names).take i = assign taken (names.take i) := by
  induction names generalizing taken i with
  | nil => simp [assign]
  | cons first more ih =>
    cases i with
    | zero => rfl
    | succ i => simp [assign, ih]

/-- **Every assigned name is fresh against those that were assigned before it.** -/
theorem getElem?_assign {i : ℕ} (h : names[i]? = some name) (taken : List String) :
    (assign taken names)[i]? = some (fresh (((assign taken names).take i).reverse ++ taken) name) := by
  rw [take_assign]
  induction names generalizing taken i with
  | nil => cases h
  | cons first more ih =>
    cases i with
    | zero =>
      obtain rfl : first = name := Option.some.inj h
      rfl
    | succ i =>
      have hmore := ih h (fresh taken first :: taken)
      simpa [assign] using hmore

/-- **A name is kept in its place** if it was not taken, and not assigned before. -/
theorem getElem?_assign_eq_iff {i : ℕ} (h : names[i]? = some name) (taken : List String) :
    (assign taken names)[i]? = some name ↔ name ∉ taken ∧ name ∉ (assign taken names).take i := by
  rw [getElem?_assign h, Option.some.injEq, fresh_eq_iff, List.mem_append, List.mem_reverse, not_or, and_comm]

/-- What was assigned before has a place before. -/
theorem mem_take_iff {i : ℕ} : name ∈ names.take i ↔ ∃ k < i, names[k]? = some name := by
  rw [List.mem_iff_getElem?]
  refine exists_congr fun k => ?_
  rw [List.getElem?_take]
  split <;> simp [*]

/-- It was asked for, with or without its number. -/
theorem exists_of_mem_assign {given : String} (h : given ∈ assign taken names) :
    ∃ name ∈ names, IsFreshOf name given := by
  obtain ⟨i, hi, rfl⟩ := List.getElem_of_mem h
  have hlt : i < names.length := by rwa [← length_assign taken names]
  obtain ⟨given, hgiven, hfresh⟩ := exists_getElem?_assign (List.getElem?_eq_getElem hlt) taken
  obtain rfl := Option.some.inj ((List.getElem?_eq_getElem hi).symm.trans hgiven)
  exact ⟨_, List.getElem_mem hlt, hfresh⟩

/-- **A name that was asked for is assigned**, unless it was taken. -/
theorem mem_assign_or (h : name ∈ names) (taken : List String) :
    name ∈ taken ∨ name ∈ assign taken names := by
  induction names generalizing taken with
  | nil => exact absurd h List.not_mem_nil
  | cons first more ih =>
    by_cases hname : name ∈ taken
    · exact .inl hname
    · right
      rcases List.mem_cons.1 h with rfl | h
      · exact List.mem_cons.2 (.inl (fresh_of_not_mem hname).symm)
      · -- it may be that it was assigned before its turn
        rcases ih h (fresh taken first :: taken) with htaken | hmore
        · exact List.mem_cons.2 (.inl ((List.mem_cons.1 htaken).resolve_right hname))
        · exact List.mem_cons_of_mem _ hmore

end ApiCodegen.Name
