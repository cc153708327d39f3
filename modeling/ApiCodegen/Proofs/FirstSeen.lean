import Mathlib

/-!
# Lists in first-seen order

`List.eraseDups` keeps the first of equal members. Router groups and the paths of a combined
document stand in this order, and both are built one member at a time.

* `nodup_eraseDups`, `eraseDups_of_nodup`, `length_eraseDups_eq_iff`: no member is left twice, and a list
  without repetitions, and no other, stays as it is.
* `eraseDups_append_cons_of_mem`: a member that was seen before adds nothing.
* `eraseDups_append_eraseDups`: **two parts can be made free of repetitions first.**
* `nodup_map_concat_iff`: a member can be put behind others that differ from it.
-/

namespace ApiCodegen

variable {α : Type} [BEq α] [LawfulBEq α] {known more : List α} {x : α}

theorem eraseDups_of_nodup (h : known.Nodup) : known.eraseDups = known := by
  induction known with
  | nil => rfl
  | cons a known ih =>
    obtain ⟨ha, hn⟩ := List.nodup_cons.1 h
    have hf : known.filter (fun b => !b == a) = known := by
      refine List.filter_eq_self.2 fun b hb => ?_
      have hne : b ≠ a := by
        rintro rfl
        exact ha hb
      simpa using hne
    rw [List.eraseDups_cons, hf, ih hn]

theorem nodup_eraseDups : (l : List α) → l.eraseDups.Nodup
  | [] => List.nodup_nil
  | a :: l => by
    have hlen : (l.filter fun b => !b == a).length < l.length + 1 :=
      Nat.lt_succ_of_le (List.length_filter_le _ _)
    rw [List.eraseDups_cons, List.nodup_cons]
    refine ⟨?_, nodup_eraseDups _⟩
    rw [List.mem_eraseDups, List.mem_filter]
    rintro ⟨-, ha⟩
    simp at ha
termination_by l => l.length

/-- A list has no repetitions if none of its members is taken off. -/
theorem length_eraseDups_eq_iff [DecidableEq α] {l : List α} : l.eraseDups.length = l.length ↔ l.Nodup := by
  refine ⟨fun h => ?_, fun h => by rw [eraseDups_of_nodup h]⟩
  have hperm : l.eraseDups.Perm l.dedup :=
    (List.perm_ext_iff_of_nodup (nodup_eraseDups l) l.nodup_dedup).2 fun a => by
      rw [List.mem_eraseDups, List.mem_dedup]
  have hall : l.dedup = l := (List.dedup_sublist l).eq_of_length (hperm.length_eq.symm.trans h)
  exact hall ▸ l.nodup_dedup

theorem eraseDups_eraseDups (l : List α) : l.eraseDups.eraseDups = l.eraseDups :=
  eraseDups_of_nodup (nodup_eraseDups l)

/-- Members and repetitions can be taken off in either order. -/
theorem eraseDups_filter (p : α → Bool) : (l : List α) →
    (l.filter p).eraseDups = l.eraseDups.filter p
  | [] => rfl
  | a :: l => by
    have hlen : (l.filter fun b => !b == a).length < l.length + 1 :=
      Nat.lt_succ_of_le (List.length_filter_le _ _)
    have ih := eraseDups_filter p (l.filter fun b => !b == a)
    rw [List.filter_filter] at ih
    rw [List.eraseDups_cons]
    by_cases ha : p a = true
    · have hcomm : (fun b => (!b == a) && p b) = fun b => p b && !b == a := by
        funext b
        exact Bool.and_comm _ _
      rw [List.filter_cons_of_pos ha, List.filter_cons_of_pos ha, List.eraseDups_cons,
        List.filter_filter, hcomm, ih]
    · -- the copies of a member that is taken off go with it
      have hcopies : l.filter (fun b => p b && !b == a) = l.filter p := by
        refine List.filter_congr fun b _ => ?_
        by_cases hb : b = a
        · rw [hb]
          simp [ha]
        · simp [hb]
      rw [List.filter_cons_of_neg ha, List.filter_cons_of_neg ha, ← ih, hcopies]
termination_by l => l.length

/-- A member that was seen before adds nothing. -/
theorem eraseDups_append_cons_of_mem (h : x ∈ known) :
    (known ++ x :: more).eraseDups = (known ++ more).eraseDups := by
  have hoff : (x :: more).removeAll known = more.removeAll known := by
    rw [List.cons_removeAll]
    simp [h]
  rw [List.eraseDups_append, List.eraseDups_append, hoff]

/-- **Two parts can be made free of repetitions first.** -/
theorem eraseDups_append_eraseDups (as bs : List α) :
    (as.eraseDups ++ bs.eraseDups).eraseDups = (as ++ bs).eraseDups := by
  -- what the first part has is taken off the second, with repetitions or without
  have hoff : bs.eraseDups.removeAll as.eraseDups = (bs.removeAll as).eraseDups := by
    unfold List.removeAll
    rw [eraseDups_filter]
    refine List.filter_congr fun b _ => ?_
    rw [Bool.eq_iff_iff]
    simp
  rw [List.eraseDups_append, List.eraseDups_append, eraseDups_eraseDups, hoff, eraseDups_eraseDups]

/-- A member can be put behind others if what is seen of it differs from what is seen of them. -/
theorem nodup_map_concat_iff {β γ : Type} {f : β → γ} {bs : List β} {b : β} :
    ((bs ++ [b]).map f).Nodup ↔ (bs.map f).Nodup ∧ ∀ c ∈ bs, f c ≠ f b := by
  rw [List.map_append, List.nodup_append]
  simp

end ApiCodegen
