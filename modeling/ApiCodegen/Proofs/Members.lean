import Mathlib

/-!
# Members one after the other

Much of what is read and written is made of members: the parts of a text between marks, the tokens of the
lines of a file, the schemas of the properties of an object.

* `eq_intercalate_map`: what is written member by member, with something in between, is joined by it.
* `eq_flatMap`: what is collected member by member is what the members have.
* `flatMap_of_append`: **a relation that holds of two parts together holds of any number of them.**
* `forall₂_map`, `exists_forall₂`: a relation that holds of every member.
-/

namespace ApiCodegen

variable {α β γ : Type} {as : List α}

/-- Members that are written one after the other, with something between them, are joined by it. -/
theorem eq_intercalate_map {between : List β} {write : α → List β} (writeAll : List α → List β)
    (hnil : writeAll [] = []) (hone : ∀ a, writeAll [a] = write a)
    (hmore : ∀ a b more, writeAll (a :: b :: more) = write a ++ (between ++ writeAll (b :: more)))
    (as : List α) : writeAll as = List.intercalate between (as.map write) := by
  induction as with
  | nil => rw [hnil, List.map_nil, List.intercalate_nil]
  | cons a as ih =>
    cases as with
    | nil => rw [hone, List.map_cons, List.map_nil, List.intercalate_singleton]
    | cons b more =>
      rw [hmore, ih, List.map_cons, List.map_cons, List.map_cons, List.intercalate_cons_cons, List.append_assoc]

/-- What is collected member by member is what the members have, one after the other. -/
theorem eq_flatMap {collect : α → List β} (collectAll : List α → List β) (hnil : collectAll [] = [])
    (hcons : ∀ a more, collectAll (a :: more) = collect a ++ collectAll more) (as : List α) :
    collectAll as = as.flatMap collect := by
  induction as with
  | nil => rw [hnil, List.flatMap_nil]
  | cons a as ih => rw [hcons, ih, List.flatMap_cons]

/-- **A relation that holds of nothing, and of two parts together, holds of any number of parts.** -/
theorem flatMap_of_append {r : List β → List γ → Prop} (hnil : r [] [])
    (happend : ∀ {bs cs bs' cs'}, r bs cs → r bs' cs' → r (bs ++ bs') (cs ++ cs')) {f : α → List β}
    {g : α → List γ} (h : ∀ a ∈ as, r (f a) (g a)) : r (as.flatMap f) (as.flatMap g) := by
  induction as with
  | nil => exact hnil
  | cons a as ih =>
    rw [List.flatMap_cons, List.flatMap_cons]
    exact happend (h a List.mem_cons_self) (ih fun b hb => h b (List.mem_cons_of_mem _ hb))

theorem forall₂_map {r : β → γ → Prop} {f : α → β} {g : α → γ} (h : ∀ a ∈ as, r (f a) (g a)) :
    List.Forall₂ r (as.map f) (as.map g) :=
  List.forall₂_map_left_iff.2 (List.forall₂_map_right_iff.2 (List.forall₂_same.2 h))

/-- A choice for every member of a list. -/
theorem exists_forall₂ {r : α → β → Prop} (h : ∀ a ∈ as, ∃ b, r a b) : ∃ bs, List.Forall₂ r as bs := by
  induction as with
  | nil => exact ⟨[], .nil⟩
  | cons a as ih =>
    obtain ⟨b, hb⟩ := h a List.mem_cons_self
    obtain ⟨bs, hbs⟩ := ih fun x hx => h x (List.mem_cons_of_mem _ hx)
    exact ⟨b :: bs, .cons hb hbs⟩

end ApiCodegen
