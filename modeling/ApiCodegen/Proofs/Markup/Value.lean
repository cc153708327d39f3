import Mathlib
import ApiCodegen.Markup.Value

/-!
# Equality of values

* `Value.induct`: induction over values, with the items and entries as members of lists.
* `Value.equal_iff`: **equality of values can be computed**, so what a text reads as can be
  decided.
-/

namespace ApiCodegen.Markup.Value

/-- Induction over values. Sequences and mappings have a hypothesis for every member. -/
@[induction_eliminator]
theorem induct {P : Value → Prop} (null : P .null) (bool : ∀ b, P (.bool b))
    (number : ∀ n, P (.number n)) (string : ∀ s, P (.string s))
    (sequence : ∀ items, (∀ x ∈ items, P x) → P (.sequence items))
    (mapping : ∀ entries : Entries, (∀ e ∈ entries, P e.1 ∧ P e.2) → P (.mapping entries))
    (tagged : ∀ tag inner, P inner → P (.tagged tag inner)) (v : Value) : P v := by
  refine @Value.rec P (fun items => ∀ x ∈ items, P x) (fun entries => ∀ e ∈ entries, P e.1 ∧ P e.2)
    (fun e => P e.1 ∧ P e.2) null bool number string sequence mapping tagged ?_ ?_ ?_ ?_ ?_ v
  · exact fun x hx => absurd hx List.not_mem_nil
  · intro x items hx ih y hy
    rcases List.mem_cons.1 hy with rfl | hy
    · exact hx
    · exact ih y hy
  · exact fun e he => absurd he List.not_mem_nil
  · intro e entries he ih f hf
    rcases List.mem_cons.1 hf with rfl | hf
    · exact he
    · exact ih f hf
  · exact fun _ _ hk hv => ⟨hk, hv⟩

mutual

/-- Whether two values are equal. -/
def equal : Value → Value → Bool
  | .null, .null => true
  | .bool a, .bool b => a == b
  | .number m, .number n => decide (m = n)
  | .string s, .string t => s == t
  | .sequence xs, .sequence ys => equalItems xs ys
  | .mapping xs, .mapping ys => equalEntries xs ys
  | .tagged s x, .tagged t y => s == t && equal x y
  | _, _ => false

/-- `equal` item by item. -/
def equalItems : List Value → List Value → Bool
  | [], [] => true
  | x :: xs, y :: ys => equal x y && equalItems xs ys
  | _, _ => false

/-- `equal` entry by entry. -/
def equalEntries : List (Value × Value) → List (Value × Value) → Bool
  | [], [] => true
  | (k, v) :: xs, (l, w) :: ys => equal k l && equal v w && equalEntries xs ys
  | _, _ => false

end

theorem equalItems_iff {xs : List Value} (h : ∀ x ∈ xs, ∀ y, equal x y ↔ x = y) (ys : List Value) :
    equalItems xs ys ↔ xs = ys := by
  induction xs generalizing ys with
  | nil => cases ys <;> simp [equalItems]
  | cons x xs ih =>
    have hx := h x List.mem_cons_self
    have ih := ih fun x hx => h x (List.mem_cons_of_mem _ hx)
    cases ys <;> simp [equalItems, hx, ih]

theorem equalEntries_iff {xs : Entries}
    (h : ∀ e ∈ xs, (∀ y, equal e.1 y ↔ e.1 = y) ∧ ∀ y, equal e.2 y ↔ e.2 = y) (ys : Entries) :
    equalEntries xs ys ↔ xs = ys := by
  induction xs generalizing ys with
  | nil => cases ys <;> simp [equalEntries]
  | cons e xs ih =>
    obtain ⟨hk, hv⟩ := h e List.mem_cons_self
    have ih := ih fun x hx => h x (List.mem_cons_of_mem _ hx)
    cases ys <;> simp [equalEntries, Prod.ext_iff, hk, hv, ih]

/-- **Equality of values can be computed.** -/
theorem equal_iff (v w : Value) : v.equal w ↔ v = w := by
  induction v generalizing w with
  | sequence items ih =>
    have hitems := equalItems_iff ih
    cases w <;> simp [equal, hitems]
  | mapping entries ih =>
    have hentries := equalEntries_iff fun e he => ih e he
    cases w <;> simp [equal, hentries]
  | tagged tag inner ih => cases w <;> simp [equal, ih]
  | null | bool | number | string => cases w <;> simp [equal]

instance : DecidableEq Value := fun v w => decidable_of_iff _ (equal_iff v w)

end ApiCodegen.Markup.Value
