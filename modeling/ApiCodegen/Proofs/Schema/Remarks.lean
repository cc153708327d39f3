import ApiCodegen.Proofs.Schema.Reading

/-!
# What reading a description says

A description is read without regard to any policy. What is remarked on is a required property that
is not declared, and what fails is a part of the description that is malformed. References are not
looked up yet.

* `Reported.Within`: what all remarks and a failure of a computation satisfy.
* `Reported.Descriptive`: remarks and failures of a computation that looks up no references.
* `Reported.Gives`: these, and what every result of the computation satisfies.
* `Reported.Gives.bind`: **two parts of a computation that keep to this keep to it together.**
-/

namespace ApiCodegen

open Markup

/-- All remarks of a computation satisfy `W`, and a failure satisfies `F`. -/
structure Reported.Within {α : Type} (W : Warning → Prop) (F : Failure → Prop) (r : Reported α) :
    Prop where
  warnings : ∀ w ∈ r.warnings, W w
  failure : ∀ f, r.outcome = .error f → F f

namespace Reported

variable {α β : Type} {W : Warning → Prop} {F : Failure → Prop} {r : Reported α}

theorem within_pure (a : α) : (pure a : Reported α).Within W F where
  warnings _ hw := absurd hw List.not_mem_nil
  failure _ hf := by cases hf

theorem within_fail {f : Failure} (h : F f) : (fail f : Reported α).Within W F where
  warnings _ hw := absurd hw List.not_mem_nil
  failure _ hf := by
    obtain rfl := Except.error.inj hf
    exact h

theorem Within.bind (h : r.Within W F) {next : α → Reported β}
    (hn : ∀ a, r.outcome = .ok a → (next a).Within W F) : (r >>= next).Within W F := by
  rcases r with ⟨warnings, outcome⟩
  cases outcome with
  | error f =>
    constructor
    · exact h.warnings
    · intro g hg
      obtain rfl := Except.error.inj hg
      exact h.failure f rfl
  | ok a =>
    constructor
    · intro w hw
      rcases List.mem_append.1 hw with hw | hw
      · exact h.warnings w hw
      · exact (hn a rfl).warnings w hw
    · exact (hn a rfl).failure

/-- A reading remarks on required properties only, and fails at malformed parts only. -/
abbrev Descriptive {α : Type} (r : Reported α) : Prop :=
  r.Within (fun w => ∃ property location, w = .undeclaredRequired property location)
    (fun f => ∃ cause, f = .malformed cause)

theorem descriptive_malformed (cause : Malformation) :
    (fail (.malformed cause) : Reported α).Descriptive := within_fail ⟨cause, rfl⟩

/-- **A computation that looks up no references**, of which every result satisfies `P`. -/
structure Gives (r : Reported α) (P : α → Prop) : Prop where
  descriptive : r.Descriptive
  yields : r.Yields P

variable {P : α → Prop} {Q : β → Prop}

theorem gives_pure {a : α} (h : P a) : (pure a : Reported α).Gives P := ⟨within_pure a, yields_pure h⟩

theorem gives_malformed (cause : Malformation) : (fail (.malformed cause) : Reported α).Gives P :=
  ⟨descriptive_malformed cause, yields_fail⟩

theorem Gives.bind (h : r.Gives P) {next : α → Reported β} (hn : ∀ a, P a → (next a).Gives Q) :
    (r >>= next).Gives Q where
  descriptive := h.descriptive.bind fun a ha => (hn a (h.yields a ha)).descriptive
  yields := h.yields.bind fun a ha => (hn a ha).yields

end Reported

end ApiCodegen
