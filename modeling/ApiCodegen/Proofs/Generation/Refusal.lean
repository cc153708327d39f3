import ApiCodegen.Generation.Generator
import ApiCodegen.Proofs.Plan.Binding
import ApiCodegen.Proofs.Plan.Collision
import ApiCodegen.Proofs.Plan.Conflict
import ApiCodegen.Proofs.Schema.Load

/-!
# When a document is refused

Three checks can refuse a document, one after the other: that of the bindings, that of the declared
names and that of the group prefixes. Rendering comes after all of them and does not fail.

* `Generator.renderAll_ok`: **the emitters of the targets render whatever was planned.**
* `Generator.Refuses`: which failure a document is refused with.
* `Generator.plan_error_iff`, `Generator.plan_ok_iff`: planning fails with these and no others.
* `Generator.render_outcome`: **so does rendering.**
-/

namespace ApiCodegen.Generation.Generator

open File Tool

variable {g : Generator} {doc : Document} {failure : Failure}

/-! ## Rendering -/

theorem outcome_stageAll (target : Target) (stage : Stage) (artifacts : List Artifact) :
    (stageAll target stage artifacts).outcome = .ok (artifacts.foldl Stage.stage stage) := by
  induction artifacts generalizing stage with
  | nil => rfl
  | cons a artifacts ih =>
    rw [List.foldl_cons, ← ih, stageAll]
    -- the remark on an artifact that is replaced leaves the stage as it is
    split <;> rfl

/-- **The emitters of the targets render whatever was planned.** -/
theorem renderAll_ok {emitters : List Emitter}
    (h : ∀ e ∈ emitters, ∃ target, e = Emitter.builtin target) (plan : Plan) (r : Rendered) :
    ∃ rendered, (renderAll plan r emitters).outcome = .ok rendered := by
  induction emitters generalizing r with
  | nil => exact ⟨r, rfl⟩
  | cons e emitters ih =>
    rw [List.forall_mem_cons] at h
    obtain ⟨⟨target, rfl⟩, hmore⟩ := h
    have hfiles : ∃ artifacts, (Emitter.builtin target).render plan = .ok artifacts := by
      cases target <;> exact ⟨_, rfl⟩
    obtain ⟨artifacts, hartifacts⟩ := hfiles
    obtain ⟨rendered, hrendered⟩ := ih hmore {
      stage := artifacts.foldl Stage.stage r.stage
      files := r.files ++ [((Emitter.builtin target).target, artifacts.map Artifact.path)]
      steps := r.steps ++ [stepDone (.render (Emitter.builtin target).target)
        (counted artifacts.length "file")] }
    refine ⟨rendered, ?_⟩
    rw [renderAll, Reported.bind_ok_iff]
    refine ⟨artifacts, hartifacts, ?_⟩
    rw [Reported.bind_ok_iff]
    exact ⟨_, outcome_stageAll .., hrendered⟩

/-! ## Planning -/

/-- The identifiers of the operations that the table has no entry for, in order. -/
def unserved (g : Generator) (doc : Document) : List String :=
  doc.operationIds.filter fun id => id ∉ g.bindings.entries.map Binding.operationId

/-- The check of the bindings passes: the strict policy has all operations bound. -/
def Served (g : Generator) (doc : Document) : Prop :=
  g.settings.bindingPolicy = .strict → g.unserved doc = []

/-- The check of the group prefixes passes: a tie-break that refuses conflicts finds none. -/
def Settled (g : Generator) (doc : Document) : Prop :=
  g.settings.tieBreak = .reject → ∀ op ∈ doc.operations, ∀ tag kept derived,
    ¬ Clashes g.settings.apiPrefix doc.operations op tag kept derived

/-- **Which failure a document is refused with.** Each check comes after those that passed. -/
inductive Refuses (g : Generator) (doc : Document) : Failure → Prop
  /-- All operations without an entry are named. -/
  | unbound : g.settings.bindingPolicy = .strict → g.unserved doc ≠ [] →
      Refuses g doc (.unboundOperations (g.unserved doc))
  /-- The first component is named whose declared name occurred before, with the one that took it. -/
  | collision {k : Collision} : g.Served doc → FirstCollision [] doc.components k →
      Refuses g doc (.nameCollision k.name k.first k.second)
  /-- The first operation is named that asks for another prefix than its group keeps. -/
  | conflict {op : Operation} {tag kept derived : String} : g.Served doc →
      (declaredNames doc.components).Nodup → g.settings.tieBreak = .reject →
      FirstConflict g.settings.apiPrefix doc.operations op tag kept derived →
      Refuses g doc (.prefixConflict tag kept derived op.path)

theorem validate_ok_iff_served :
    (g.bindings.validate g.settings.bindingPolicy doc.operationIds).outcome = .ok () ↔
      g.Served doc := by
  rw [BindingTable.validate_ok_iff, BindingTable.unbound_eq]
  rfl

/-- What planning does: the three checks, and then nothing that could fail. -/
theorem plan_ok_iff : (∃ p, (g.plan doc).outcome = .ok p) ↔
    g.Served doc ∧ (declaredNames doc.components).Nodup ∧ g.Settled doc := by
  constructor
  · intro h
    obtain ⟨-, -, h⟩ := Reported.exists_bind_ok_iff.1 h
    obtain ⟨⟨⟩, hserved, h⟩ := Reported.exists_bind_ok_iff.1 h
    obtain ⟨declarations, hdeclared, h⟩ := Reported.exists_bind_ok_iff.1 h
    obtain ⟨topology, hsettled, -⟩ := Reported.exists_bind_ok_iff.1 h
    exact ⟨validate_ok_iff_served.1 hserved, (Document.declarations_ok_iff.1 hdeclared).1,
      (Topology.resolve_ok_iff.1 hsettled).2⟩
  · rintro ⟨hserved, hdeclared, hsettled⟩
    refine Reported.exists_bind_ok_iff.2 ⟨(), rfl, ?_⟩
    refine Reported.exists_bind_ok_iff.2 ⟨(), validate_ok_iff_served.2 hserved, ?_⟩
    refine Reported.exists_bind_ok_iff.2 ⟨_, Document.declarations_ok_iff.2 ⟨hdeclared, rfl⟩, ?_⟩
    refine Reported.exists_bind_ok_iff.2 ⟨_, Topology.resolve_ok_iff.2 ⟨rfl, hsettled⟩, ?_⟩
    exact Reported.exists_bind_ok_iff.2 ⟨_, rfl, _, rfl⟩

/-- **Planning fails with the first check that refuses the document.** -/
theorem plan_error_iff : (g.plan doc).outcome = .error failure ↔ g.Refuses doc failure := by
  constructor
  · intro h
    rcases Reported.bind_error_iff.1 h with h | ⟨-, -, h⟩
    · cases h
    rcases Reported.bind_error_iff.1 h with h | ⟨⟨⟩, hserved, h⟩
    · obtain ⟨hstrict, hunbound, rfl⟩ := BindingTable.validate_error_iff.1 h
      rw [BindingTable.unbound_eq] at hunbound ⊢
      exact .unbound hstrict hunbound
    rw [validate_ok_iff_served] at hserved
    rcases Reported.bind_error_iff.1 h with h | ⟨declarations, hdeclared, h⟩
    · obtain ⟨k, hk, rfl⟩ := Document.declarations_error_iff.1 h
      exact .collision hserved hk
    have hnodup := (Document.declarations_ok_iff.1 hdeclared).1
    rcases Reported.bind_error_iff.1 h with h | ⟨topology, -, h⟩
    · obtain ⟨hreject, op, tag, kept, derived, hfirst, rfl⟩ := Topology.resolve_error_iff.1 h
      exact .conflict hserved hnodup hreject hfirst
    · rcases Reported.bind_error_iff.1 h with h | ⟨-, -, h⟩ <;> cases h
  · intro h
    refine Reported.bind_error_iff.2 (.inr ⟨(), rfl, Reported.bind_error_iff.2 ?_⟩)
    cases h with
    | unbound hstrict hunserved =>
      rw [unserved, ← BindingTable.unbound_eq] at hunserved
      rw [unserved, ← BindingTable.unbound_eq]
      exact .inl (BindingTable.validate_error_iff.2 ⟨hstrict, hunserved, rfl⟩)
    | collision hserved hk =>
      refine .inr ⟨(), validate_ok_iff_served.2 hserved, Reported.bind_error_iff.2 (.inl ?_)⟩
      exact Document.declarations_error_iff.2 ⟨_, hk, rfl⟩
    | conflict hserved hnodup hreject hfirst =>
      refine .inr ⟨(), validate_ok_iff_served.2 hserved, Reported.bind_error_iff.2 (.inr ?_)⟩
      refine ⟨_, Document.declarations_ok_iff.2 ⟨hnodup, rfl⟩, Reported.bind_error_iff.2 (.inl ?_)⟩
      exact Topology.resolve_error_iff.2 ⟨hreject, _, _, _, _, hfirst, rfl⟩

/-! ## The three kinds of refusals -/

theorem exists_refuses_unbound : (∃ ids, g.Refuses doc (.unboundOperations ids)) ↔ ¬ g.Served doc := by
  unfold Served
  constructor
  · rintro ⟨ids, h⟩ hserved
    cases h with
    | unbound hstrict hne => exact hne (hserved hstrict)
  · intro h
    rw [Classical.not_imp] at h
    exact ⟨_, .unbound h.1 h.2⟩

theorem exists_refuses_collision :
    (∃ name first second, g.Refuses doc (.nameCollision name first second)) ↔
      g.Served doc ∧ ¬ (declaredNames doc.components).Nodup := by
  rw [← exists_firstCollision_iff]
  constructor
  · rintro ⟨name, first, second, h⟩
    cases h with
    | collision hserved hk => exact ⟨hserved, _, hk⟩
  · rintro ⟨hserved, k, hk⟩
    exact ⟨_, _, _, .collision hserved hk⟩

theorem exists_refuses_conflict :
    (∃ tag kept rejected path, g.Refuses doc (.prefixConflict tag kept rejected path)) ↔
      g.Served doc ∧ (declaredNames doc.components).Nodup ∧ ¬ g.Settled doc := by
  unfold Settled
  rw [Classical.not_imp, ← Topology.exists_firstConflict_iff]
  constructor
  · rintro ⟨tag, kept, rejected, path, h⟩
    cases h with
    | conflict hserved hnodup hreject hfirst =>
      exact ⟨hserved, hnodup, hreject, _, _, _, _, hfirst⟩
  · rintro ⟨hserved, hnodup, hreject, op, tag, kept, derived, hfirst⟩
    exact ⟨_, _, _, _, .conflict hserved hnodup hreject hfirst⟩

/-- **A document is rendered if it passes the three checks, and is refused by the first that it does
not pass**, with the emitters of the targets.

* The failure names what the check found first, or all operations that are unbound.
* It is of the kind of the first check that the document does not pass.
* Nothing behind the checks can fail. -/
theorem render_outcome (hg : ∀ e ∈ g.emitters, ∃ target, e = Emitter.builtin target)
    (doc : Document) :
    (∀ failure, (g.render doc).outcome = .error failure ↔ g.Refuses doc failure) ∧
    ((∃ ids, (g.render doc).outcome = .error (.unboundOperations ids)) ↔ ¬ g.Served doc) ∧
    ((∃ name first second, (g.render doc).outcome = .error (.nameCollision name first second)) ↔
      g.Served doc ∧ ¬ (declaredNames doc.components).Nodup) ∧
    ((∃ tag kept rejected path,
        (g.render doc).outcome = .error (.prefixConflict tag kept rejected path)) ↔
      g.Served doc ∧ (declaredNames doc.components).Nodup ∧ ¬ g.Settled doc) ∧
    ((∃ rendered, (g.render doc).outcome = .ok rendered) ↔
      g.Served doc ∧ (declaredNames doc.components).Nodup ∧ g.Settled doc) := by
  have hrender (plan : Plan) (steps : List StepReport) := renderAll_ok hg plan
    { stage := { root := g.settings.outDir }, files := [], steps := steps }
  have herror (failure : Failure) :
      (g.render doc).outcome = .error failure ↔ g.Refuses doc failure := by
    rw [← plan_error_iff, render, Reported.bind_error_iff]
    refine or_iff_left ?_
    rintro ⟨⟨plan, steps⟩, -, h⟩
    obtain ⟨rendered, hrendered⟩ := hrender plan steps
    cases hrendered.symm.trans h
  refine ⟨herror, ?_, ?_, ?_, ?_⟩
  · simpa only [herror] using exists_refuses_unbound
  · simpa only [herror] using exists_refuses_collision
  · simpa only [herror] using exists_refuses_conflict
  · rw [← plan_ok_iff]
    constructor
    · intro h
      obtain ⟨p, hp, -⟩ := Reported.exists_bind_ok_iff.1 h
      exact ⟨p, hp⟩
    · rintro ⟨⟨plan, steps⟩, hp⟩
      exact Reported.exists_bind_ok_iff.2 ⟨_, hp, hrender plan steps⟩

/-! ## A document that all three checks refuse -/

/-- A generator for both targets that lets nothing pass. -/
def strictGenerator (bindings : BindingTable) : Generator where
  settings := { bindingPolicy := .strict, tieBreak := .reject, apiPrefix := "/v" }
  bindings := bindings
  emitters := [.builtin .python, .builtin .typeScript]

/-- The operation that decides the prefix of its group. -/
def leadingOperation : Operation :=
  { path := "/v/a", verb := .get, operationId := some "one", tags := ["t"] }

/-- An operation of this group with another prefix. -/
def strayOperation : Operation :=
  { path := "/v/b", verb := .get, operationId := some "two", tags := ["t"] }

/-- Two operations of one group with different prefixes. -/
def strayDocument (components : List Component) : Document where
  components := components
  paths := [⟨"/v/a", [leadingOperation]⟩, ⟨"/v/b", [strayOperation]⟩]

/-- Two components with one declared name. -/
def twinComponents : List Component := [⟨"a-b", none, .untyped⟩, ⟨"AB", none, .untyped⟩]

/-- A table with the operations of `strayDocument`. -/
def strayTable : BindingTable where
  entries := [⟨"one", "services", "one"⟩, ⟨"two", "services", "two"⟩]
  distinct := by decide

theorem firstCollision_twin : FirstCollision [] twinComponents ⟨"AB", "a-b", "AB"⟩ := by
  refine ⟨[⟨"a-b", none, .untyped⟩], ⟨"AB", none, .untyped⟩, [], ⟨"a-b", none, .untyped⟩, rfl, ?_,
    List.mem_cons_self, ?_, ?_⟩ <;> decide +kernel

theorem firstConflict_stray :
    FirstConflict "/v" (strayDocument []).operations strayOperation "t" "/a" "/b" := by
  have hkept : keptBase? "/v" (strayDocument []).operations "t" = some "/a" := by decide +kernel
  have hasks : derivedBase? "/v" "/v/a" = some "/a" := by decide +kernel
  refine ⟨[leadingOperation], [], rfl, ⟨?_, rfl, hkept, by decide⟩, ?_⟩
  · decide +kernel
  · intro other hother tag kept derived h
    obtain rfl := List.mem_singleton.1 hother
    obtain rfl : "t" = tag := Option.some.inj h.tagged
    obtain rfl := Option.some.inj (hkept.symm.trans h.keeps)
    exact h.ne (Option.some.inj (hasks.symm.trans h.asks))

/-- The operations are found unbound; when they are bound, the components collide; without these, the
second operation is in conflict with the first. -/
theorem render_outcome_stray :
    ((strictGenerator ⟨[], List.nodup_nil⟩).render (strayDocument twinComponents)).outcome =
      .error (.unboundOperations ["one", "two"]) ∧
    ((strictGenerator strayTable).render (strayDocument twinComponents)).outcome =
      .error (.nameCollision "AB" "a-b" "AB") ∧
    ((strictGenerator strayTable).render (strayDocument [])).outcome =
      .error (.prefixConflict "t" "/a" "/b" "/v/b") := by
  have hemitters (table : BindingTable) :
      ∀ e ∈ (strictGenerator table).emitters, ∃ target, e = Emitter.builtin target := by
    intro e he
    rcases List.mem_pair.1 he with rfl | rfl
    · exact ⟨.python, rfl⟩
    · exact ⟨.typeScript, rfl⟩
  have hunserved : (strictGenerator ⟨[], List.nodup_nil⟩).unserved (strayDocument twinComponents) =
      ["one", "two"] := by decide +kernel
  have hserved (components : List Component) :
      (strictGenerator strayTable).Served (strayDocument components) := by
    have hids : (strayDocument components).operationIds = ["one", "two"] := by
      change (strayDocument []).operationIds = _
      decide +kernel
    intro _
    rw [unserved, hids]
    decide +kernel
  refine ⟨?_, ?_, ?_⟩
  · refine ((render_outcome (hemitters _) _).1 _).2 ?_
    rw [← hunserved]
    exact .unbound rfl (hunserved ▸ List.cons_ne_nil _ _)
  · exact ((render_outcome (hemitters _) _).1 _).2 (.collision (hserved _) firstCollision_twin)
  · exact ((render_outcome (hemitters _) _).1 _).2
      (.conflict (hserved []) nodup_declaredNames_nil rfl firstConflict_stray)

end ApiCodegen.Generation.Generator
