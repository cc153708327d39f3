import ApiCodegen.Proofs.Plan.Declaration
import ApiCodegen.Proofs.Plan.Route
import ApiCodegen.Proofs.Server.TypeExpr
import ApiCodegen.Server.Models

/-!
# The models file declares what it uses

* `Walk.Extends`: what visiting an alias does to a walk: every alias that was met is finished, or is
  being visited.
* `mem_aliasOrder`, `name_mem_aliasOrder`: **the order of definition has all aliases by name, and
  no others.**
* `ModelsFile.declared`, `ModelsFile.annotations`: the declared names, and the annotations that the
  file writes.
* `ModelsFile.names_classes`, `ModelsFile.names_aliases`: which names are those of classes, and of aliases.
* `ModelsFile.exists_of_mem_annotations`: which annotations are written.
* `ModelsFile.mem_declared`: **the file declares the names of all declarations.**
-/

namespace ApiCodegen.Server

open Name

/-! ## The order of aliases -/

variable {all : List Alias} {a b : Alias} {w w' w'' : Walk}

namespace Walk

/-- A walk after some visits: what was met since is finished, and finished aliases are known. -/
structure Extends (all : List Alias) (w w' : Walk) : Prop where
  kept : w.met ⊆ w'.met
  grown : w.finished ⊆ w'.finished
  met : ∀ name ∈ w'.met, name ∈ w.met ∨ name ∈ w'.finished.map Alias.name
  known : ∀ b ∈ w'.finished, b ∈ w.finished ∨ b ∈ all

theorem Extends.refl (all : List Alias) (w : Walk) : Extends all w w :=
  ⟨List.Subset.refl _, List.Subset.refl _, fun _ h => .inl h, fun _ h => .inl h⟩

theorem Extends.trans (h : Extends all w w') (h' : Extends all w' w'') : Extends all w w'' where
  kept := List.Subset.trans h.kept h'.kept
  grown := List.Subset.trans h.grown h'.grown
  met := by
    intro name hname
    rcases h'.met name hname with hname | hname
    · exact (h.met name hname).imp_right fun h => List.map_subset _ h'.grown h
    · exact .inr hname
  known := by
    intro b hb
    rcases h'.known b hb with hb | hb
    · exact h.known b hb
    · exact .inr hb

theorem foldl_extends {visit : Walk → Alias → Walk}
    (hv : ∀ w, ∀ a ∈ all, Extends all w (visit w a)) {part : List Alias} (hs : part ⊆ all)
    (w : Walk) : Extends all w (part.foldl visit w) := by
  induction part generalizing w with
  | nil => exact .refl all w
  | cons a part ih =>
    obtain ⟨ha, hs⟩ := List.cons_subset.1 hs
    exact (hv w a ha).trans (ih hs _)

theorem dependencies_subset (all : List Alias) (a : Alias) : a.dependencies all ⊆ all := by
  intro b hb
  obtain ⟨r, -, hr⟩ := List.mem_filterMap.1 hb
  exact List.mem_of_find?_eq_some hr

/-- **A visit finishes what it meets.** -/
theorem visit_extends (fuel : Nat) (w : Walk) (ha : a ∈ all) :
    Extends all w (visit all fuel w a) := by
  induction fuel generalizing w a with
  | zero => exact .refl all w
  | succ fuel ih =>
    rw [visit]
    split
    · exact .refl all w
    · -- the alias itself is met first and finished last
      have hinner := foldl_extends (fun w _ hb => ih w hb) (dependencies_subset all a)
        ⟨a.name :: w.met, w.finished⟩
      refine ⟨?_, ?_, ?_, ?_⟩
      · exact (List.cons_subset.1 hinner.kept).2
      · exact List.Subset.trans hinner.grown (List.subset_append_left _ _)
      · intro name hname
        rw [List.map_append, List.mem_append]
        rcases hinner.met name hname with hname | hname
        · rcases List.mem_cons.1 hname with rfl | hname
          · exact .inr (.inr List.mem_cons_self)
          · exact .inl hname
        · exact .inr (.inl hname)
      · intro b hb
        rcases List.mem_append.1 hb with hb | hb
        · exact hinner.known b hb
        · rw [List.mem_singleton.1 hb]
          exact .inr ha

/-- A visited alias is met. -/
theorem met_visit (fuel : Nat) (w : Walk) (a : Alias) :
    a.name ∈ (visit all (fuel + 1) w a).met := by
  rw [visit]
  split
  · assumption
  · have hinner := foldl_extends (fun w _ hb => visit_extends fuel w hb) (dependencies_subset all a)
      ⟨a.name :: w.met, w.finished⟩
    exact hinner.kept List.mem_cons_self

end Walk

/-- Only aliases that there are come into the order. -/
theorem mem_aliasOrder (h : a ∈ aliasOrder all) : a ∈ all := by
  -- nothing is finished before the first visit
  have hext := Walk.foldl_extends (fun w _ hb => Walk.visit_extends (all.length + 1) w hb)
    (List.Subset.refl all) {}
  exact (hext.known a h).resolve_left List.not_mem_nil

/-- **Every alias comes into the order**, by its name. -/
theorem name_mem_aliasOrder (ha : a ∈ all) : a.name ∈ (aliasOrder all).map Alias.name := by
  have hv (w : Walk) (b : Alias) (hb : b ∈ all) := Walk.visit_extends (all.length + 1) w hb
  -- the first visit of an alias meets it, and later visits keep what was met
  have hmet (part : List Alias) (hs : part ⊆ all) (w : Walk) (ha : a ∈ part) :
      a.name ∈ (part.foldl (Walk.visit all (all.length + 1)) w).met := by
    induction part generalizing w with
    | nil => exact absurd ha List.not_mem_nil
    | cons b part ih =>
      have hpart := (List.cons_subset.1 hs).2
      rcases List.mem_cons.1 ha with rfl | ha
      · have hrest := Walk.foldl_extends hv hpart (Walk.visit all (all.length + 1) w a)
        exact hrest.kept (Walk.met_visit all.length w a)
      · exact ih hpart _ ha
  have hext := Walk.foldl_extends hv (List.Subset.refl all) {}
  exact (hext.met _ (hmet all (List.Subset.refl all) {} ha)).resolve_left List.not_mem_nil

/-! ## The file -/

namespace ModelsFile

/-- The names that the file declares. -/
def declared (file : ModelsFile) : List String :=
  file.classes.map ModelClass.name ++ file.aliases.map Alias.name

/-- The annotations that the file writes: those of attributes, and the values of aliases. -/
def annotations (file : ModelsFile) : List TypeExpr :=
  file.classes.flatMap (fun c => c.attributes.map Attribute.annotation) ++
    file.aliases.map fun a => .ofSchema a.schema

variable {declarations : List Declaration} {t : TypeExpr}

/-- The classes are those of the declared objects. -/
theorem names_classes (declarations : List Declaration) :
    (declarations.filterMap classOf?).map ModelClass.name =
      (declarations.filter Declaration.isObject).map Declaration.name := by
  induction declarations with
  | nil => rfl
  | cons d more ih =>
    cases hs : d.shape <;> simp [classOf?, Declaration.isObject, ModelClass.ofFields, hs, ih]

/-- The aliases are those of the other declarations. -/
theorem names_aliases (declarations : List Declaration) :
    (declarations.filterMap aliasOf?).map Alias.name =
      (declarations.filter fun d => !d.isObject).map Declaration.name := by
  induction declarations with
  | nil => rfl
  | cons d more ih => cases hs : d.shape <;> simp [aliasOf?, Declaration.isObject, hs, ih]

/-- **The file declares the names of all declarations.** -/
theorem mem_declared {d : Declaration} (hd : d ∈ declarations) :
    d.name ∈ (ofDeclarations declarations).declared := by
  refine List.mem_append.2 ?_
  -- a class stands in its place; an alias stands where the order puts it
  rcases hs : d.shape with fields | schema
  · left
    refine List.mem_map.2 ⟨.ofFields d.name d.description fields, ?_, rfl⟩
    exact List.mem_filterMap.2 ⟨d, hd, by simp [classOf?, hs]⟩
  · right
    have ha : ⟨d.name, d.description, schema⟩ ∈ declarations.filterMap aliasOf? :=
      List.mem_filterMap.2 ⟨d, hd, by simp [aliasOf?, hs]⟩
    exact name_mem_aliasOrder ha

theorem annotationOf_eq (field : Field) : Attribute.annotationOf field = .ofSchema field.schema ∨
    Attribute.annotationOf field = .optional field.schema := by
  unfold Attribute.annotationOf
  split
  · exact .inl rfl
  · exact .inr rfl
  · exact .inr rfl
  · exact .inl rfl

/-- Every annotation is that of a schema of a declaration, or of an optional value of it. -/
theorem exists_of_mem_annotations (h : t ∈ (ofDeclarations declarations).annotations) :
    ∃ d ∈ declarations, ∃ s ∈ d.schemas, t = .ofSchema s ∨ t = .optional s := by
  rcases List.mem_append.1 h with h | h
  · obtain ⟨c, hc, ht⟩ := List.mem_flatMap.1 h
    obtain ⟨d, hd, hclass⟩ := List.mem_filterMap.1 hc
    obtain ⟨a, ha, rfl⟩ := List.mem_map.1 ht
    unfold classOf? at hclass
    split at hclass
    · rename_i fields hs
      obtain rfl := Option.some.inj hclass
      obtain ⟨field, hfield, name, -, rfl⟩ := exists_of_mem_zipWith ha
      refine ⟨d, hd, field.schema, ?_, annotationOf_eq field⟩
      simpa [Declaration.schemas, hs] using List.mem_map_of_mem hfield
    · cases hclass
  · obtain ⟨a, ha, rfl⟩ := List.mem_map.1 h
    obtain ⟨d, hd, halias⟩ := List.mem_filterMap.1 (mem_aliasOrder ha)
    unfold aliasOf? at halias
    split at halias
    · cases halias
    · rename_i schema hs
      obtain rfl := Option.some.inj halias
      exact ⟨d, hd, schema, by simp [Declaration.schemas, hs], .inl rfl⟩

end ModelsFile

end ApiCodegen.Server
