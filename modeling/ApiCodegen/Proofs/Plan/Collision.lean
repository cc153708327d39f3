import ApiCodegen.Proofs.FirstSeen
import ApiCodegen.Proofs.Plan.Declaration

/-!
# Which components collide

* `FirstCollision`: the first component with a declared name that an earlier one has.
* `Document.declarations_ok_iff`: **there are declarations if no two components have one name.**
* `Document.declarations_error_iff`: **else the first collision is the failure.**
-/

namespace ApiCodegen

variable {earlier components : List Component} {k : Collision} {doc : Document}

/-- The declared names of components, in order. -/
def declaredNames (components : List Component) : List String :=
  components.map fun c => Name.declaration c.name

/-- **The first collision** behind some components: one with a declared name that occurred before,
while all before it were different. It is reported with the component that took the name. -/
def FirstCollision (earlier components : List Component) (k : Collision) : Prop :=
  ∃ before c after d, components = before ++ c :: after ∧ (declaredNames (earlier ++ before)).Nodup ∧
    d ∈ earlier ++ before ∧ Name.declaration d.name = Name.declaration c.name ∧
    k = ⟨Name.declaration c.name, d.name, c.name⟩

theorem nodup_declaredNames_nil : (declaredNames []).Nodup := List.nodup_nil

/-- A component has another declared name than those before it, if all are different. -/
theorem free_of_nodup {c : Component} {more : List Component}
    (h : (declaredNames (earlier ++ c :: more)).Nodup) :
    ∀ d ∈ earlier, Name.declaration d.name ≠ Name.declaration c.name := by
  rw [List.append_cons, declaredNames, List.map_append] at h
  exact (nodup_map_concat_iff.1 h.of_append_left).2

/-! ## One step: a component is put behind the earlier ones, or collides with one of them -/

theorem collision?_cons_of_free {c : Component} {more : List Component}
    (hfree : ∀ d ∈ earlier, Name.declaration d.name ≠ Name.declaration c.name) :
    collision? earlier (c :: more) = collision? (earlier ++ [c]) more := by
  have hnone : earlier.find? (fun d => Name.declaration d.name = Name.declaration c.name) = none := by
    simpa using hfree
  rw [collision?, hnone]

theorem collision?_cons_of_taken {c d : Component} {more : List Component}
    (h : (declaredNames earlier).Nodup) (hd : d ∈ earlier)
    (hname : Name.declaration d.name = Name.declaration c.name) :
    collision? earlier (c :: more) = some ⟨Name.declaration c.name, d.name, c.name⟩ := by
  unfold collision?
  cases hfind : earlier.find? fun d => Name.declaration d.name = Name.declaration c.name with
  | none => exact absurd (decide_eq_true hname) (List.find?_eq_none.1 hfind d hd)
  | some other =>
    have hother : Name.declaration other.name = Name.declaration c.name := by
      simpa using List.find?_some hfind
    -- no two of the earlier ones have the name
    rw [List.inj_on_of_nodup_map h (List.mem_of_find?_eq_some hfind) hd (hother.trans hname.symm)]

theorem firstCollision_cons_of_free {c : Component} {more : List Component}
    (hfree : ∀ d ∈ earlier, Name.declaration d.name ≠ Name.declaration c.name) :
    FirstCollision earlier (c :: more) k ↔ FirstCollision (earlier ++ [c]) more k := by
  constructor
  · rintro ⟨before, c', after, d, hsplit, hnodup, hd, hname, rfl⟩
    cases before with
    | nil =>
      obtain ⟨rfl, rfl⟩ := List.cons.inj hsplit
      rw [List.append_nil] at hd
      exact absurd hname (hfree d hd)
    | cons first before =>
      obtain ⟨rfl, rfl⟩ := List.cons.inj hsplit
      rw [List.append_cons] at hnodup hd
      exact ⟨before, c', after, d, rfl, hnodup, hd, hname, rfl⟩
  · rintro ⟨before, c', after, d, rfl, hnodup, hd, hname, rfl⟩
    rw [← List.append_cons] at hnodup hd
    exact ⟨c :: before, c', after, d, rfl, hnodup, hd, hname, rfl⟩

theorem firstCollision_cons_of_taken {c d : Component} {more : List Component}
    (h : (declaredNames earlier).Nodup) (hd : d ∈ earlier)
    (hname : Name.declaration d.name = Name.declaration c.name) :
    FirstCollision earlier (c :: more) k ↔ k = ⟨Name.declaration c.name, d.name, c.name⟩ := by
  constructor
  · rintro ⟨before, c', after, other, hsplit, hnodup, hother, hsame, rfl⟩
    cases before with
    | nil =>
      obtain ⟨rfl, rfl⟩ := List.cons.inj hsplit
      rw [List.append_nil] at hother
      rw [List.inj_on_of_nodup_map h hother hd (hsame.trans hname.symm)]
    | cons first before =>
      obtain ⟨rfl, rfl⟩ := List.cons.inj hsplit
      exact absurd hname (free_of_nodup hnodup d hd)
  · rintro rfl
    exact ⟨[], c, more, d, rfl, by rwa [List.append_nil], by rwa [List.append_nil], hname, rfl⟩

/-! ## All components -/

theorem collision?_eq_some_iff (h : (declaredNames earlier).Nodup) :
    collision? earlier components = some k ↔ FirstCollision earlier components k := by
  induction components generalizing earlier with
  | nil =>
    constructor
    · intro h
      cases h
    · rintro ⟨before, c, after, d, hsplit, -⟩
      exact absurd hsplit.symm (List.append_ne_nil_of_right_ne_nil _ (List.cons_ne_nil _ _))
  | cons c more ih =>
    by_cases htaken : ∃ d ∈ earlier, Name.declaration d.name = Name.declaration c.name
    · obtain ⟨d, hd, hname⟩ := htaken
      rw [collision?_cons_of_taken h hd hname, firstCollision_cons_of_taken h hd hname,
        Option.some.injEq, eq_comm]
    · push Not at htaken
      rw [collision?_cons_of_free htaken, firstCollision_cons_of_free htaken]
      exact ih (nodup_map_concat_iff.2 ⟨h, htaken⟩)

theorem collision?_eq_none_iff (h : (declaredNames earlier).Nodup) :
    collision? earlier components = none ↔ (declaredNames (earlier ++ components)).Nodup := by
  induction components generalizing earlier with
  | nil => simpa [collision?] using h
  | cons c more ih =>
    by_cases htaken : ∃ d ∈ earlier, Name.declaration d.name = Name.declaration c.name
    · obtain ⟨d, hd, hname⟩ := htaken
      rw [collision?_cons_of_taken h hd hname]
      exact iff_of_false (Option.some_ne_none _) fun hnodup => free_of_nodup hnodup d hd hname
    · push Not at htaken
      rw [collision?_cons_of_free htaken, List.append_cons earlier c more]
      exact ih (nodup_map_concat_iff.2 ⟨h, htaken⟩)

theorem collision?_nil_eq_none_iff :
    collision? [] components = none ↔ (declaredNames components).Nodup :=
  collision?_eq_none_iff nodup_declaredNames_nil

theorem collision?_nil_eq_some_iff :
    collision? [] components = some k ↔ FirstCollision [] components k :=
  collision?_eq_some_iff nodup_declaredNames_nil

/-- There is a first collision if two components have one declared name. -/
theorem exists_firstCollision_iff :
    (∃ k, FirstCollision [] components k) ↔ ¬ (declaredNames components).Nodup := by
  rw [← collision?_nil_eq_none_iff, ← ne_eq, Option.ne_none_iff_exists']
  exact exists_congr fun k => collision?_nil_eq_some_iff.symm

namespace Document

/-- **There are declarations if no two components have one declared name.** -/
theorem declarations_ok_iff {declarations : List Declaration} :
    doc.declarations = .ok declarations ↔ (declaredNames doc.components).Nodup ∧
      declarations = doc.components.map Declaration.ofComponent := by
  rw [← collision?_nil_eq_none_iff, Document.declarations]
  cases collision? [] doc.components with
  | none => simp [eq_comm]
  | some k => simp

/-- The declared names are distinct. -/
theorem nodup_names_declarations {declarations : List Declaration}
    (h : doc.declarations = .ok declarations) : (declarations.map Declaration.name).Nodup := by
  obtain ⟨hnodup, rfl⟩ := declarations_ok_iff.1 h
  rw [List.map_map]
  exact hnodup

/-- **Else the first collision is the failure.** -/
theorem declarations_error_iff {failure : Failure} : doc.declarations = .error failure ↔
    ∃ k, FirstCollision [] doc.components k ∧ failure = k.failure := by
  simp only [← collision?_nil_eq_some_iff, Document.declarations]
  cases collision? [] doc.components with
  | none => simp
  | some k => simp [eq_comm]

end Document

end ApiCodegen
