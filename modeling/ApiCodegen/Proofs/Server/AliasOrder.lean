import ApiCodegen.Proofs.Server.Models

/-!
# The order of aliases

The value of an alias is evaluated where it stands, so what it names has to be defined before it.

* `Alias.RefersTo`, `Alias.LeadsTo`: an alias refers to another, at once or by way of others.
* `Walk.Settled`: what holds of a walk while some aliases are being visited: whatever was met is finished
  or being visited, and a finished alias stands behind what it refers to, unless that leads back to it.
* `Walk.Settled.visit`: **a visit preserves this and meets its alias.**
* `aliasOrder_perm`, `before_aliasOrder`: **the order of definition has every alias once, and behind
  each alias it refers to that does not lead back to it.**
* `exists_not_before_aliasOrder`: an alias that leads back to it comes too late in some order of
  declaration.
-/

namespace ApiCodegen.Server

variable {all active order : List Alias} {a b c d : Alias} {w : Walk} {fuel : ℕ}

/-! ## References between aliases -/

namespace Alias

/-- An alias refers to one of all aliases, at any depth of its schema. -/
def RefersTo (all : List Alias) (a b : Alias) : Prop :=
  b ∈ all ∧ b.name ∈ a.schema.references.map Name.declaration

/-- It does so at once, or by way of others. -/
def LeadsTo (all : List Alias) (a b : Alias) : Prop := Relation.TransGen (RefersTo all) a b

/-- An alias stands before another one. -/
def Before (order : List Alias) (b a : Alias) : Prop :=
  ∃ front back, order = front ++ a :: back ∧ b ∈ front

/-- The name of an alias determines it. -/
theorem eq_of_name (hn : (all.map name).Nodup) (ha : a ∈ all) (hb : b ∈ all) (h : a.name = b.name) :
    a = b :=
  List.inj_on_of_nodup_map hn ha hb h

theorem mem_dependencies_iff (hn : (all.map name).Nodup) :
    b ∈ a.dependencies all ↔ a.RefersTo all b := by
  simp only [dependencies, List.mem_filterMap, RefersTo, List.mem_map]
  constructor
  · rintro ⟨r, hr, hfind⟩
    have hname : b.name = Name.declaration r := by simpa using List.find?_some hfind
    exact ⟨List.mem_of_find?_eq_some hfind, r, hr, hname.symm⟩
  · rintro ⟨hb, r, hr, hname⟩
    refine ⟨r, hr, ?_⟩
    cases hfind : all.find? fun b => b.name = Name.declaration r with
    | none => exact absurd (decide_eq_true hname.symm) (List.find?_eq_none.1 hfind b hb)
    | some c =>
      -- the search stops at the first alias of the name, and there is no other
      have hc : c.name = Name.declaration r := by simpa using List.find?_some hfind
      rw [eq_of_name hn (List.mem_of_find?_eq_some hfind) hb (hc.trans hname)]

/-- Which alias leads to which does not depend on their order. -/
theorem LeadsTo.perm {other : List Alias} (hp : other.Perm all) (h : a.LeadsTo all b) :
    a.LeadsTo other b :=
  Relation.TransGen.mono (fun _ _ hr => ⟨hp.mem_iff.2 hr.1, hr.2⟩) _ _ h

/-- A list that has what its members refer to has what they lead to. -/
theorem LeadsTo.mem {part : List Alias} (hclosed : ∀ c ∈ part, ∀ d, c.RefersTo all d → d ∈ part)
    (ha : a ∈ part) (h : a.LeadsTo all b) : b ∈ part := by
  induction h with
  | single hr => exact hclosed a ha _ hr
  | tail _ hr ih => exact hclosed _ ih _ hr

/-- So do names, if all aliases of these names refer to aliases of these names only. -/
theorem LeadsTo.name_mem {names : List String} (hclosed : ∀ c ∈ all, c.name ∈ names →
      ∀ d ∈ all, d.name ∈ c.schema.references.map Name.declaration → d.name ∈ names)
    (ha : a ∈ all) (hname : a.name ∈ names) (h : a.LeadsTo all b) : b.name ∈ names := by
  have hpart : b ∈ all.filter fun c => c.name ∈ names := by
    refine h.mem (fun c hc d hr => ?_) (List.mem_filter.2 ⟨ha, decide_eq_true hname⟩)
    obtain ⟨hc, hnamed⟩ := List.mem_filter.1 hc
    exact List.mem_filter.2
      ⟨hr.1, decide_eq_true (hclosed c hc (of_decide_eq_true hnamed) d hr.1 hr.2)⟩
  exact of_decide_eq_true (List.mem_filter.1 hpart).2

/-- Of two aliases that occur once, only one stands before the other. -/
theorem Before.asymm (hn : order.Nodup) (h : a.Before order b) : ¬ b.Before order a := by
  rintro ⟨front, back, hsplit, hb⟩
  obtain ⟨front', back', rfl, ha⟩ := h
  obtain ⟨u, v, rfl⟩ := List.append_of_mem hb
  rw [List.append_assoc, List.cons_append] at hsplit
  have hapart := (List.nodup_append.1 hn).2.2
  rw [List.nodup_middle, List.nodup_cons, List.mem_append, not_or] at hn
  -- the list is split at `b` in one way only
  obtain ⟨-, -, rfl⟩ := (List.append_cons_inj_of_notMem hn.1.1 hn.1.2).1 hsplit
  exact hapart a ha a (by simp) rfl

end Alias

/-! ## One visit -/

namespace Walk

/-- **What holds of a walk** while some aliases are being visited. -/
structure Settled (all active : List Alias) (w : Walk) : Prop where
  /-- What was met is finished or being visited. -/
  met : w.met.Perm ((w.finished ++ active).map Alias.name)
  nodup : w.met.Nodup
  known : w.finished ++ active ⊆ all
  closed : ∀ c ∈ w.finished, ∀ d, c.RefersTo all d → d ∈ w.finished ++ active
  behind : ∀ front c back, w.finished = front ++ c :: back →
    ∀ d, c.RefersTo all d → d ∈ front ∨ d.LeadsTo all c

namespace Settled

theorem start (all : List Alias) : Settled all [] {} where
  met := .refl _
  nodup := List.nodup_nil
  known := List.nil_subset _
  closed := fun _ hc => absurd hc List.not_mem_nil
  behind := fun _ _ _ hsplit => absurd hsplit.symm (List.append_ne_nil_of_right_ne_nil _ (List.cons_ne_nil _ _))

/-- A name that was met is that of an alias which is finished or being visited. -/
theorem mem_of_name (hn : (all.map Alias.name).Nodup) (hw : w.Settled all active) (ha : a ∈ all)
    (h : a.name ∈ w.met) : a ∈ w.finished ++ active := by
  obtain ⟨b, hb, hname⟩ := List.mem_map.1 (hw.met.mem_iff.1 h)
  rwa [← Alias.eq_of_name hn (hw.known hb) ha hname]

/-- As many names as there are aliases are all names. -/
theorem name_mem_of_length (hw : w.Settled all active) (hlength : all.length ≤ w.met.length)
    (ha : a ∈ all) : a.name ∈ w.met := by
  have hsub : w.met ⊆ all.map Alias.name := fun name hname =>
    List.map_subset _ hw.known (hw.met.mem_iff.1 hname)
  have hperm : w.met.Perm (all.map Alias.name) :=
    (hw.nodup.subperm hsub).perm_of_length_le (by rwa [List.length_map])
  exact hperm.mem_iff.2 (List.mem_map_of_mem ha)

/-- An alias that was not met is being visited from now on. -/
theorem enter (hw : w.Settled all active) (ha : a ∈ all) (hnew : a.name ∉ w.met) :
    Settled all (a :: active) ⟨a.name :: w.met, w.finished⟩ where
  met := by
    rw [List.map_append, List.map_cons]
    refine (hw.met.cons a.name).trans ?_
    rw [List.map_append]
    exact List.perm_middle.symm
  nodup := List.nodup_cons.2 ⟨hnew, hw.nodup⟩
  known := by
    obtain ⟨hfinished, hactive⟩ := List.append_subset.1 hw.known
    exact List.append_subset.2 ⟨hfinished, List.cons_subset.2 ⟨ha, hactive⟩⟩
  closed := by
    intro c hc d hr
    rcases List.mem_append.1 (hw.closed c hc d hr) with hd | hd
    · exact List.mem_append_left _ hd
    · exact List.mem_append_right _ (List.mem_cons_of_mem a hd)
  behind := hw.behind

/-- An alias is finished when all that it refers to was met. -/
theorem leave (hn : (all.map Alias.name).Nodup) (hw : w.Settled all (a :: active))
    (hactive : ∀ o ∈ active, o.LeadsTo all a) (hmet : ∀ d, a.RefersTo all d → d.name ∈ w.met) :
    Settled all active ⟨w.met, w.finished ++ [a]⟩ := by
  have hsame : w.finished ++ [a] ++ active = w.finished ++ a :: active := List.append_cons ..  |>.symm
  have hdeps (d : Alias) (hr : a.RefersTo all d) : d ∈ w.finished ++ a :: active :=
    hw.mem_of_name hn hr.1 (hmet d hr)
  refine ⟨hsame ▸ hw.met, hw.nodup, hsame ▸ hw.known, ?_, ?_⟩
  · intro c hc d hr
    change d ∈ w.finished ++ [a] ++ active
    rw [hsame]
    rcases List.mem_append.1 hc with hc | hc
    · exact hw.closed c hc d hr
    · rw [List.mem_singleton.1 hc] at hr
      exact hdeps d hr
  · intro front c back hsplit d hr
    rcases List.eq_nil_or_concat back with rfl | ⟨back, e, rfl⟩
    · -- the alias itself: what is being visited leads to it
      obtain ⟨rfl, hlast⟩ := List.append_inj' hsplit rfl
      obtain rfl : a = c := by simpa using hlast
      rcases List.mem_append.1 (hdeps d hr) with hd | hd
      · exact .inl hd
      · rcases List.mem_cons.1 hd with rfl | hd
        · exact .inr (.single hr)
        · exact .inr (hactive d hd)
    · rw [List.concat_eq_append, ← List.cons_append, ← List.append_assoc] at hsplit
      exact hw.behind front c back (List.append_inj' hsplit rfl).1 d hr

/-- Visits one after the other, if each settles the walk and meets its alias. -/
theorem foldl (hvisit : ∀ w, ∀ a ∈ all, (∀ o ∈ active, o.LeadsTo all a) → w.Settled all active →
      all.length ≤ w.met.length + fuel →
        (visit all fuel w a).Settled all active ∧ a.name ∈ (visit all fuel w a).met)
    {part : List Alias} (hpart : ∀ d ∈ part, d ∈ all ∧ ∀ o ∈ active, o.LeadsTo all d)
    (hw : w.Settled all active) (hfuel : all.length ≤ w.met.length + fuel) :
    (part.foldl (visit all fuel) w).Settled all active ∧
      ∀ d ∈ part, d.name ∈ (part.foldl (visit all fuel) w).met := by
  induction part generalizing w with
  | nil => exact ⟨hw, fun d hd => absurd hd List.not_mem_nil⟩
  | cons b part ih =>
    obtain ⟨⟨hb, hopen⟩, hpart⟩ := List.forall_mem_cons.1 hpart
    obtain ⟨hnext, hmet⟩ := hvisit w b hb hopen hw hfuel
    -- names that were met stay met, so the fuel lasts
    have hlonger : w.met.length ≤ (visit all fuel w b).met.length :=
      hw.nodup.length_le_of_subset (visit_extends fuel w hb).kept
    obtain ⟨hend, hrest⟩ := ih hpart hnext (by omega)
    have hkept := (foldl_extends (fun w b hb => visit_extends fuel w hb)
      (fun d hd => (hpart d hd).1) (visit all fuel w b)).kept
    exact ⟨hend, List.forall_mem_cons.2 ⟨hkept hmet, hrest⟩⟩

/-- **A visit settles the walk and meets its alias**, if what is being visited leads to it. -/
theorem visit (hn : (all.map Alias.name).Nodup) (hw : w.Settled all active) (ha : a ∈ all)
    (hactive : ∀ o ∈ active, o.LeadsTo all a) (hfuel : all.length ≤ w.met.length + fuel) :
    (Walk.visit all fuel w a).Settled all active ∧ a.name ∈ (Walk.visit all fuel w a).met := by
  induction fuel generalizing w a active with
  | zero => exact ⟨hw, hw.name_mem_of_length hfuel ha⟩
  | succ fuel ih =>
    rw [Walk.visit]
    split
    · exact ⟨hw, ‹_›⟩
    · rename_i hnew
      have hdeps : ∀ d ∈ a.dependencies all, d ∈ all ∧ ∀ o ∈ a :: active, o.LeadsTo all d := by
        intro d hd
        have hr := (Alias.mem_dependencies_iff hn).1 hd
        refine ⟨hr.1, fun o ho => ?_⟩
        rcases List.mem_cons.1 ho with rfl | ho
        · exact .single hr
        · exact (hactive o ho).tail hr
      have hlength : all.length ≤ (a.name :: w.met).length + fuel := by
        rw [List.length_cons]
        omega
      obtain ⟨hinner, hmet⟩ := foldl (fun w b hb hopen hs hf => ih hs hb hopen hf) hdeps
        (hw.enter ha hnew) hlength
      refine ⟨hinner.leave hn hactive fun d hr => ?_, ?_⟩
      · exact hmet d ((Alias.mem_dependencies_iff hn).2 hr)
      · exact hinner.met.mem_iff.2 (List.mem_map_of_mem (List.mem_append_right _ List.mem_cons_self))

end Settled

/-- Visits put what they finish behind what was finished before, if each does. -/
theorem finished_prefix_foldl {visit : Walk → Alias → Walk}
    (hvisit : ∀ w a, w.finished <+: (visit w a).finished) (part : List Alias) (w : Walk) :
    w.finished <+: (part.foldl visit w).finished := by
  induction part generalizing w with
  | nil => exact List.prefix_rfl
  | cons b part ih => exact (hvisit w b).trans (ih _)

theorem finished_prefix_visit (all : List Alias) (fuel : ℕ) (w : Walk) (a : Alias) :
    w.finished <+: (visit all fuel w a).finished := by
  induction fuel generalizing w a with
  | zero => exact List.prefix_rfl
  | succ fuel ih =>
    rw [visit]
    split
    · exact List.prefix_rfl
    · exact (finished_prefix_foldl ih _ ⟨a.name :: w.met, w.finished⟩).trans (List.prefix_append _ _)

end Walk

/-! ## The order of all aliases -/

/-- All aliases are met, and nothing is being visited any more. -/
theorem settled_aliasOrder (hn : (all.map Alias.name).Nodup) :
    (all.foldl (Walk.visit all (all.length + 1)) {}).Settled all [] ∧
      ∀ a ∈ all, a.name ∈ (all.foldl (Walk.visit all (all.length + 1)) {}).met :=
  Walk.Settled.foldl (fun _ _ ha hactive hw hfuel => hw.visit hn ha hactive hfuel)
    (fun _ ha => ⟨ha, fun _ ho => absurd ho List.not_mem_nil⟩) (.start all)
    (by simp only [List.length_nil]; omega)

/-- **The order has every alias once.** -/
theorem aliasOrder_perm (hn : (all.map Alias.name).Nodup) : (aliasOrder all).Perm all := by
  obtain ⟨hw, hmet⟩ := settled_aliasOrder hn
  have hnames := hw.met.nodup_iff.1 hw.nodup
  rw [List.append_nil] at hnames
  refine (List.perm_ext_iff_of_nodup hnames.of_map hn.of_map).2 fun a => ⟨mem_aliasOrder, fun ha => ?_⟩
  simpa using hw.mem_of_name hn ha (hmet a ha)

/-- **An alias stands behind what it refers to**, if that does not lead back to it. -/
theorem before_aliasOrder (hn : (all.map Alias.name).Nodup) (ha : a ∈ all) (h : a.RefersTo all b)
    (hback : ¬ b.LeadsTo all a) : b.Before (aliasOrder all) a := by
  obtain ⟨front, back, hsplit⟩ := List.append_of_mem ((aliasOrder_perm hn).mem_iff.2 ha)
  have hfront := (settled_aliasOrder hn).1.behind front a back hsplit b h
  exact ⟨front, back, hsplit, hfront.resolve_right hback⟩

/-- The first alias stands behind all that it leads to. -/
theorem not_before_head {rest : List Alias} (hn : ((b :: rest).map Alias.name).Nodup)
    (h : b.LeadsTo (b :: rest) a) : ¬ b.Before (aliasOrder (b :: rest)) a := by
  have horder : (aliasOrder (b :: rest)).Nodup := (aliasOrder_perm hn).nodup_iff.2 hn.of_map
  have hfuel : (b :: rest).length ≤ ({} : Walk).met.length + ((b :: rest).length + 1) := by
    simp only [List.length_nil]
    omega
  obtain ⟨hfirst, -⟩ := (Walk.Settled.start (b :: rest)).visit hn List.mem_cons_self
    (fun _ ho => absurd ho List.not_mem_nil) hfuel
  -- the visit of the first alias ends with it, and has finished all that it leads to
  obtain ⟨early, hearly⟩ : ∃ early,
      (Walk.visit (b :: rest) ((b :: rest).length + 1) {} b).finished = early ++ [b] := by
    rw [Walk.visit, if_neg List.not_mem_nil]
    exact ⟨_, rfl⟩
  have hclosed := hfirst.closed
  rw [List.append_nil, hearly] at hclosed
  have ha : a ∈ early ++ [b] := h.mem hclosed (List.mem_append_right _ List.mem_cons_self)
  obtain ⟨late, hlate⟩ := Walk.finished_prefix_foldl (Walk.finished_prefix_visit (b :: rest) _) rest
    (Walk.visit (b :: rest) ((b :: rest).length + 1) {} b)
  rw [hearly, List.append_assoc, List.singleton_append] at hlate
  rcases List.mem_append.1 ha with ha | ha
  · exact Alias.Before.asymm horder ⟨early, late, hlate.symm, ha⟩
  · rw [List.mem_singleton.1 ha]
    exact fun hself => hself.asymm horder hself

/-- **An alias that leads back comes too late in some order of declaration.** -/
theorem exists_not_before_aliasOrder (hn : (all.map Alias.name).Nodup) (hb : b ∈ all)
    (h : b.LeadsTo all a) : ∃ other : List Alias, other.Perm all ∧ ¬ b.Before (aliasOrder other) a := by
  obtain ⟨front, back, rfl⟩ := List.append_of_mem hb
  have hperm : (b :: (front ++ back)).Perm (front ++ b :: back) := List.perm_middle.symm
  exact ⟨_, hperm, not_before_head ((hperm.map Alias.name).nodup_iff.2 hn) (h.perm hperm)⟩

end ApiCodegen.Server
