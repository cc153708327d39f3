import ApiCodegen.Proofs.Server.AliasOrder

/-!
# The search behind the order of aliases

The search that gives the order of definition has a bound on its depth. Without the bound it may call
itself forever on the face of it, as aliases may refer to each other in a circle.

* `Search`: the search without a bound, as what it does to a walk.
* `Search.eq`: **it does one thing at most.**
* `search_foldl`: **it ends, with what the bounded search does**: a call of itself meets an alias that was
  not met, so the calls that are open are never more than the aliases.
* `aliasOrder_sorts`: **the search ends for every list of aliases, and sorts it.**
-/

namespace ApiCodegen.Server

variable {all active aliases more : List Alias} {a : Alias} {w w' : Walk} {fuel : ℕ}

/-- **A search through aliases**, one after the other. What was met is passed over. Otherwise the aliases are
searched that the alias refers to, and then it is finished. -/
inductive Search (all : List Alias) : Walk → List Alias → Walk → Prop where
  | done {w : Walk} : Search all w [] w
  | pass {a : Alias} {more : List Alias} {w w' : Walk} (hmet : a.name ∈ w.met)
      (hmore : Search all w more w') : Search all w (a :: more) w'
  | enter {a : Alias} {more : List Alias} {w inner w' : Walk} (hnew : a.name ∉ w.met)
      (hinner : Search all ⟨a.name :: w.met, w.finished⟩ (a.dependencies all) inner)
      (hmore : Search all ⟨inner.met, inner.finished ++ [a]⟩ more w') : Search all w (a :: more) w'

namespace Search

/-- **A search ends in one way.** -/
theorem eq {v v' : Walk} (h : Search all w aliases v) (h' : Search all w aliases v') : v' = v := by
  induction h generalizing v' with
  | done =>
    cases h'
    rfl
  | pass hmet _ ih =>
    cases h' with
    | pass _ hmore => exact ih hmore
    | enter hnew => exact absurd hmet hnew
  | enter hnew _ _ ihinner ihmore =>
    cases h' with
    | pass hmet => exact absurd hmet hnew
    | enter _ hinner hmore =>
      obtain rfl := ihinner hinner
      exact ihmore hmore

end Search

/-- **The bounded search does what the search does**, if the bound and the names that were met are as many
as the aliases. -/
theorem search_foldl (hn : (all.map Alias.name).Nodup) (hw : w.Settled all active)
    (haliases : ∀ d ∈ aliases, d ∈ all ∧ ∀ o ∈ active, o.LeadsTo all d)
    (hfuel : all.length ≤ w.met.length + fuel) :
    Search all w aliases (aliases.foldl (Walk.visit all fuel) w) := by
  induction fuel generalizing w active aliases with
  | zero =>
    -- all names were met
    induction aliases with
    | nil => exact .done
    | cons a more ih =>
      obtain ⟨⟨ha, -⟩, hmore⟩ := List.forall_mem_cons.1 haliases
      exact .pass (hw.name_mem_of_length hfuel ha) (ih hmore)
  | succ fuel ihfuel =>
    induction aliases generalizing w with
    | nil => exact .done
    | cons a more ih =>
      obtain ⟨⟨ha, hopen⟩, hmore⟩ := List.forall_mem_cons.1 haliases
      obtain ⟨hnext, -⟩ := hw.visit hn ha hopen hfuel
      have hlonger : w.met.length ≤ (Walk.visit all (fuel + 1) w a).met.length :=
        hw.nodup.length_le_of_subset (Walk.visit_extends (fuel + 1) w ha).kept
      have hrest := ih hnext hmore (by omega)
      rw [List.foldl_cons]
      by_cases hmet : a.name ∈ w.met
      · rw [Walk.visit, if_pos hmet] at hrest ⊢
        exact .pass hmet hrest
      · rw [Walk.visit, if_neg hmet] at hrest ⊢
        -- what the alias refers to is searched with a smaller bound, and one more name was met
        refine .enter hmet (ihfuel (hw.enter ha hmet) (fun d hd => ?_) ?_) hrest
        · have hr := (Alias.mem_dependencies_iff hn).1 hd
          refine ⟨hr.1, fun o ho => ?_⟩
          rcases List.mem_cons.1 ho with rfl | ho
          · exact .single hr
          · exact (hopen o ho).tail hr
        · rw [List.length_cons]
          omega

/-- **The order of definition**, for all aliases with distinct names.

* The search for it ends, in one way.
* It has every alias, once.
* An alias stands behind each alias that it refers to, if that does not lead back to it. -/
theorem aliasOrder_sorts (hn : (all.map Alias.name).Nodup) :
    (∃ w, w.finished = aliasOrder all ∧ ∀ w', Search all {} all w' ↔ w' = w) ∧
    (aliasOrder all).Perm all ∧
    ∀ a ∈ all, ∀ b, a.RefersTo all b → ¬ b.LeadsTo all a → b.Before (aliasOrder all) a := by
  have hsearch : Search all {} all (all.foldl (Walk.visit all (all.length + 1)) {}) := by
    refine search_foldl hn (.start all) (fun a ha => ⟨ha, fun o ho => ?_⟩) ?_
    · exact absurd ho List.not_mem_nil
    · simp only [List.length_nil]
      omega
  refine ⟨⟨_, rfl, fun w' => ⟨fun h => hsearch.eq h, ?_⟩⟩, aliasOrder_perm hn, ?_⟩
  · rintro rfl
    exact hsearch
  · intro a ha b hr hback
    exact before_aliasOrder hn ha hr hback

/-! ## Woods -/

/-- A tree is a list of trees. -/
def tree : Alias := ⟨"Tree", none, .array (.reference "Tree")⟩

/-- A hedge is a list of rows. -/
def hedge : Alias := ⟨"Hedge", none, .array (.reference "Row")⟩

/-- A row is a list of hedges. -/
def row : Alias := ⟨"Row", none, .array (.reference "Hedge")⟩

/-- A wood is a list of trees and hedges. -/
def wood : Alias :=
  ⟨"Wood", none, .array (.object [⟨"tree", .reference "Tree", none, none, {}⟩,
    ⟨"hedge", .nullable (.reference "Hedge"), none, none, {}⟩] [])⟩

/-- The search ends although trees lead to themselves, and hedges and rows to each other. Woods are defined
behind trees and hedges. -/
theorem aliasOrder_sorts_woods : ([wood, hedge, row, tree].map Alias.name).Nodup ∧
    (∃ w, Search [wood, hedge, row, tree] {} [wood, hedge, row, tree] w) ∧
    tree.LeadsTo [wood, hedge, row, tree] tree ∧ hedge.LeadsTo [wood, hedge, row, tree] hedge ∧
    tree.Before (aliasOrder [wood, hedge, row, tree]) wood ∧
    hedge.Before (aliasOrder [wood, hedge, row, tree]) wood := by
  have hn : ([wood, hedge, row, tree].map Alias.name).Nodup := by decide +kernel
  obtain ⟨⟨w, -, hends⟩, -, hbehind⟩ := aliasOrder_sorts hn
  have htree : tree.RefersTo [wood, hedge, row, tree] tree := ⟨by simp, by decide +kernel⟩
  have hhedge : hedge.RefersTo [wood, hedge, row, tree] row := ⟨by simp, by decide +kernel⟩
  have hrow : row.RefersTo [wood, hedge, row, tree] hedge := ⟨by simp, by decide +kernel⟩
  -- no tree and no hedge leads to a wood
  have hback (a : Alias) (ha : a ∈ [wood, hedge, row, tree]) (hname : a.name ∈ ["Tree", "Hedge", "Row"]) :
      ¬ a.LeadsTo [wood, hedge, row, tree] wood := fun h =>
    absurd (h.name_mem (by decide +kernel) ha hname) (by decide)
  refine ⟨hn, ⟨w, (hends w).2 rfl⟩, .single htree, .tail (.single hhedge) hrow, ?_, ?_⟩
  · exact hbehind wood (by simp) tree ⟨by simp, by decide +kernel⟩ (hback tree (by simp) (by decide))
  · exact hbehind wood (by simp) hedge ⟨by simp, by decide +kernel⟩ (hback hedge (by simp) (by decide))

end ApiCodegen.Server
