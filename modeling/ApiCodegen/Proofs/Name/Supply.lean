import ApiCodegen.Proofs.Name.Fresh

/-!
# Names that are given one after the other

A name that is asked for is given if it is free. Otherwise its numbers are tried from one on, until a numbered
name is free. What is given is taken from then on. The search has no bound of its own: it ends because
numbered names differ, so that not all of them can be taken. Numbers are natural numbers here. A counter of 32
bits does not run over either: no number is greater than the count of the taken names (`LeastNumber.le_card`),
and fewer than 2 ^ 31 names are taken.

* `Tries`, `Gives`: **the search for a free name**, one number after the other.
* `Supplies`: calls that share the names that are taken.
* `tries_iff`: a search ends at the least number that makes the name free.
* `gives_iff`: **a call ends, and gives the fresh name.**
* `LeastNumber.le_card`: there are no more rounds than taken names.
* `supplies_iff`: what calls give, and the names that are taken behind them.
* `supplies_unique`: **unique names**, for every set of taken names and all calls.
-/

namespace ApiCodegen.Name

variable {seen after : Finset String} {taken names results : List String} {name result : String} {n : ℕ}

/-- Numbered names are tried from a number on, until one is free. -/
inductive Tries (seen : Finset String) (name : String) : ℕ → String → Prop
  | free {n : ℕ} : numbered name n ∉ seen → Tries seen name n (numbered name n)
  | next {n : ℕ} {result : String} : numbered name n ∈ seen → Tries seen name (n + 1) result →
      Tries seen name n result

/-- **A call**: a free name is given as it is, and the numbers of a taken one are tried from one on. -/
inductive Gives (seen : Finset String) (name : String) : String → Prop
  | kept : name ∉ seen → Gives seen name name
  | numbered {result : String} : name ∈ seen → Tries seen name 1 result → Gives seen name result

/-- Calls one after the other, with what they are asked for and what they give. Each adds its result to the taken
names, and nothing else. -/
inductive Supplies : Finset String → List String → List String → Finset String → Prop
  | nil {seen : Finset String} : Supplies seen [] [] seen
  | cons {seen after : Finset String} {name result : String} {names results : List String} :
      Gives seen name result → Supplies (insert result seen) names results after →
      Supplies seen (name :: names) (result :: results) after

/-- The least number, from one on, that makes a name free. -/
structure LeastNumber (seen : Finset String) (name : String) (n : ℕ) : Prop where
  pos : 1 ≤ n
  free : numbered name n ∉ seen
  least : ∀ m, 1 ≤ m → m < n → numbered name m ∈ seen

/-! ## One call -/

/-- **A search ends at the first number that makes the name free.** -/
theorem tries_iff : Tries seen name n result ↔
    ∃ k, n ≤ k ∧ result = numbered name k ∧ numbered name k ∉ seen ∧
      ∀ m, n ≤ m → m < k → numbered name m ∈ seen := by
  constructor
  · intro h
    induction h with
    | free hfree => exact ⟨_, le_rfl, rfl, hfree, fun m h1 h2 => by omega⟩
    | next htaken _ ih =>
      obtain ⟨k, hle, hresult, hfree, hless⟩ := ih
      refine ⟨k, by omega, hresult, hfree, fun m h1 h2 => ?_⟩
      rcases Nat.eq_or_lt_of_le h1 with rfl | h1
      · exact htaken
      · exact hless m h1 h2
  · rintro ⟨k, hle, rfl, hfree, hless⟩
    -- the rounds up to the free number, counted back from it
    induction hd : k - n generalizing n with
    | zero =>
      obtain rfl : n = k := by omega
      exact .free hfree
    | succ d ih =>
      have htaken := hless n le_rfl (by omega)
      have hmore := ih (n := n + 1) (by omega) (fun m h1 h2 => hless m (by omega) h2) (by omega)
      exact .next htaken hmore

/-- A taken name is given its least number. -/
theorem gives_of_mem (h : name ∈ seen) :
    Gives seen name result ↔ ∃ n, result = numbered name n ∧ LeastNumber seen name n := by
  constructor
  · intro hgives
    cases hgives with
    | kept hfree => exact absurd h hfree
    | numbered _ htries =>
      obtain ⟨n, hpos, hresult, hfree, hless⟩ := tries_iff.1 htries
      exact ⟨n, hresult, hpos, hfree, hless⟩
  · rintro ⟨n, hresult, hn⟩
    exact .numbered h (tries_iff.2 ⟨n, hn.pos, hresult, hn.free, hn.least⟩)

theorem gives_of_not_mem (h : name ∉ seen) : Gives seen name result ↔ result = name := by
  constructor
  · intro hgives
    cases hgives with
    | kept => rfl
    | numbered htaken => exact absurd htaken h
  · rintro rfl
    exact .kept h

/-- No two numbers are the least. -/
theorem LeastNumber.unique {m : ℕ} (hm : LeastNumber seen name m) (hn : LeastNumber seen name n) : m = n := by
  have hle : ¬ m < n := fun hlt => hm.free (hn.least m hm.pos hlt)
  have hge : ¬ n < m := fun hlt => hn.free (hm.least n hn.pos hlt)
  omega

/-- **There are no more rounds than taken names**: the name itself is taken, and so is every number before the
free one. -/
theorem LeastNumber.le_card (h : name ∈ seen) (hn : LeastNumber seen name n) : n ≤ seen.card := by
  have hsub : insert name ((Finset.Ico 1 n).image (numbered name)) ⊆ seen := by
    intro x hx
    rcases Finset.mem_insert.1 hx with rfl | hx
    · exact h
    · obtain ⟨m, hm, rfl⟩ := Finset.mem_image.1 hx
      obtain ⟨h1, h2⟩ := Finset.mem_Ico.1 hm
      exact hn.least m h1 h2
  have hnew : name ∉ (Finset.Ico 1 n).image (numbered name) := by
    intro hmem
    obtain ⟨m, -, hm⟩ := Finset.mem_image.1 hmem
    exact numbered_ne name m hm
  have hcard := Finset.card_le_card hsub
  rw [Finset.card_insert_of_notMem hnew, Finset.card_image_of_injective _ (numbered_injective name),
    Nat.card_Ico] at hcard
  omega

/-- The fresh name for a taken one has its least number. -/
theorem leastNumber_fresh (h : name ∈ taken) :
    ∃ n, fresh taken name = numbered name n ∧ LeastNumber taken.toFinset name n := by
  obtain ⟨n, hn, hfree, hless⟩ := fresh_eq_numbered h
  refine ⟨n + 1, hn, by omega, by simpa using hfree, fun m h1 h2 => ?_⟩
  obtain ⟨m, rfl⟩ : ∃ k, m = k + 1 := ⟨m - 1, by omega⟩
  simpa using hless m (by omega)

/-- **A call ends, and gives the fresh name.** -/
theorem gives_iff : Gives taken.toFinset name result ↔ result = fresh taken name := by
  by_cases h : name ∈ taken
  · obtain ⟨n, hn, hleast⟩ := leastNumber_fresh h
    rw [gives_of_mem (List.mem_toFinset.2 h), hn]
    constructor
    · rintro ⟨m, rfl, hm⟩
      rw [hm.unique hleast]
    · rintro rfl
      exact ⟨n, rfl, hleast⟩
  · rw [gives_of_not_mem (mt List.mem_toFinset.1 h), fresh_of_not_mem h]

/-! ## All calls -/

/-- **Calls give the assigned names**, and these are taken behind them, beside what was taken before. -/
theorem supplies_iff : Supplies taken.toFinset names results after ↔
    results = assign taken names ∧ after = taken.toFinset ∪ results.toFinset := by
  induction names generalizing taken results with
  | nil =>
    constructor
    · intro h
      cases h
      simp [assign]
    · rintro ⟨rfl, rfl⟩
      have hafter : taken.toFinset ∪ (assign taken []).toFinset = taken.toFinset := by simp [assign]
      rw [hafter]
      exact .nil
  | cons name names ih =>
    have hinsert : insert (fresh taken name) taken.toFinset = (fresh taken name :: taken).toFinset :=
      List.toFinset_cons.symm
    have hunion (more : List String) : (fresh taken name :: taken).toFinset ∪ more.toFinset =
        taken.toFinset ∪ (fresh taken name :: more).toFinset := by
      rw [List.toFinset_cons, List.toFinset_cons, Finset.insert_union, Finset.union_insert]
    constructor
    · intro h
      cases h with
      | cons hgives hmore =>
        obtain rfl := gives_iff.1 hgives
        rw [hinsert] at hmore
        obtain ⟨rfl, rfl⟩ := ih.1 hmore
        exact ⟨rfl, hunion _⟩
    · rintro ⟨rfl, rfl⟩
      refine .cons (gives_iff.2 rfl) ?_
      rw [hinsert]
      exact ih.2 ⟨rfl, (hunion _).symm⟩

/-- **Unique names**, for every finite set of taken names.

* A call ends, and the fresh name is what it gives.
* The fresh name is free. It is the name itself if that is free, and otherwise the name with the least number,
  from one on, that makes it free; this is no more than the number of taken names.
* Calls one after the other give the assigned names, and take these and nothing else.
* The assigned names are distinct, and none of them was taken. -/
theorem supplies_unique (taken : List String) :
    (∀ name result, Gives taken.toFinset name result ↔ result = fresh taken name) ∧
    (∀ name, fresh taken name ∉ taken ∧ (name ∉ taken → fresh taken name = name) ∧
      (name ∈ taken → ∃ n ≤ taken.toFinset.card, fresh taken name = numbered name n ∧
        LeastNumber taken.toFinset name n)) ∧
    (∀ names results after, Supplies taken.toFinset names results after ↔
      results = assign taken names ∧ after = taken.toFinset ∪ results.toFinset) ∧
    ∀ names, (assign taken names).Nodup ∧ ∀ result ∈ assign taken names, result ∉ taken := by
  refine ⟨fun name result => gives_iff, fun name => ⟨fresh_not_mem taken name, fresh_of_not_mem, fun h => ?_⟩,
    fun names results after => supplies_iff,
    fun names => ⟨nodup_assign taken names, fun result h => not_mem_of_mem_assign h⟩⟩
  obtain ⟨n, hn, hleast⟩ := leastNumber_fresh h
  exact ⟨n, hleast.le_card (List.mem_toFinset.2 h), hn, hleast⟩

/-- A name whose first number is taken gets the second; the calls behind it see that. -/
theorem supplies_unique_echo :
    let taken := ["echo", "echo_1"]
    "echo" ∈ taken ∧ Gives taken.toFinset "echo" "echo_2" ∧
      (∃ n ≤ taken.toFinset.card, "echo_2" = numbered "echo" n ∧ LeastNumber taken.toFinset "echo" n) ∧
      Supplies taken.toFinset ["echo", "echo", "ping"] ["echo_2", "echo_3", "ping"]
        (taken.toFinset ∪ ["echo_2", "echo_3", "ping"].toFinset) := by
  intro taken
  have hmem : "echo" ∈ taken := by decide
  have hfresh : "echo_2" = fresh taken "echo" := by decide +kernel
  obtain ⟨hgives, hspec, hcalls, -⟩ := supplies_unique taken
  refine ⟨hmem, (hgives _ _).2 hfresh, ?_, (hcalls _ _ _).2 ⟨by decide +kernel, rfl⟩⟩
  rw [hfresh]
  exact (hspec "echo").2.2 hmem

end ApiCodegen.Name
