/-!
# Fresh names

A name that is taken gets the first number that makes it free: `echo`, `echo_1`, `echo_2`.

* `fresh`: the name itself if it is free, else `name_N` for the least free `N ≥ 1`.
* `assign`: fresh names for a list of names, one after the other.
-/

namespace ApiCodegen.Name

/-- A name with a number. The numbers have no bound; that of a fresh name is not greater than the count of
the taken names. -/
def numbered (name : String) (n : Nat) : String := name ++ "_" ++ toString n

/-- The numbered names that are tried in place of a taken one, as many as there are taken names. -/
def candidates (taken : List String) (name : String) : List String :=
  (List.range taken.length).map fun n => numbered name (n + 1)

/-- The name itself if it is not taken, else the first numbered one that is not. Among as many
candidates as there are taken names, one more than can be taken beside the name itself, one
is free. -/
def fresh (taken : List String) (name : String) : String :=
  if name ∈ taken then
    ((candidates taken name).find? (· ∉ taken)).getD (numbered name (taken.length + 1))
  else name

/-- Fresh names for a list of names: each result is taken for those that follow. -/
def assign (taken : List String) : List String → List String
  | [] => []
  | name :: more => fresh taken name :: assign (fresh taken name :: taken) more

theorem fresh_of_not_mem {taken : List String} {name : String} (h : name ∉ taken) :
    fresh taken name = name := by
  simp [fresh, h]

theorem length_assign (taken names : List String) :
    (assign taken names).length = names.length := by
  induction names generalizing taken with
  | nil => rfl
  | cons name more ih => simp [assign, ih]

end ApiCodegen.Name
