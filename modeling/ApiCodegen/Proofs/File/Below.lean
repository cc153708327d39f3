import ApiCodegen.Proofs.File.Destination

/-!
# Paths below a directory

What is below a directory is reached by the names on the way. With the directory's path in front, in whatever
spelling, these names make a path that leads there.

* `Path.le_of_le_of_le`, `Path.le_or_le`, `Path.lt_of_le`: paths are linearly ordered by their components.
* `Tree.Regular`: what holds of the trees of a file system.
* `Path.components_below`: the components of a path below another one.
* `Tree.find_below`: **the path leads to what is there.**
-/

namespace ApiCodegen.File

open ApiCodegen.File.Tree

/-! ## The order of paths -/

namespace Component

variable {a b : Component}

theorem lt_iff : a < b ↔ toLex (a.rank, a.text) < toLex (b.rank, b.text) := by
  rw [Prod.Lex.toLex_lt_toLex]
  rfl

/-- A component is given by its kind and its name. -/
theorem eq_of_rank_of_text (hrank : a.rank = b.rank) (htext : a.text = b.text) : a = b := by
  cases a <;> cases b <;> simp_all [rank, text]

instance : Std.Asymm (α := Component) (· < ·) := ⟨fun _ _ hab hba => lt_asymm (lt_iff.1 hab) (lt_iff.1 hba)⟩

instance : Trans (α := Component) (· < ·) (· < ·) (· < ·) :=
  ⟨fun hab hbc => lt_iff.2 (lt_trans (lt_iff.1 hab) (lt_iff.1 hbc))⟩

instance : Std.Trichotomous (α := Component) (· < ·) := by
  refine ⟨fun a b hab hba => ?_⟩
  have hkey := le_antisymm (not_lt.1 fun h => hba (lt_iff.2 h)) (not_lt.1 fun h => hab (lt_iff.2 h))
  obtain ⟨hrank, htext⟩ := Prod.mk.inj (toLex.injective hkey)
  exact eq_of_rank_of_text hrank htext

end Component

namespace Path

variable {a b : String}

theorem le_iff : le a b ↔ components a ≤ components b := decide_eq_true_iff

/-- **Of two paths one comes first**, if they are different. -/
theorem lt_of_le (h : le a b) (hne : components a ≠ components b) : components a < components b := by
  by_contra hnot
  exact hne (List.le_antisymm (le_iff.1 h) (List.not_lt.1 hnot))

theorem le_of_le_of_le (a b c : String) (hab : le a b) (hbc : le b c) : le a c := by
  by_cases ha : components a = components b
  · rwa [le_iff, ha, ← le_iff]
  by_cases hc : components b = components c
  · rwa [le_iff, ← hc, ← le_iff]
  · have hlt := List.lt_trans (lt_of_le hab ha) (lt_of_le hbc hc)
    exact le_iff.2 (List.not_lt.1 fun hback => List.lt_irrefl _ (List.lt_trans hlt hback))

theorem le_or_le (a b : String) : (le a b || le b a) = true := by
  rw [Bool.or_eq_true, le_iff, le_iff]
  exact List.le_total _ _

/-! ## Names -/

/-- The path of what is below a path, by the names on the way. -/
def below (path : String) (names : List String) : String := names.foldl join path

@[simp] theorem below_nil (path : String) : below path [] = path := rfl

@[simp] theorem below_cons (path name : String) (names : List String) :
    below path (name :: names) = below (join path name) names := rfl

end Path

/-- A name that something in a directory can have. -/
structure IsName (name : String) : Prop where
  ne_empty : name ≠ ""
  ne_here : name ≠ "."
  ne_up : name ≠ ".."
  noSlash : '/' ∉ name.toList
  short : name.utf8ByteSize ≤ longestName

instance (name : String) : Decidable (IsName name) :=
  decidable_of_iff (name ≠ "" ∧ name ≠ "." ∧ name ≠ ".." ∧ '/' ∉ name.toList ∧ name.utf8ByteSize ≤ longestName)
    ⟨fun ⟨h₁, h₂, h₃, h₄, h₅⟩ => ⟨h₁, h₂, h₃, h₄, h₅⟩, fun ⟨h₁, h₂, h₃, h₄, h₅⟩ => ⟨h₁, h₂, h₃, h₄, h₅⟩⟩

/-- A text without a slash is one segment. -/
theorem Path.segments_of_not_mem {cs : List Char} (h : '/' ∉ cs) : segments cs = [cs] := by
  induction cs with
  | nil => rfl
  | cons c cs ih =>
    rw [List.mem_cons, not_or] at h
    rw [segments, ih h.2]
    exact Ne.symm h.1

namespace IsName

variable {name path : String}

theorem segments_eq (h : IsName name) : Path.segments name.toList = [name.toList] :=
  Path.segments_of_not_mem h.noSlash

theorem steps_eq (h : IsName name) : Path.steps name = [.name name] := by
  have hcomponent : Path.component? name.toList = some (.name name) := by
    unfold Path.component?
    split
    · rename_i hchars
      exact absurd (String.toList_eq_nil_iff.1 hchars) h.ne_empty
    · rename_i hchars
      exact absurd (String.toList_inj.1 hchars) h.ne_here
    · rename_i hchars
      exact absurd (String.toList_inj.1 hchars) h.ne_up
    · rw [String.ofList_toList]
  rw [Path.steps, h.segments_eq, List.filterMap_cons_some hcomponent, List.filterMap_nil]

/-- **A name adds itself** to the components of the path that it is put behind. -/
theorem components_join (h : IsName name) (hpath : path ≠ "") :
    Path.components (Path.join path name) = Path.components path ++ [.name name] := by
  have hstart : Path.start name.toList ≠ [.root] := fun hroot =>
    h.noSlash (List.mem_of_mem_head? (Path.start_eq_root_iff.1 hroot))
  rw [Path.components_join hstart hpath, h.steps_eq]

theorem join_ne_empty (h : IsName name) (hpath : path ≠ "") : Path.join path name ≠ "" := by
  intro hempty
  have hcomponents : Path.components "" = _ := hempty ▸ h.components_join hpath
  have hnone : Path.components "" = [] := rfl
  simp [hnone] at hcomponents

/-- A path that ends in a name can be that of a file. -/
theorem isDirectoryOnly_join (h : IsName name) (path : String) :
    Path.isDirectoryOnly (Path.join path name) = false := by
  have hlast : (Path.segments (Path.join path name).toList).getLast? = some name.toList := by
    unfold Path.join
    split
    · rw [h.segments_eq]
      rfl
    · split
      · rename_i hslash
        obtain ⟨front, hfront⟩ := List.getLast?_eq_some_iff.1 hslash
        rw [String.toList_append, hfront, List.append_assoc, List.singleton_append, Path.segments_append,
          h.segments_eq, List.getLast?_concat]
      · have hchars : (path ++ "/" ++ name).toList = path.toList ++ '/' :: name.toList := by simp
        rw [hchars, Path.segments_append, h.segments_eq, List.getLast?_concat]
  unfold Path.isDirectoryOnly
  rw [hlast]
  split
  · rename_i hchars
    exact absurd (String.toList_eq_nil_iff.1 (Option.some.inj hchars)) h.ne_empty
  · rename_i hchars
    exact absurd (String.toList_inj.1 (Option.some.inj hchars)) h.ne_here
  · rfl

end IsName

/-- **The components of a path below another one**: those of the other, and the names. -/
theorem Path.components_below {path : String} {names : List String} (hpath : path ≠ "")
    (hnames : ∀ name ∈ names, IsName name) :
    components (below path names) = components path ++ names.map Component.name := by
  induction names generalizing path with
  | nil => simp
  | cons name names ih =>
    rw [List.forall_mem_cons] at hnames
    rw [below_cons, ih (hnames.1.join_ne_empty hpath) hnames.2, hnames.1.components_join hpath, List.append_assoc]
    rfl

/-! ## Trees of a file system -/

namespace Tree

variable {t : Tree} {dir loc : Location} {path name : String} {e : Entry}

/-- **A tree as file systems have them**: everything stands in a directory, once, and under a name. -/
structure Regular (t : Tree) : Prop where
  wellFormed : t.WellFormed
  distinct : (t.entries.map Prod.fst).Nodup
  named : ∀ x ∈ t.entries, ∀ name ∈ x.1, IsName name

instance (t : Tree) : Decidable t.Regular :=
  decidable_of_iff (t.WellFormed ∧ (t.entries.map Prod.fst).Nodup ∧ ∀ x ∈ t.entries, ∀ name ∈ x.1, IsName name)
    ⟨fun ⟨h₁, h₂, h₃⟩ => ⟨h₁, h₂, h₃⟩, fun ⟨h₁, h₂, h₃⟩ => ⟨h₁, h₂, h₃⟩⟩

/-- What is there is in the entries. -/
theorem exists_mem_entries (hne : loc ≠ []) (h : t.entry? loc ≠ none) : ∃ x ∈ t.entries, x.1 = loc := by
  rw [entry?_eq_lookup hne, ← Option.isSome_iff_ne_none] at h
  obtain ⟨x, hx, heq⟩ := List.lookup_isSome_iff.1 h
  exact ⟨x, hx, (eq_of_beq heq).symm⟩

theorem Regular.isName (ht : t.Regular) (h : t.entry? loc ≠ none) : ∀ name ∈ loc, IsName name := by
  rcases eq_or_ne loc [] with rfl | hne
  · exact fun name hname => absurd hname List.not_mem_nil
  · obtain ⟨x, hx, rfl⟩ := exists_mem_entries hne h
    exact ht.named x hx

theorem Regular.isName_below (ht : t.Regular) {names : List String} (he : t.entry? (dir ++ names) = some e) :
    ∀ name ∈ names, IsName name :=
  fun name hname => ht.isName (he ▸ Option.some_ne_none e) name (List.mem_append_right _ hname)

/-- What something is in is a directory, however far above it. -/
theorem WellFormed.above (ht : t.WellFormed) {names : List String} (hne : names ≠ []) :
    t.entry? (loc ++ names) ≠ none → t.entry? loc = some .directory := by
  induction names using List.reverseRecOn with
  | nil => exact absurd rfl hne
  | append_singleton names name ih =>
    intro h
    have hparent := ht.parent h
    rw [← List.append_assoc, List.dropLast_concat] at hparent
    rcases eq_or_ne names [] with rfl | hne
    · rwa [List.append_nil] at hparent
    · exact ih hne (by simp [hparent])

theorem ne_empty_of_find (h : t.find path = .ok (dir, e)) : path ≠ "" := by
  rintro rfl
  cases h

/-- What a path leads to is what its components lead to. -/
theorem findAt_of_find (h : t.find path = .ok (loc, e)) : t.findAt (Path.components path) = .ok (loc, e) := by
  obtain ⟨⟨l, found⟩, hfound, hmore⟩ := bind_ok h
  rw [hfound]
  dsimp only at hmore
  split at hmore
  · exact hmore
  · split at hmore
    · cases hmore
    · exact hmore

/-- A path that leads to something denotes its location. -/
theorem target_of_find (h : t.find path = .ok (loc, e)) : t.target path = loc :=
  resolve_of_locate (findAt_ok (findAt_of_find h)).1

/-- **A name in a directory** leads from its path to what is there. -/
theorem find_join (hdir : t.find path = .ok (dir, .directory)) (hname : IsName name)
    (he : t.entry? (dir ++ [name]) = some e) : t.find (Path.join path name) = .ok (dir ++ [name], e) := by
  obtain ⟨hlocate, hentry⟩ := findAt_ok (findAt_of_find hdir)
  have hcomponents := hname.components_join (ne_empty_of_find hdir)
  have hwalk : t.walk t.workDir (Path.components path) = .ok dir := by
    cases hpath : Path.components path with
    | nil =>
      rw [hpath] at hlocate
      cases hlocate
    | cons c more => rwa [hpath] at hlocate
  have hstep : t.walk dir [.name name] = .ok (dir ++ [name]) := by
    simp [walk, hentry, Nat.not_lt.2 hname.short]
  have hjoined : t.locate (Path.components (Path.join path name)) = .ok (dir ++ [name]) := by
    have hall := walk_append (t := t) t.workDir (Path.components path) [.name name]
    rw [hwalk, ← hcomponents] at hall
    cases hpath : Path.components (Path.join path name) with
    | nil => simp [hcomponents] at hpath
    | cons c more =>
      rw [hpath] at hall
      exact hall.trans hstep
  rw [find, findAt_of hjoined he]
  cases e with
  | directory => rfl
  | file bytes => simp [hname.isDirectoryOnly_join path]

/-- **A path below a directory leads to what is there.** -/
theorem find_below (ht : t.Regular) {names : List String} (hdir : t.find path = .ok (dir, .directory))
    (he : t.entry? (dir ++ names) = some e) : t.find (Path.below path names) = .ok (dir ++ names, e) := by
  induction names generalizing path dir with
  | nil =>
    have hentry := (findAt_ok (findAt_of_find hdir)).2
    rw [List.append_nil] at he ⊢
    rw [Path.below_nil, hdir, Option.some.inj (hentry.symm.trans he)]
  | cons name names ih =>
    have hname : IsName name := ht.isName_below he name List.mem_cons_self
    rw [List.append_cons] at he ⊢
    rcases eq_or_ne names [] with rfl | hne
    · rw [List.append_nil] at he ⊢
      exact find_join hdir hname he
    · have hthere : t.entry? (dir ++ [name] ++ names) ≠ none := he ▸ Option.some_ne_none e
      exact ih (find_join hdir hname (ht.wellFormed.above hne hthere)) he

theorem directory?_eq_some_iff : t.directory? path = some dir ↔ t.find path = .ok (dir, .directory) := by
  unfold directory?
  split
  · rename_i loc hfind
    rw [hfind]
    simp
  · rename_i hnot
    exact iff_of_false nofun fun h => hnot dir h

end Tree

end ApiCodegen.File
