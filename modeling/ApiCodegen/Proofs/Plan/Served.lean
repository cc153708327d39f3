import ApiCodegen.Settings.Read
import ApiCodegen.Proofs.Plan.Partition

/-!
# Operations that are served in one place

A router serves nothing at its own prefix: an operation with nothing left on its router is served at
the prefix with a slash behind it. And where first-seen prefixes are kept, an operation that asks for
another prefix is moved to that of its group. Each can bring two operations to one place.

* `Topology.stays_or_moves`: **where an operation is served**, if the prefix it asks for is found.
* `Topology.mount_ne_append_slash`: no router has a prefix that ends with a slash.
* `Topology.Collides`: the ways of two operations to one place.
* `Topology.Collides.served_eq`: they lead there.
* `Topology.not_displaced_of_reject`: **where conflicts are refused, no operation is moved.**
* `Topology.served_eq_iff`: **two operations of one verb are served in one place in these ways
  only.**
-/

namespace ApiCodegen

variable {apiPrefix : String} {doc : Document} {topology : Topology} {op a b : Operation}

/-- A path on a router, where a slash stands for nothing. -/
def slashed (rest : String) : String := if rest = "" then "/" else rest

theorem toList_slashed (rest : String) : (slashed rest).toList = Topology.orSlash rest.toList := by
  unfold slashed
  split
  · rename_i h
    rw [h]
    rfl
  · rename_i h
    exact (Topology.orSlash_of_ne_nil (mt String.toList_eq_nil_iff.1 h)).symm

theorem slashed_ne_empty (rest : String) : slashed rest ≠ "" := by
  unfold slashed
  split
  · decide
  · assumption

/-- Two paths that are one on a router are one, or nothing and a slash. -/
theorem slashed_inj {rest other : String} : slashed rest = slashed other ↔
    rest = other ∨ rest = "" ∧ other = "/" ∨ other = "" ∧ rest = "/" := by
  unfold slashed
  by_cases hrest : rest = ""
  · by_cases hother : other = ""
    · simp [hrest, hother]
    · simp only [hrest, hother, if_true, if_false, true_and, false_and, or_false, Ne.symm hother,
        false_or, eq_comm]
  · by_cases hother : other = ""
    · simp [hrest, hother]
    · simp [hrest, hother]

namespace Topology

/-- The prefix of the group of an operation. -/
def keptBase? (topology : Topology) (op : Operation) : Option String :=
  match topology.placement op.key with
  | .group tag => (topology.groupOfTag? tag).map Group.base
  | _ => none

/-- The prefix of the router that an operation is registered on. -/
def mount (topology : Topology) (op : Operation) : String :=
  match topology.placement op.key with
  | .legacy => ""
  | .aggregate => topology.apiPrefix
  | .group _ => topology.apiPrefix ++ (topology.keptBase? op).getD ""

/-- Where an operation is served: at its path on its router, behind the prefix of the router. -/
def served (topology : Topology) (op : Operation) : String :=
  topology.mount op ++ topology.relativePath op

/-- An operation is moved if its group keeps a prefix that the operation does not ask for. -/
def Displaced (topology : Topology) (op : Operation) : Prop :=
  ∃ base, topology.keptBase? op = some base ∧ base ≠ "" ∧
    derivedBase? topology.apiPrefix op.path ≠ some base

/-- The prefix that an operation asks for is not found if an empty segment stands in front of it. -/
def Skewed (topology : Topology) (op : Operation) : Prop :=
  ∃ base, topology.keptBase? op = some base ∧ base ≠ "" ∧
    derivedBase? topology.apiPrefix op.path = some base ∧
    ∃ more, op.path = topology.apiPrefix ++ "//" ++ more

/-- The path of an operation, with a slash behind it if it is the prefix of its router. -/
def shown (topology : Topology) (op : Operation) : String :=
  if op.path = topology.mount op then op.path ++ "/" else op.path

/-- The ways of two operations to one place. -/
inductive Collides (topology : Topology) (a b : Operation) : Prop
  /-- One path is the prefix of its router, and the other is this prefix with a slash. -/
  | slash (ha : ¬ topology.Displaced a) (hb : ¬ topology.Displaced b)
      (hbare : a.path = topology.mount a) (hslash : b.path = topology.mount a ++ "/")
  /-- The same for the API prefix, where both operations are moved to one prefix. -/
  | moved (ha : topology.Displaced a) (hb : topology.Displaced b)
      (hmount : topology.mount a = topology.mount b)
      (hbare : a.path = topology.apiPrefix) (hslash : b.path = topology.apiPrefix ++ "/")
  /-- One operation is moved onto another, which stays where it is. -/
  | overtaken (rest : String) (ha : topology.Displaced a) (hb : ¬ topology.Displaced b)
      (hunder : IsUnder topology.apiPrefix b.path) (hpath : a.path = topology.apiPrefix ++ rest)
      (hshown : topology.shown b = topology.mount a ++ slashed rest)

/-! ## Where an operation is served -/

/-- An operation that stays goes on behind the prefix of its router as its path does. -/
structure Stays (topology : Topology) (op : Operation) (rest : String) : Prop where
  kept : ¬ topology.Displaced op
  path : op.path = topology.mount op ++ rest
  served : topology.served op = topology.mount op ++ slashed rest

/-- Of an operation that is moved, all that stands behind the API prefix goes on behind the prefix
of its router. -/
structure Moves (topology : Topology) (op : Operation) (rest : String) : Prop where
  displaced : topology.Displaced op
  path : op.path = topology.apiPrefix ++ rest
  segment : atSegment rest.toList
  served : topology.served op = topology.mount op ++ slashed rest

theorem relativePath_eq_slashed {rest : List Char}
    (h : (topology.relativePath op).toList = orSlash rest) :
    topology.relativePath op = slashed (String.ofList rest) := by
  rw [← String.toList_inj, toList_slashed, String.toList_ofList]
  exact h

theorem keptBase?_of_group {tag : String} {g : Group} (h : topology.placement op.key = .group tag)
    (hg : topology.groupOfTag? tag = some g) : topology.keptBase? op = some g.base := by
  rw [keptBase?, h]
  simp only [hg, Option.map_some]

/-- The prefix of a group is a first segment. -/
theorem base_eq_firstSegment {g : Group} (hg : g ∈ (ofDocument apiPrefix doc).groups) :
    ∃ cs, g.base.toList = firstSegment cs := by
  obtain ⟨t, ht, rfl⟩ := List.mem_map.1 hg
  obtain ⟨-, first, -, hderived⟩ := (base_of_mem_tagBases ht).resolve_left List.not_mem_nil
  obtain ⟨rest, -, -, hbase⟩ := derivedBase?_eq_some.1 hderived
  exact ⟨rest, hbase⟩

theorem keptBase?_eq_firstSegment {base : String}
    (h : (ofDocument apiPrefix doc).keptBase? op = some base) :
    ∃ cs, base.toList = firstSegment cs := by
  unfold keptBase? at h
  split at h
  · obtain ⟨g, hg, rfl⟩ := Option.map_eq_some_iff.1 h
    exact base_eq_firstSegment (of_groupOfTag? hg).1
  · cases h

theorem mount_of_keptBase? {base : String} (h : topology.keptBase? op = some base) :
    topology.mount op = topology.apiPrefix ++ base := by
  have hkept := h
  unfold keptBase? at h
  split at h
  · rename_i tag hplace
    rw [mount, hplace]
    simp only [hkept, Option.getD_some]
  · cases h

theorem not_displaced_of_keptBase? (h : topology.keptBase? op = none) : ¬ topology.Displaced op := by
  rintro ⟨base, hbase, -⟩
  rw [h] at hbase
  cases hbase

theorem stays_of_legacy (h : topology.placement op.key = .legacy) :
    topology.Stays op op.path := by
  have hkept : topology.keptBase? op = none := by rw [keptBase?, h]
  have hmount : topology.mount op = "" := by rw [mount, h]
  have hrel := relativePath_eq_slashed (relativePath_legacy h)
  rw [String.ofList_toList] at hrel
  refine ⟨not_displaced_of_keptBase? hkept, ?_, ?_⟩
  · rw [hmount, String.empty_append]
  · rw [Topology.served, hrel]

theorem stays_of_aggregate (hof : topology = ofDocument apiPrefix doc)
    (h : topology.placement op.key = .aggregate) : ∃ rest, topology.Stays op rest := by
  subst hof
  have hversioned : (ofDocument apiPrefix doc).placement op.key ≠ .legacy := by simp [h]
  obtain ⟨rest, hpath, hs⟩ := path_of_placement hversioned
  have hapi : (ofDocument apiPrefix doc).apiPrefix = apiPrefix := rfl
  have hkept : (ofDocument apiPrefix doc).keptBase? op = none := by rw [keptBase?, h]
  have hmount : (ofDocument apiPrefix doc).mount op = apiPrefix := by rw [mount, h, hapi]
  have hrel := relativePath_aggregate h
  rw [hapi, hpath, stripSegments_append _ hs] at hrel
  refine ⟨String.ofList rest, not_displaced_of_keptBase? hkept, ?_, ?_⟩
  · rw [← String.toList_inj, hmount, String.toList_append, String.toList_ofList]
    exact hpath
  · rw [Topology.served, relativePath_eq_slashed hrel]

/-- The path of an operation of a group behind the API prefix, and what its router has of it. -/
structure OnGroup (topology : Topology) (op : Operation) (base : String) (rest : List Char) :
    Prop where
  kept : topology.keptBase? op = some base
  path : op.path.toList = topology.apiPrefix.toList ++ rest
  segment : atSegment rest
  served : topology.served op =
    topology.mount op ++ slashed (String.ofList (stripSegments base.toList rest))

theorem exists_onGroup {tag : String} (hof : topology = ofDocument apiPrefix doc)
    (h : topology.placement op.key = .group tag) :
    ∃ base rest cs, topology.OnGroup op base rest ∧ base.toList = firstSegment cs := by
  subst hof
  have hversioned : (ofDocument apiPrefix doc).placement op.key ≠ .legacy := by simp [h]
  obtain ⟨rest, hpath, hs⟩ := path_of_placement hversioned
  obtain ⟨g, hg⟩ := exists_groupOfTag h
  have hapi : (ofDocument apiPrefix doc).apiPrefix = apiPrefix := rfl
  have hkept := keptBase?_of_group h hg
  obtain ⟨cs, hbase⟩ := keptBase?_eq_firstSegment hkept
  have hrel := relativePath_group h hg
  rw [hapi, hpath, stripSegments_append _ hs] at hrel
  refine ⟨g.base, rest, cs, ⟨hkept, hpath, hs, ?_⟩, hbase⟩
  rw [Topology.served, relativePath_eq_slashed hrel]

variable {base : String} {rest : List Char}

theorem OnGroup.derivedBase?_eq (h : topology.OnGroup op base rest) :
    derivedBase? topology.apiPrefix op.path = some (String.ofList (firstSegment rest)) :=
  derivedBase?_eq_some.2 ⟨rest, h.path, h.segment, String.toList_ofList⟩

/-- An operation is not moved from the prefix that it asks for, nor to an empty one. -/
theorem OnGroup.not_displaced (h : topology.OnGroup op base rest)
    (hstays : base = "" ∨ derivedBase? topology.apiPrefix op.path = some base) :
    ¬ topology.Displaced op := by
  rintro ⟨kept, hkept, hne, hother⟩
  obtain rfl : base = kept := Option.some.inj (h.kept.symm.trans hkept)
  rcases hstays with hnone | hown
  · exact hne hnone
  · exact hother hown

/-- The prefix that an operation asks for is taken off its path. -/
theorem OnGroup.stays_of_own (h : topology.OnGroup op base rest)
    (hown : derivedBase? topology.apiPrefix op.path = some base) (hskewed : ¬ topology.Skewed op) :
    topology.Stays op (String.ofList (stripSegments base.toList rest)) := by
  have hfirst : base.toList = firstSegment rest := by
    rw [h.derivedBase?_eq] at hown
    rw [← Option.some.inj hown, String.toList_ofList]
  -- an empty segment in front of the prefix has been left out
  have hone : firstSegment rest = [] ∨ ¬ ['/', '/'] <+: rest := by
    by_contra hnot
    rw [not_or, not_not] at hnot
    refine hskewed ⟨base, h.kept, ?_, hown, (slashes_iff h.path).2 hnot.2⟩
    rw [← String.toList_eq_nil_iff.ne, hfirst]
    exact hnot.1
  refine ⟨h.not_displaced (.inr hown), ?_, h.served⟩
  rw [← String.toList_inj, mount_of_keptBase? h.kept, String.toList_append, String.toList_append,
    String.toList_ofList, List.append_assoc, hfirst, firstSegment_append_stripSegments h.segment hone]
  exact h.path

/-- Nothing is taken off for a group without a prefix. -/
theorem OnGroup.stays_of_empty (h : topology.OnGroup op "" rest) :
    topology.Stays op (String.ofList rest) := by
  have hall : stripSegments [] rest = rest := stripSegments_append [] h.segment
  have hserved := h.served
  rw [String.toList_empty, hall] at hserved
  refine ⟨h.not_displaced (.inl rfl), ?_, hserved⟩
  rw [← String.toList_inj, mount_of_keptBase? h.kept, String.append_empty, String.toList_append,
    String.toList_ofList]
  exact h.path

/-- Nothing is taken off for a prefix that an operation does not ask for. -/
theorem OnGroup.moves {cs : List Char} (h : topology.OnGroup op base rest)
    (hbase : base.toList = firstSegment cs) (hne : base ≠ "")
    (hother : derivedBase? topology.apiPrefix op.path ≠ some base) :
    topology.Moves op (String.ofList rest) := by
  have hnil : firstSegment cs ≠ [] := by
    rw [← hbase]
    exact mt String.toList_eq_nil_iff.1 hne
  -- were it in front of the rest, it would be its first segment
  have hdiff : firstSegment rest ≠ firstSegment cs := by
    intro heq
    rw [h.derivedBase?_eq, heq, ← hbase, String.ofList_toList] at hother
    exact hother rfl
  have hserved := h.served
  rw [hbase, stripSegments_of_firstSegment_ne hnil hdiff] at hserved
  refine ⟨⟨base, h.kept, hne, hother⟩, ?_, ?_, hserved⟩
  · rw [← String.toList_inj, String.toList_append, String.toList_ofList]
    exact h.path
  · rw [String.toList_ofList]
    exact h.segment

/-- **Every operation stays or is moved**, if its prefix is found. -/
theorem stays_or_moves (hof : topology = ofDocument apiPrefix doc) (hskewed : ¬ topology.Skewed op) :
    ∃ rest, topology.Stays op rest ∨ topology.Moves op rest := by
  cases hplace : topology.placement op.key with
  | legacy => exact ⟨op.path, .inl (stays_of_legacy hplace)⟩
  | aggregate =>
    obtain ⟨rest, hstays⟩ := stays_of_aggregate hof hplace
    exact ⟨rest, .inl hstays⟩
  | group tag =>
    obtain ⟨base, rest, cs, hon, hbase⟩ := exists_onGroup hof hplace
    by_cases hown : derivedBase? topology.apiPrefix op.path = some base
    · exact ⟨_, .inl (hon.stays_of_own hown hskewed)⟩
    · by_cases hnone : base = ""
      · subst hnone
        exact ⟨_, .inl hon.stays_of_empty⟩
      · exact ⟨_, .inr (hon.moves hbase hnone hown)⟩

/-- An operation that stays is served at its path, up to a slash. -/
theorem Stays.served_eq_shown {rest : String} (h : topology.Stays op rest) :
    topology.served op = topology.shown op := by
  have hbare : op.path = topology.mount op ↔ rest = "" := by
    rw [h.path, String.append_eq_left_iff]
  -- nothing is left on the router if and only if the path is its prefix
  rw [h.served, shown, slashed]
  by_cases hrest : rest = ""
  · rw [if_pos hrest, if_pos (hbare.2 hrest), hbare.2 hrest]
  · rw [if_neg hrest, if_neg (mt hbare.1 hrest), h.path]

/-! ## Prefixes of routers -/

theorem toList_mount_of_displaced (hof : topology = ofDocument apiPrefix doc)
    (h : topology.Displaced op) : ∃ cs, firstSegment cs ≠ [] ∧
      (topology.mount op).toList = topology.apiPrefix.toList ++ firstSegment cs := by
  obtain ⟨base, hkept, hne, -⟩ := h
  have hmount := mount_of_keptBase? hkept
  subst hof
  obtain ⟨cs, hbase⟩ := keptBase?_eq_firstSegment hkept
  refine ⟨cs, ?_, ?_⟩
  · rw [← hbase]
    exact mt String.toList_eq_nil_iff.1 hne
  · rw [hmount, String.toList_append, hbase]

theorem mount_eq_or (hof : topology = ofDocument apiPrefix doc) (op : Operation) :
    topology.mount op = "" ∨
      ∃ cs, (topology.mount op).toList = apiPrefix.toList ++ firstSegment cs := by
  subst hof
  cases hplace : (ofDocument apiPrefix doc).placement op.key with
  | legacy =>
    left
    rw [mount, hplace]
  | aggregate =>
    refine .inr ⟨[], ?_⟩
    rw [mount, hplace]
    exact (List.append_nil _).symm
  | group tag =>
    obtain ⟨g, hg⟩ := exists_groupOfTag hplace
    have hkept := keptBase?_of_group hplace hg
    obtain ⟨cs, hbase⟩ := keptBase?_eq_firstSegment hkept
    refine .inr ⟨cs, ?_⟩
    rw [mount_of_keptBase? hkept, String.toList_append, hbase]
    rfl

/-- **No router has a prefix that ends with a slash.** -/
theorem mount_ne_append_slash (hof : topology = ofDocument apiPrefix doc)
    (hvalid : Settings.isPathPrefix apiPrefix = true) (op : Operation) (start : String) :
    topology.mount op ≠ start ++ "/" := by
  intro heq
  have hlast : (topology.mount op).toList.getLast? = some '/' := by
    rw [heq, String.toList_append]
    exact List.getLast?_concat
  rcases mount_eq_or hof op with hnone | ⟨cs, hmount⟩
  · rw [hnone] at hlast
    cases hlast
  · rw [hmount] at hlast
    -- the prefix ends with that of the group, or else with the API prefix
    by_cases hnil : firstSegment cs = []
    · have hend : apiPrefix.toList.getLast? ≠ some '/' := by
        simpa using (Bool.and_eq_true_iff.1 hvalid).2
      rw [hnil, List.append_nil] at hlast
      exact hend hlast
    · rw [List.getLast?_append_of_ne_nil _ hnil] at hlast
      exact getLast?_firstSegment cs hlast

/-! ## Two operations -/

variable {ra rb : String}

/-- Two operations that stay are served in one place only if one has the path of the other with a
slash. -/
theorem Stays.collides (ha : topology.Stays a ra) (hb : topology.Stays b rb)
    (hne : a.path ≠ b.path) (h : topology.served a = topology.served b) :
    topology.Collides a b ∨ topology.Collides b a := by
  rw [ha.served_eq_shown, hb.served_eq_shown] at h
  unfold shown at h
  split at h
  · rename_i hbare
    split at h
    · exact absurd ((String.append_left_inj _).1 h) hne
    · rw [hbare] at h
      exact .inl (.slash ha.kept hb.kept hbare h.symm)
  · split at h
    · rename_i hbare
      rw [hbare] at h
      exact .inr (.slash hb.kept ha.kept hbare h)
    · exact absurd h hne

theorem atSegment_slashed {rest : String} (h : atSegment rest.toList) :
    atSegment (slashed rest).toList := by
  unfold slashed
  split
  · rfl
  · exact h

/-- Two operations that are moved to one place are moved to one prefix. -/
theorem Moves.mount_eq (hof : topology = ofDocument apiPrefix doc) (ha : topology.Moves a ra)
    (hb : topology.Moves b rb) (h : topology.served a = topology.served b) :
    topology.mount a = topology.mount b := by
  obtain ⟨as, hne, hmount⟩ := toList_mount_of_displaced hof ha.displaced
  obtain ⟨bs, hne', hmount'⟩ := toList_mount_of_displaced hof hb.displaced
  rw [ha.served, hb.served, ← String.toList_inj, String.toList_append, String.toList_append, hmount,
    hmount', List.append_assoc, List.append_assoc, List.append_cancel_left_eq] at h
  -- the prefix of the group is the first segment of what both have behind the API prefix
  have hfirst := firstSegment_append hne (atSegment_slashed ha.segment)
  rw [h, firstSegment_append hne' (atSegment_slashed hb.segment)] at hfirst
  rw [← String.toList_inj, hmount, hmount', hfirst]

theorem Moves.collides (hof : topology = ofDocument apiPrefix doc) (ha : topology.Moves a ra)
    (hb : topology.Moves b rb) (hne : a.path ≠ b.path) (h : topology.served a = topology.served b) :
    topology.Collides a b ∨ topology.Collides b a := by
  have hmount := ha.mount_eq hof hb h
  rw [ha.served, hb.served, hmount, String.append_right_inj, slashed_inj] at h
  rcases h with rfl | ⟨rfl, rfl⟩ | ⟨rfl, rfl⟩
  · exact absurd (ha.path.trans hb.path.symm) hne
  · have hbare : a.path = topology.apiPrefix := ha.path.trans String.append_empty
    exact .inl (.moved ha.displaced hb.displaced hmount hbare hb.path)
  · have hbare : b.path = topology.apiPrefix := hb.path.trans String.append_empty
    exact .inr (.moved hb.displaced ha.displaced hmount.symm hbare ha.path)

/-- What is shown behind the prefix of a group is under the API prefix. -/
theorem isUnder_of_shown (hof : topology = ofDocument apiPrefix doc) (ha : topology.Displaced a)
    {rest : String} (h : topology.shown b = topology.mount a ++ slashed rest) :
    IsUnder topology.apiPrefix b.path := by
  obtain ⟨cs, hne, hmount⟩ := toList_mount_of_displaced hof ha
  obtain ⟨c, segment, -, -, hfirst⟩ := (firstSegment_eq_nil_or cs).resolve_left hne
  have hrest : (slashed rest).toList ≠ [] := mt String.toList_eq_nil_iff.1 (slashed_ne_empty rest)
  rw [← String.toList_inj, String.toList_append, hmount, hfirst] at h
  unfold shown at h
  right
  split at h
  · -- without the slash behind it, it still goes on behind the first slash
    refine ⟨String.ofList (c :: segment ++ (slashed rest).toList.dropLast), String.toList_inj.1 ?_⟩
    have hdrop := congrArg List.dropLast h
    rw [String.toList_append, List.dropLast_append_of_ne_nil hrest] at hdrop
    simpa using hdrop
  · refine ⟨String.ofList (c :: segment ++ (slashed rest).toList), String.toList_inj.1 ?_⟩
    simpa using h

theorem Moves.collides_of_stays (hof : topology = ofDocument apiPrefix doc)
    (ha : topology.Moves a ra) (hb : topology.Stays b rb)
    (h : topology.served a = topology.served b) : topology.Collides a b := by
  have hshown : topology.shown b = topology.mount a ++ slashed ra := by
    rw [← hb.served_eq_shown, ← h, ha.served]
  have hunder := isUnder_of_shown hof ha.displaced hshown
  exact .overtaken ra ha.displaced hb.kept hunder ha.path hshown

/-- **Operations that collide are served in one place.** -/
theorem Collides.served_eq (hof : topology = ofDocument apiPrefix doc)
    (hvalid : Settings.isPathPrefix apiPrefix = true) (hsa : ¬ topology.Skewed a)
    (hsb : ¬ topology.Skewed b) (h : topology.Collides a b) :
    topology.served a = topology.served b := by
  obtain ⟨ra, hra⟩ := stays_or_moves hof hsa
  obtain ⟨rb, hrb⟩ := stays_or_moves hof hsb
  cases h with
  | slash ha hb hbare hmore =>
    have hra := hra.resolve_right fun hmoves => ha hmoves.displaced
    have hrb := hrb.resolve_right fun hmoves => hb hmoves.displaced
    -- the longer path has a slash at its end, so it is not all of a prefix
    have hfull : b.path ≠ topology.mount b := by
      rw [hmore]
      exact (mount_ne_append_slash hof hvalid b _).symm
    rw [hra.served_eq_shown, hrb.served_eq_shown, shown, shown, if_pos hbare, if_neg hfull, hbare,
      hmore]
  | moved ha hb hmount hbare hmore =>
    have hra := hra.resolve_left fun hstays => hstays.kept ha
    have hrb := hrb.resolve_left fun hstays => hstays.kept hb
    obtain rfl : ra = "" := String.append_eq_left_iff.1 (hra.path.symm.trans hbare)
    obtain rfl : rb = "/" := (String.append_right_inj _).1 (hrb.path.symm.trans hmore)
    rw [hra.served, hrb.served, hmount]
    rfl
  | overtaken rest ha hb _ hpath hshown =>
    have hra := hra.resolve_left fun hstays => hstays.kept ha
    have hrb := hrb.resolve_right fun hmoves => hb hmoves.displaced
    obtain rfl : ra = rest := (String.append_right_inj _).1 (hra.path.symm.trans hpath)
    rw [hra.served, hrb.served_eq_shown, hshown]

/-- **Where conflicts are refused, no operation is moved.** -/
theorem not_displaced_of_reject (hkeys : (doc.operations.map Operation.key).Nodup)
    (h : (resolve .reject apiPrefix doc).outcome = .ok topology) (hop : op ∈ doc.operations) :
    ¬ topology.Displaced op := by
  rintro ⟨base, hkept, -, hother⟩
  obtain rfl := resolve_ok h
  have hnone : (ofDocument apiPrefix doc).conflict? op = none := by
    have hnil : (ofDocument apiPrefix doc).conflicts doc = [] := by
      simp only [resolve] at h
      split at h
      · assumption
      · cases h
    exact List.filterMap_eq_nil_iff.1 hnil op hop
  unfold keptBase? at hkept
  split at hkept
  · rename_i tag hplace
    obtain ⟨g, hg, rfl⟩ := Option.map_eq_some_iff.1 hkept
    rw [placement_of_mem hkeys hop] at hplace
    obtain ⟨hsome, hhead⟩ := slotOf_eq_group.1 hplace
    obtain ⟨own, hown⟩ := Option.isSome_iff_exists.1 hsome
    have hne : g.base ≠ own := by
      rintro rfl
      exact hother hown
    have hown' : derivedBase? (ofDocument apiPrefix doc).apiPrefix op.path = some own := hown
    simp [conflict?, hown', hhead, hg, hne] at hnone
  · cases hkept

/-- **When two operations of one verb are served in one place**, if their prefixes are found. Where
conflicts are refused, no operation is moved, and only the slash is left. -/
theorem served_eq_iff {tieBreak : TieBreak} (hkeys : (doc.operations.map Operation.key).Nodup)
    (hvalid : Settings.isPathPrefix apiPrefix = true)
    (h : (resolve tieBreak apiPrefix doc).outcome = .ok topology)
    (ha : a ∈ doc.operations) (hb : b ∈ doc.operations) (hne : a ≠ b) (hverb : a.verb = b.verb)
    (hsa : ¬ topology.Skewed a) (hsb : ¬ topology.Skewed b) :
    (topology.served a = topology.served b ↔ topology.Collides a b ∨ topology.Collides b a) ∧
    (tieBreak = .reject → ¬ topology.Displaced a ∧ ¬ topology.Displaced b) := by
  have hof := resolve_ok h
  have hpath : a.path ≠ b.path := by
    intro heq
    have hkey : a.key = b.key := by rw [Operation.key, Operation.key, heq, hverb]
    exact hne (List.inj_on_of_nodup_map hkeys ha hb hkey)
  refine ⟨⟨fun heq => ?_, fun hway => ?_⟩, ?_⟩
  · -- each of the two stays or is moved, and each pair of kinds has its own ways
    obtain ⟨ra, hra⟩ := stays_or_moves hof hsa
    obtain ⟨rb, hrb⟩ := stays_or_moves hof hsb
    rcases hra with hra | hra
    · rcases hrb with hrb | hrb
      · exact hra.collides hrb hpath heq
      · exact .inr (hrb.collides_of_stays hof hra heq.symm)
    · rcases hrb with hrb | hrb
      · exact .inl (hra.collides_of_stays hof hrb heq)
      · exact hra.collides hof hrb hpath heq
  · rcases hway with hway | hway
    · exact hway.served_eq hof hvalid hsa hsb
    · exact (hway.served_eq hof hvalid hsb hsa).symm
  · rintro rfl
    exact ⟨not_displaced_of_reject hkeys h ha, not_displaced_of_reject hkeys h hb⟩

/-- One operation at every path, all in one group. -/
def taggedDocument (paths : List String) : Document where
  paths := paths.map fun path => ⟨path, [{ path, verb := .get, tags := ["t"] }]⟩

theorem mem_taggedDocument {paths : List String} {path : String} (h : path ∈ paths) :
    ({ path, verb := .get, tags := ["t"] } : Operation) ∈ (taggedDocument paths).operations := by
  unfold taggedDocument Document.operations
  rw [List.flatMap_map]
  exact List.mem_flatMap.2 ⟨path, h, List.mem_singleton.2 rfl⟩

/-- An operation at the prefix of its group and one at this prefix with a slash, served in one place;
and one at another path, served elsewhere. -/
theorem served_eq_iff_slash :
    let topology := ofDocument "/v" (taggedDocument ["/v/a", "/v/a/", "/v/a/x"])
    topology.served { path := "/v/a", verb := .get, tags := ["t"] } =
      topology.served { path := "/v/a/", verb := .get, tags := ["t"] } ∧
    topology.served { path := "/v/a", verb := .get, tags := ["t"] } ≠
      topology.served { path := "/v/a/x", verb := .get, tags := ["t"] } := by
  intro topology
  have hkeys : ((taggedDocument ["/v/a", "/v/a/", "/v/a/x"]).operations.map Operation.key).Nodup := by
    decide
  have hvalid : Settings.isPathPrefix "/v" = true := by decide
  have hr : (resolve .reject "/v" (taggedDocument ["/v/a", "/v/a/", "/v/a/x"])).outcome =
      .ok topology := by rfl
  have hmount (path : String) (hpath : path ∈ ["/v/a", "/v/a/", "/v/a/x"]) :
      topology.mount { path, verb := .get, tags := ["t"] } = "/v/a" := by
    fin_cases hpath <;> decide +kernel
  have hone (path : String) (hpath : path ∈ ["/v/a", "/v/a/", "/v/a/x"]) :
      ¬ topology.Skewed { path, verb := .get, tags := ["t"] } := by
    rintro ⟨base, -, -, -, hslashes⟩
    have hrest : ∃ rest, path.toList = "/v".toList ++ rest ∧ ¬ ['/', '/'] <+: rest := by
      fin_cases hpath
      · exact ⟨"/a".toList, by decide, by decide⟩
      · exact ⟨"/a/".toList, by decide, by decide⟩
      · exact ⟨"/a/x".toList, by decide, by decide⟩
    obtain ⟨rest, hsplit, hnone⟩ := hrest
    exact hnone ((slashes_iff hsplit).1 hslashes)
  have hpair (path other : String) (hpath : path ∈ ["/v/a", "/v/a/", "/v/a/x"])
      (hother : other ∈ ["/v/a", "/v/a/", "/v/a/x"]) (hne : path ≠ other) :=
    served_eq_iff hkeys hvalid hr (mem_taggedDocument hpath) (mem_taggedDocument hother)
      (fun heq => hne (congrArg Operation.path heq)) rfl (hone path hpath) (hone other hother)
  constructor
  · obtain ⟨hiff, hstay⟩ := hpair "/v/a" "/v/a/" (by decide) (by decide) (by decide)
    obtain ⟨ha, hb⟩ := hstay rfl
    have hbare := hmount "/v/a" (by decide)
    refine hiff.2 (.inl (.slash ha hb hbare.symm ?_))
    rw [hbare]
    decide
  · obtain ⟨hiff, hstay⟩ := hpair "/v/a" "/v/a/x" (by decide) (by decide) (by decide)
    obtain ⟨ha, hb⟩ := hstay rfl
    intro heq
    rcases hiff.1 heq with hway | hway
    · cases hway with
      | slash _ _ _ hmore =>
        rw [hmount "/v/a" (by decide)] at hmore
        revert hmore
        decide
      | moved hmoved => exact ha hmoved
      | overtaken _ hmoved => exact ha hmoved
    · cases hway with
      | slash _ _ hbare =>
        rw [hmount "/v/a/x" (by decide)] at hbare
        revert hbare
        decide
      | moved hmoved => exact hb hmoved
      | overtaken _ hmoved => exact hb hmoved

/-- Operations of one verb with different paths that are served in one place: at the prefix of a
router with and without a slash; and where first-seen prefixes are kept, one that is moved onto
another, and two that are moved from the API prefix with and without a slash. -/
theorem served_not_injective :
    (let doc := taggedDocument ["/v/a", "/v/a/"]
     let topology := ofDocument "/v" doc
     (doc.operations.map Operation.key).Nodup ∧ Settings.isPathPrefix "/v" = true ∧
     (resolve .reject "/v" doc).outcome = .ok topology ∧
     (doc.operations.map fun op => (op.verb, topology.served op)) =
       [(.get, "/v/a/"), (.get, "/v/a/")]) ∧
    (let doc := taggedDocument ["/v/a/b/x", "/v/b/x", "/v", "/v/"]
     let topology := ofDocument "/v" doc
     (doc.operations.map Operation.key).Nodup ∧ Settings.isPathPrefix "/v" = true ∧
     (resolve .firstSeen "/v" doc).outcome = .ok topology ∧
     (doc.operations.map fun op => (op.verb, topology.served op)) =
       [(.get, "/v/a/b/x"), (.get, "/v/a/b/x"), (.get, "/v/a/"), (.get, "/v/a/")]) := by
  refine ⟨⟨by decide, by decide, by rfl, ?_⟩, ⟨by decide, by decide, by rfl, ?_⟩⟩
  · decide +kernel
  · decide +kernel

end Topology

end ApiCodegen
