import ApiCodegen.Client.Transport
import ApiCodegen.Proofs.Plan.Template

/-!
# The tokens that the client finds

The transport of the client fills in a path template by a pattern: it looks for matches from left to right,
each behind the one before it. Its texts are made of UTF-16 code units, so that a match could start or end
inside a character. The server reads the names of the tokens off the characters and never looks back. Both see
the same names.

* `codeUnits`, `units`: the code units of a text.
* `Pattern`: the patterns that are needed here; `Pattern.text` is how they are written, `Pattern.Matches` what
  they match.
* `Finds`: **the matches in a text from left to right.** None starts before the one that is found, and none
  overlaps another.
* `matches_token_iff`: what the pattern of the transport matches.
* `Finds.unique`: there is one way to find its matches.
* `units_injective`: texts with the same code units are the same.
* `finds_units`: the matches in the code units are those in the characters.
* `finds_tokens`: **server and client see the same tokens.**
-/

namespace ApiCodegen.Client

/-! ## Code units -/

/-- The code units of a character: one, or two surrogates. -/
def codeUnits (c : Char) : List ℕ :=
  if c.toNat < 0x10000 then [c.toNat]
  else [0xD800 + (c.toNat - 0x10000) / 0x400, 0xDC00 + (c.toNat - 0x10000) % 0x400]

/-- The code units of some characters. -/
def units (cs : List Char) : List ℕ := cs.flatMap codeUnits

variable {c d : Char} {cs : List Char} {u : ℕ}

theorem units_cons (c : Char) (cs : List Char) : units (c :: cs) = codeUnits c ++ units cs := List.flatMap_cons

theorem units_append (cs ds : List Char) : units (cs ++ ds) = units cs ++ units ds := List.flatMap_append

/-- A character is no surrogate, and not beyond the last one. -/
theorem toNat_valid (c : Char) : c.toNat < 0xD800 ∨ (0xDFFF < c.toNat ∧ c.toNat < 0x110000) := c.valid

theorem eq_of_toNat_eq (h : c.toNat = d.toNat) : c = d := by
  rw [← Char.ofNat_toNat c, h, Char.ofNat_toNat]

/-- A code unit below the surrogates is that of one character. -/
theorem mem_codeUnits_iff (hd : d.toNat < 0xD800) : d.toNat ∈ codeUnits c ↔ c = d := by
  unfold codeUnits
  split
  · rw [List.mem_singleton]
    exact ⟨fun h => (eq_of_toNat_eq h).symm, fun h => congrArg Char.toNat h.symm⟩
  · rename_i hc
    constructor
    · intro h
      simp only [List.mem_cons, List.not_mem_nil, or_false] at h
      omega
    · rintro rfl
      omega

theorem codeUnits_of_lt (hd : d.toNat < 0xD800) : codeUnits d = [d.toNat] := if_pos (by omega)

theorem mem_units_iff (hd : d.toNat < 0xD800) : d.toNat ∈ units cs ↔ d ∈ cs := by
  simp only [units, List.mem_flatMap, mem_codeUnits_iff hd, exists_eq_right]

/-- What starts with the code units of a character starts with no other. -/
theorem codeUnits_append_inj {more more' : List ℕ} (h : codeUnits c ++ more = codeUnits d ++ more') :
    c = d ∧ more = more' := by
  have hc := toNat_valid c
  have hd := toNat_valid d
  unfold codeUnits at h
  by_cases h1 : c.toNat < 0x10000 <;> by_cases h2 : d.toNat < 0x10000 <;>
    simp only [h1, h2, if_true, if_false, List.cons_append, List.nil_append, List.cons.injEq] at h
  · exact ⟨eq_of_toNat_eq h.1, h.2⟩
  · -- a character of one code unit is no surrogate
    omega
  · omega
  · obtain ⟨hhigh, hlow, hmore⟩ := h
    exact ⟨eq_of_toNat_eq (by omega), hmore⟩

theorem codeUnits_ne_nil (c : Char) : codeUnits c ≠ [] := by
  unfold codeUnits
  split <;> exact List.cons_ne_nil _ _

/-- **Texts with the same code units are the same.** -/
theorem units_injective : Function.Injective units := by
  intro cs
  induction cs with
  | nil =>
    intro ds h
    cases ds with
    | nil => rfl
    | cons d ds => exact absurd (List.append_eq_nil_iff.1 h.symm).1 (codeUnits_ne_nil d)
  | cons c cs ih =>
    intro ds h
    cases ds with
    | nil => exact absurd (List.append_eq_nil_iff.1 h).1 (codeUnits_ne_nil c)
    | cons d ds =>
      rw [units_cons, units_cons] at h
      obtain ⟨rfl, hmore⟩ := codeUnits_append_inj h
      rw [ih hmore]

/-! ## Patterns -/

/-- A pattern over code units. -/
inductive Pattern where
  /-- One code unit. -/
  | unit (u : ℕ)
  /-- One or more code units, none of which is this one. -/
  | others (u : ℕ)
  /-- A pattern whose match is captured. -/
  | group (p : Pattern)
  /-- One pattern behind the other. -/
  | seq (p q : Pattern)

namespace Pattern

/-- How a pattern is written. -/
def text : Pattern → List Char
  | .unit u => ['\\', Char.ofNat u]
  | .others u => ['[', '^', Char.ofNat u, ']', '+']
  | .group p => '(' :: (p.text ++ [')'])
  | .seq p q => p.text ++ q.text

/-- What a pattern matches, and what it captures there. -/
inductive Matches : Pattern → List ℕ → List (List ℕ) → Prop
  | unit (u : ℕ) : Matches (.unit u) [u] []
  | others {u : ℕ} {text : List ℕ} : text ≠ [] → u ∉ text → Matches (.others u) text []
  | group {p : Pattern} {text : List ℕ} {captures : List (List ℕ)} : Matches p text captures →
      Matches (.group p) text (text :: captures)
  | seq {p q : Pattern} {front back : List ℕ} {captures captures' : List (List ℕ)} : Matches p front captures →
      Matches q back captures' → Matches (.seq p q) (front ++ back) (captures ++ captures')

end Pattern

variable {p : Pattern} {text name back : List ℕ} {captures : List (List ℕ)} {found found' : List (List (List ℕ))}

/-- A match somewhere in a text. -/
structure Occurs (p : Pattern) (text front part : List ℕ) (captures : List (List ℕ)) (back : List ℕ) : Prop where
  text_eq : text = front ++ (part ++ back)
  matches_part : p.Matches part captures

/-- **The matches in a text from left to right**, by what they capture: there is none, or one before which no
other starts, and those in what is behind it. -/
inductive Finds (p : Pattern) : List ℕ → List (List (List ℕ)) → Prop
  | done {text : List ℕ} :
      (∀ front part captures back, ¬ Occurs p text front part captures back) → Finds p text []
  | found {text front part back : List ℕ} {captures : List (List ℕ)} {more : List (List (List ℕ))} :
      Occurs p text front part captures back →
      (∀ front' part' captures' back', Occurs p text front' part' captures' back' →
        front.length ≤ front'.length) →
      Finds p back more → Finds p text (captures :: more)

/-- A code unit at which no match starts is passed over. -/
theorem Finds.cons (hno : ∀ part captures back, ¬ Occurs p (u :: text) [] part captures back)
    (h : Finds p text found) : Finds p (u :: text) found := by
  have hbehind : ∀ {front part captures back}, Occurs p (u :: text) front part captures back →
      ∃ front', front = u :: front' ∧ Occurs p text front' part captures back := by
    intro front part captures back hoccurs
    cases front with
    | nil => exact absurd hoccurs (hno _ _ _)
    | cons v front =>
      obtain ⟨rfl, htext⟩ := List.cons.inj hoccurs.text_eq
      exact ⟨front, rfl, htext, hoccurs.matches_part⟩
  cases h with
  | done hnone =>
    refine .done fun front part captures back hoccurs => ?_
    obtain ⟨front', -, hoccurs'⟩ := hbehind hoccurs
    exact hnone _ _ _ _ hoccurs'
  | found hoccurs hleft hmore =>
    rename_i front part back captures more
    have hmoved : Occurs p (u :: text) (u :: front) part captures back :=
      ⟨by rw [hoccurs.text_eq]; rfl, hoccurs.2⟩
    refine .found hmoved (fun front' part' captures' back' hother => ?_) hmore
    obtain ⟨front'', rfl, hother'⟩ := hbehind hother
    have hle := hleft _ _ _ _ hother'
    simp only [List.length_cons]
    omega

/-! ## The pattern of the transport -/

/-- **The pattern of the transport**: what is between braces, if it is not empty and has no closing brace. -/
def tokenPattern : Pattern :=
  .seq (.unit '\x7b'.toNat) (.seq (.group (.others '\x7d'.toNat)) (.unit '\x7d'.toNat))

/-- **What the pattern matches**, and that it captures the name. -/
theorem matches_token_iff : tokenPattern.Matches text captures ↔
    ∃ name, name ≠ [] ∧ '\x7d'.toNat ∉ name ∧ text = '\x7b'.toNat :: (name ++ ['\x7d'.toNat]) ∧
      captures = [name] := by
  constructor
  · intro h
    cases h with
    | seq hopen hmore =>
      cases hopen
      cases hmore with
      | seq hname hclose =>
        cases hclose
        cases hname with
        | group hothers =>
          cases hothers with
          | others hne hclose => exact ⟨_, hne, hclose, rfl, rfl⟩
  · rintro ⟨name, hne, hclose, rfl, rfl⟩
    exact .seq (.unit _) (.seq (.group (.others hne hclose)) (.unit _))

/-- A match of the pattern in a text. -/
theorem occurs_token_iff {front part : List ℕ} : Occurs tokenPattern text front part captures back ↔
    ∃ name, name ≠ [] ∧ '\x7d'.toNat ∉ name ∧ part = '\x7b'.toNat :: (name ++ ['\x7d'.toNat]) ∧
      captures = [name] ∧
      text = front ++ '\x7b'.toNat :: (name ++ '\x7d'.toNat :: back) := by
  constructor
  · rintro ⟨htext, hmatches⟩
    obtain ⟨name, hne, hclose, rfl, rfl⟩ := matches_token_iff.1 hmatches
    exact ⟨name, hne, hclose, rfl, rfl, by simpa using htext⟩
  · rintro ⟨name, hne, hclose, rfl, rfl, htext⟩
    exact ⟨by simpa using htext, matches_token_iff.2 ⟨name, hne, hclose, rfl, rfl⟩⟩

/-- What is in front of the first of some code units is determined, and so is what is behind it. -/
theorem append_cons_inj {name' back' : List ℕ} (h : u ∉ name) (h' : u ∉ name')
    (heq : name ++ u :: back = name' ++ u :: back') : name = name' ∧ back = back' := by
  have hname := congrArg (List.takeWhile (· ≠ u)) heq
  have hall : ∀ {l : List ℕ}, u ∉ l → ∀ x ∈ l, decide (x ≠ u) := fun hl x hx =>
    decide_eq_true fun hxu => hl (hxu ▸ hx)
  rw [List.takeWhile_append_of_pos (hall h), List.takeWhile_append_of_pos (hall h'),
    List.takeWhile_cons_of_neg (by simp), List.takeWhile_cons_of_neg (by simp), List.append_nil,
    List.append_nil] at hname
  subst hname
  exact ⟨rfl, (List.cons.inj (List.append_cancel_left heq)).2⟩

/-- Matches that start at one place are the same. -/
theorem occurs_token_unique {front front' part part' back' : List ℕ} {captures' : List (List ℕ)}
    (h : Occurs tokenPattern text front part captures back)
    (h' : Occurs tokenPattern text front' part' captures' back') (hlength : front.length = front'.length) :
    captures = captures' ∧ back = back' := by
  obtain ⟨name, -, hclose, -, rfl, htext⟩ := occurs_token_iff.1 h
  obtain ⟨name', -, hclose', -, rfl, htext'⟩ := occurs_token_iff.1 h'
  obtain ⟨-, htoken⟩ := List.append_inj (htext.symm.trans htext') hlength
  obtain ⟨rfl, rfl⟩ := append_cons_inj hclose hclose' (List.cons.inj htoken).2
  exact ⟨rfl, rfl⟩

/-- **There is one way to find the matches**: at most one starts at a place, so that it does not matter in
which order a matcher tries the ways to match. -/
theorem Finds.unique (h : Finds tokenPattern text found) (h' : Finds tokenPattern text found') :
    found = found' := by
  induction h generalizing found' with
  | done hnone =>
    cases h' with
    | done => rfl
    | found hoccurs => exact absurd hoccurs (hnone _ _ _ _)
  | found hoccurs hleft _ ih =>
    cases h' with
    | done hnone => exact absurd hoccurs (hnone _ _ _ _)
    | found hoccurs' hleft' hmore' =>
      have hlength := le_antisymm (hleft _ _ _ _ hoccurs') (hleft' _ _ _ _ hoccurs)
      obtain ⟨rfl, rfl⟩ := occurs_token_unique hoccurs hoccurs' hlength
      rw [ih hmore']

/-! ## Matches in code units and in characters -/

theorem lt_brace : '\x7b'.toNat < 0xD800 ∧ '\x7d'.toNat < 0xD800 := by decide

/-- The code units of a token. -/
theorem units_token (name behind : List Char) : units ('\x7b' :: (name ++ '\x7d' :: behind)) =
    '\x7b'.toNat :: (units name ++ '\x7d'.toNat :: units behind) := by
  rw [units_cons, units_append, units_cons, codeUnits_of_lt lt_brace.1, codeUnits_of_lt lt_brace.2]
  rfl

/-- A match at the start of the code units is one at the start of the characters. -/
theorem captureAt_of_occurs {part : List ℕ} (h : Occurs tokenPattern (units cs) [] part captures back) :
    (captureAt cs).isSome := by
  obtain ⟨name, hne, hclose, -, -, htext⟩ := occurs_token_iff.1 h
  rw [List.nil_append] at htext
  cases cs with
  | nil => cases htext
  | cons c rest =>
    -- the first code unit is an opening brace, and so is the first character
    have hopen : codeUnits c ++ units rest = codeUnits '\x7b' ++ (name ++ '\x7d'.toNat :: back) := by
      rw [codeUnits_of_lt lt_brace.1, ← units_cons, htext]
      rfl
    obtain ⟨rfl, hrest⟩ := codeUnits_append_inj hopen
    have hmem : '\x7d' ∈ rest := by
      rw [← mem_units_iff lt_brace.2, hrest]
      simp
    obtain ⟨front, behind, rfl, hfront⟩ := List.eq_append_cons_of_mem hmem
    rw [units_append, units_cons, codeUnits_of_lt lt_brace.2, List.singleton_append] at hrest
    obtain ⟨rfl, -⟩ := append_cons_inj (mt (mem_units_iff lt_brace.2).1 hfront) hclose hrest
    have hfrontne : front ≠ [] := by
      rintro rfl
      exact hne rfl
    exact Option.isSome_iff_exists.2 ⟨(front, behind), captureAt_eq_some_iff.2 ⟨hfrontne, hfront, rfl⟩⟩

/-- Code units that are no opening brace are passed over. -/
theorem Finds.append {front : List ℕ} (hfront : '\x7b'.toNat ∉ front) (h : Finds tokenPattern text found) :
    Finds tokenPattern (front ++ text) found := by
  induction front with
  | nil => exact h
  | cons u front ih =>
    obtain ⟨hu, hfront⟩ := not_or.1 (mt List.mem_cons.2 hfront)
    refine .cons (fun part captures back hoccurs => ?_) (ih hfront)
    obtain ⟨name, -, -, -, -, htext⟩ := occurs_token_iff.1 hoccurs
    exact hu (List.cons.inj htext).1.symm

/-- A character at which no match starts is passed over. -/
theorem Finds.char (hc : captureAt (c :: cs) = none) (h : Finds tokenPattern (units cs) found) :
    Finds tokenPattern (units (c :: cs)) found := by
  by_cases hopen : c = '\x7b'
  · subst hopen
    have hno : ∀ part captures back, ¬ Occurs tokenPattern (units ('\x7b' :: cs)) [] part captures back := by
      intro part captures back hoccurs
      have hsome := captureAt_of_occurs hoccurs
      rw [hc] at hsome
      cases hsome
    rw [units_cons, codeUnits_of_lt lt_brace.1] at hno ⊢
    exact .cons hno h
  · rw [units_cons]
    exact .append (mt (mem_codeUnits_iff lt_brace.1).1 hopen) h

/-- A token at the start is found. -/
theorem Finds.token {name behind : List Char} (hcapture : captureAt cs = some (name, behind))
    (h : Finds tokenPattern (units behind) found) : Finds tokenPattern (units cs) ([units name] :: found) := by
  obtain ⟨hne, hclose, rfl⟩ := captureAt_eq_some_iff.1 hcapture
  have hunits : units name ≠ [] := fun hnil => hne (units_injective hnil)
  have hopen :
      Occurs tokenPattern (units ('\x7b' :: (name ++ '\x7d' :: behind))) [] _ [units name] (units behind) :=
    occurs_token_iff.2 ⟨units name, hunits, mt (mem_units_iff lt_brace.2).1 hclose, rfl, rfl,
      units_token name behind⟩
  exact .found hopen (fun _ _ _ _ _ => Nat.zero_le _) h

/-- **The matches in the code units are those in the characters.** -/
theorem finds_units (cs : List Char) : Finds tokenPattern (units cs)
    (((pieces cs).filterMap Piece.token?).map fun name => [units name.toList]) := by
  fun_induction pieces cs with
  | case1 cs name behind hcapture ih =>
    have hfound := Finds.token hcapture ih
    simpa [Piece.token?] using hfound
  | case2 hcapture =>
    refine .done fun front part captures back hoccurs => ?_
    obtain ⟨name, -, -, -, -, htext⟩ := occurs_token_iff.1 hoccurs
    exact absurd htext.symm (by simp [units])
  | case3 c rest hcapture ih => exact Finds.char hcapture ih

/-- **Server and client see the same tokens**, for every path: with braces that are unbalanced, nested or
empty, and with characters of several code units beside them.

* The pattern is the one that the transport is written with.
* The matches in the code units of the path, from left to right, capture the code units of the server's names,
  in order.
* Texts that have these code units are the server's names. -/
theorem finds_tokens (path : String) :
    "  return template.replace(/" ++ String.ofList tokenPattern.text ++
      "/g, (_match, name: string) =>" ∈ transport ∧
      (∀ found, Finds tokenPattern (units path.toList) found ↔
        found = (pathTokens path).map fun name => [units name.toList]) ∧
      ∀ names : List String, Finds tokenPattern (units path.toList) (names.map fun name => [units name.toList]) ↔
        names = pathTokens path := by
  have hfinds : ∀ found, Finds tokenPattern (units path.toList) found ↔
      found = (pathTokens path).map fun name => [units name.toList] := by
    intro found
    have hpieces := finds_units path.toList
    rw [← pathTokens_eq] at hpieces
    exact ⟨fun h => h.unique hpieces, fun h => h ▸ hpieces⟩
  have hinjective : Function.Injective fun name : String => [units name.toList] := by
    intro a b h
    exact String.toList_inj.1 (units_injective (List.cons.inj h).1)
  refine ⟨by decide +kernel, hfinds, fun names => (hfinds _).trans ?_⟩
  exact (List.map_injective_iff.2 hinjective).eq_iff

example : pathTokens "/\x7b\x7d/\x7ba\x7bb\x7d\x7d/é\x7b𝔸\x7d\x7bc" = ["a\x7bb", "𝔸"] := by decide +kernel

end ApiCodegen.Client
