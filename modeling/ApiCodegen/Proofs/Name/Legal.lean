import ApiCodegen.Proofs.Name.Fresh
import ApiCodegen.Proofs.Name.Identifier

/-!
# Legal names

A legal name of a generated language is an identifier that the language has not reserved. Numbers keep
names legal, so legal names stay legal when they are made distinct.

* `forall_isWordChar`: what holds of the word characters among the ASCII characters holds of all.
* `legal_server`, `legal_client`: **whatever the text, the name made of it is legal.**
* `server_of_legal`, `client_of_legal`: **a legal name is kept.**
* `Legal.of_isFreshOf`: **a legal name with a number is legal.**
* `fresh_server_eq_iff`: a name is kept in the server files if it is legal and free.
* `Family`, `family_assign`: **names that are made distinct stay legal.**
* `ofTokens`, `assign_request`: the names of parameters, for tokens and for a request behind them, in either
  language.
* `eq_of_avoid`, `eq_of_isFreshOf`: **what is made has an underscore, or is what was asked for.**
* `mem_assign_avoid_iff`: so a name without an underscore is assigned where it was asked for.
-/

namespace ApiCodegen.Name

variable {c : Char} {cs more : List Char} {reserved taken names : List String} {name given : String}

/-! ## Word characters -/

theorem toNat_lt_of_isWordChar (h : isWordChar c) : c.toNat < 128 := by
  simp only [isWordChar, Char.isAlphanum, Char.isAlpha, Char.isUpper, Char.isLower, Char.isDigit,
    Bool.or_eq_true, Bool.and_eq_true, decide_eq_true_eq, beq_iff_eq, ge_iff_le,
    UInt32.le_iff_toNat_le] at h
  unfold Char.toNat
  rcases h with ((h | h) | h) | rfl
  · change 65 ≤ c.val.toNat ∧ c.val.toNat ≤ 90 at h
    omega
  · change 97 ≤ c.val.toNat ∧ c.val.toNat ≤ 122 at h
    omega
  · change 48 ≤ c.val.toNat ∧ c.val.toNat ≤ 57 at h
    omega
  · decide

/-- **What holds of the word characters among the ASCII characters holds of all word characters.** -/
theorem forall_isWordChar (p : Char → Bool)
    (h : ∀ n < 128, isWordChar (Char.ofNat n) → p (Char.ofNat n)) (hc : isWordChar c) : p c := by
  have hn := h c.toNat (toNat_lt_of_isWordChar hc)
  rw [Char.ofNat_toNat] at hn
  exact hn hc

theorem isWordChar_toUpper (hc : isWordChar c) : isWordChar c.toUpper :=
  forall_isWordChar (fun c => isWordChar c.toUpper) (by decide +kernel) hc

theorem isWordChar_toLower (hc : isWordChar c) : isWordChar c.toLower :=
  forall_isWordChar (fun c => isWordChar c.toLower) (by decide +kernel) hc

/-- No letter becomes a digit in upper case. -/
theorem isDigit_toUpper (hc : isWordChar c) : c.toUpper.isDigit = c.isDigit :=
  eq_of_beq (forall_isWordChar (fun c => c.toUpper.isDigit == c.isDigit) (by decide +kernel) hc)

theorem isLower_toUpper (hc : isWordChar c) : c.toUpper.isLower = false :=
  eq_of_beq (forall_isWordChar (fun c => c.toUpper.isLower == false) (by decide +kernel) hc)

theorem isWordChar_of_isAlphanum (hc : c.isAlphanum) : isWordChar c := by
  rw [isWordChar, hc, Bool.true_or]

theorem isWordChar_of_isDigit (hc : c.isDigit) : isWordChar c := by
  rw [isWordChar, Char.isAlphanum, hc, Bool.or_true, Bool.true_or]

/-! ## Identifiers that are made longer -/

theorem isIdentifier_append (h : isIdentifier cs) (hmore : ∀ d ∈ more, isWordChar d) :
    isIdentifier (cs ++ more) := by
  obtain ⟨hne, hhead, hall⟩ := isIdentifier_iff.1 h
  refine isIdentifier_iff.2 ⟨List.append_ne_nil_of_left_ne_nil hne _, ?_, ?_⟩
  · rwa [List.head?_append_of_ne_nil _ hne]
  · intro d hd
    rcases List.mem_append.1 hd with hd | hd
    · exact hall d hd
    · exact hmore d hd

/-- The characters of a number are digits. -/
theorem isDigit_of_mem_toString {n : ℕ} (hc : c ∈ (toString n).toList) : c.isDigit := by
  have hdigits : (toString n).toList = Nat.toDigits 10 n := by simp [toString, Nat.repr]
  exact Nat.isDigit_of_mem_toDigits (by decide) (by decide) (hdigits ▸ hc)

theorem toList_numbered (name : String) (n : ℕ) :
    (numbered name n).toList = name.toList ++ ('_' :: (toString n).toList) := by
  simp [numbered]

theorem isIdentifier_numbered (h : isIdentifier name.toList) (n : ℕ) :
    isIdentifier (numbered name n).toList := by
  rw [toList_numbered]
  refine isIdentifier_append h fun d hd => ?_
  rcases List.mem_cons.1 hd with rfl | hd
  · decide
  · exact isWordChar_of_isDigit (isDigit_of_mem_toString hd)

theorem isIdentifier_of_isFreshOf (h : isIdentifier name.toList) (hfresh : IsFreshOf name given) :
    isIdentifier given.toList := by
  obtain rfl | ⟨n, rfl⟩ := hfresh
  · exact h
  · exact isIdentifier_numbered h n

theorem isIdentifier_of_mem_assign {taken asked : List String} (h : ∀ name ∈ asked, isIdentifier name.toList)
    (hmem : given ∈ assign taken asked) : isIdentifier given.toList := by
  obtain ⟨name, hname, hfresh⟩ := exists_of_mem_assign hmem
  exact isIdentifier_of_isFreshOf (h name hname) hfresh

/-! ## Legal names -/

/-- **A legal name** of a language with some reserved words. -/
def Legal (reserved : List String) (name : String) : Prop :=
  isIdentifier name.toList ∧ name ∉ reserved

/-- Reserved words of letters only, so that no name with an underscore is one. -/
def Plain (reserved : List String) : Prop := ∀ w ∈ reserved, w.toList.all Char.isAlpha

theorem plain_server : Plain serverReserved := by
  unfold Plain
  decide +kernel

theorem plain_client : Plain clientReserved := by
  unfold Plain
  decide +kernel

theorem Plain.not_mem (hr : Plain reserved) (hc : c ∈ name.toList) (hnot : c.isAlpha = false) :
    name ∉ reserved := by
  intro hmem
  have halpha := List.all_eq_true.1 (hr name hmem) c hc
  rw [hnot] at halpha
  cases halpha

/-- A name that is made an identifier and then kept from being reserved is legal. -/
theorem legal_avoid (hr : Plain reserved) (name : String) :
    Legal reserved (avoid reserved (sanitize name)) := by
  have h := isIdentifier_sanitize name
  unfold avoid
  split
  · have hunderscore : (sanitize name ++ "_").toList = (sanitize name).toList ++ ['_'] := by simp
    have hlast : '_' ∈ (sanitize name ++ "_").toList := by simp
    refine ⟨?_, hr.not_mem hlast (by decide)⟩
    rw [hunderscore]
    exact isIdentifier_append h (by simp [isWordChar])
  · exact ⟨h, ‹_›⟩

/-- **Every text is made a legal name of the server files.** -/
theorem legal_server (name : String) : Legal serverReserved (server name) :=
  legal_avoid plain_server name

/-- **Every text is made a legal name of the client files.** -/
theorem legal_client (name : String) : Legal clientReserved (client name) :=
  legal_avoid plain_client name

/-- **A legal name is kept.** -/
theorem avoid_of_legal (h : Legal reserved name) : avoid reserved (sanitize name) = name := by
  rw [sanitize_eq_iff.2 h.1, avoid, if_neg h.2]

theorem server_of_legal (h : Legal serverReserved name) : server name = name := avoid_of_legal h

theorem client_of_legal (h : Legal clientReserved name) : client name = name := avoid_of_legal h

/-- The name of the parameter for a request is kept in both languages. -/
theorem server_request : server "request" = "request" := server_of_legal ⟨by decide, by decide⟩

theorem client_request : client "request" = "request" := client_of_legal ⟨by decide, by decide⟩

/-- **A legal name with a number is legal**: it has an underscore, and reserved words have none. -/
theorem Legal.of_isFreshOf (hr : Plain reserved) (h : Legal reserved name)
    (hfresh : IsFreshOf name given) : Legal reserved given := by
  refine ⟨isIdentifier_of_isFreshOf h.1 hfresh, ?_⟩
  obtain rfl | ⟨n, rfl⟩ := hfresh
  · exact h.2
  · have hunderscore : '_' ∈ (numbered name n).toList := by simp [toList_numbered]
    exact hr.not_mem hunderscore (by decide)

/-- **A name is kept in the server files** if it is legal there and free. -/
theorem fresh_server_eq_iff {taken : List String} :
    fresh taken (server name) = name ↔ server name = name ∧ name ∉ taken := by
  constructor
  · intro h
    have hserver : server name = name := by
      rcases isFreshOf_fresh taken (server name) with hkept | ⟨n, hn⟩
      · exact hkept.symm.trans h
      · -- a legal name with a number is legal, so it would have been kept without it
        rw [h] at hn
        exact server_of_legal ((legal_server name).of_isFreshOf plain_server (.inr ⟨n, hn⟩))
    rw [hserver, fresh_eq_iff] at h
    exact ⟨hserver, h⟩
  · rintro ⟨hserver, hfree⟩
    rwa [hserver, fresh_eq_iff]

/-- **A family of names** for a number of things: one for each, distinct and legal. -/
structure Family (reserved : List String) (n : ℕ) (names : List String) : Prop where
  length : names.length = n
  nodup : names.Nodup
  legal : ∀ name ∈ names, Legal reserved name

/-- **Assigned names are a family** if legal names are asked for, whatever is taken. -/
theorem family_assign (hr : Plain reserved) (taken : List String)
    (h : ∀ name ∈ names, Legal reserved name) : Family reserved names.length (assign taken names) where
  length := length_assign taken names
  nodup := nodup_assign taken names
  legal := by
    intro given hgiven
    obtain ⟨name, hname, hfresh⟩ := exists_of_mem_assign hgiven
    exact (h name hname).of_isFreshOf hr hfresh

/-! ## Names of parameters -/

section Parameters

variable {safe : String → String} {tokens : List String}

/-- The names of the parameters for tokens. -/
def ofTokens (safe : String → String) (tokens : List String) : List String := assign [] (tokens.map safe)

theorem length_ofTokens (safe : String → String) (tokens : List String) :
    (ofTokens safe tokens).length = tokens.length := by
  rw [ofTokens, length_assign, List.length_map]

/-- **The names of the parameters for tokens come first**, and that of the request comes last. -/
theorem assign_request (safe : String → String) (tokens : List String) :
    assign [] (tokens.map safe ++ ["request"]) =
      ofTokens safe tokens ++ [(assign [] (tokens.map safe ++ ["request"])).getLastD "request"] := by
  rw [assign_append, ofTokens]
  simp [assign]

/-- No token is left for the request. -/
theorem zipWith_request {γ : Type} (f : String → String → γ) (safe : String → String) (tokens : List String) :
    List.zipWith f (assign [] (tokens.map safe ++ ["request"])) tokens =
      List.zipWith f (ofTokens safe tokens) tokens := by
  have hbeyond (more : List String) : List.zipWith f (ofTokens safe tokens ++ more) (tokens ++ []) =
      List.zipWith f (ofTokens safe tokens) tokens ++ List.zipWith f more [] :=
    List.zipWith_append (length_ofTokens safe tokens)
  rw [assign_request]
  simpa using hbeyond _

/-- **The names are distinct**, whether that of the request is among them or not. -/
theorem nodup_ofTokens_append {α : Type} (safe : String → String) (tokens : List String) (request : Option α) :
    (ofTokens safe tokens ++ (request.map fun _ =>
      (assign [] (tokens.map safe ++ ["request"])).getLastD "request").toList).Nodup := by
  have hnodup := nodup_assign [] (tokens.map safe ++ ["request"])
  rw [assign_request] at hnodup
  cases request with
  | none => exact (List.nodup_append.1 hnodup).1.append List.nodup_nil (List.disjoint_nil_right _)
  | some request => exact hnodup

/-- **The names are legal.** -/
theorem legal_of_mem_assign_request (hr : Plain reserved) (hrequest : "request" ∉ reserved)
    (h : given ∈ assign [] (tokens.map (fun token => avoid reserved (sanitize token)) ++ ["request"])) :
    Legal reserved given := by
  refine (family_assign hr [] fun asked hasked => ?_).legal given h
  rcases List.mem_append.1 hasked with hasked | hasked
  · obtain ⟨token, -, rfl⟩ := List.mem_map.1 hasked
    exact legal_avoid hr token
  · rw [List.mem_singleton.1 hasked]
    exact ⟨by decide, hrequest⟩

end Parameters

/-! ## Names without an underscore -/

/-- An identifier that starts otherwise has an underscore in front. -/
theorem guardStart_eq_or (cs : List Char) : guardStart cs = cs ∨ guardStart cs = '_' :: cs := by
  cases cs with
  | nil => exact .inr rfl
  | cons c rest =>
    by_cases hc : c.isDigit
    · exact .inr (if_pos hc)
    · exact .inl (if_neg hc)

theorem wordChar_mem_sanitize (h : c ∈ name.toList) : wordChar c ∈ (sanitize name).toList := by
  rw [sanitize, String.toList_ofList, sanitizeChars]
  have hmap : wordChar c ∈ name.toList.map wordChar := List.mem_map_of_mem h
  obtain heq | heq := guardStart_eq_or (name.toList.map wordChar)
  · rwa [heq]
  · rw [heq]
    exact List.mem_cons_of_mem _ hmap

/-- A name is changed by underscores only: what has none was asked for as it is. -/
theorem eq_of_sanitize (h : '_' ∉ (sanitize name).toList) : sanitize name = name := by
  have hchars : ∀ c ∈ name.toList, wordChar c = c := by
    intro c hc
    have hword := wordChar_mem_sanitize hc
    unfold wordChar at hword ⊢
    split
    · rfl
    · rw [if_neg ‹_›] at hword
      exact absurd hword h
  have hmap : name.toList.map wordChar = name.toList := by
    rw [List.map_congr_left hchars, List.map_id']
  rw [sanitize, sanitizeChars, hmap] at h ⊢
  obtain heq | heq := guardStart_eq_or name.toList
  · rw [heq, String.ofList_toList]
  · rw [heq, String.toList_ofList] at h
    exact absurd List.mem_cons_self h

/-- So is a name that is kept from being reserved. -/
theorem eq_of_avoid (h : '_' ∉ (avoid reserved (sanitize name)).toList) :
    avoid reserved (sanitize name) = name := by
  unfold avoid at h ⊢
  split at h
  · exact absurd (by simp) h
  · rw [if_neg ‹_›]
    exact eq_of_sanitize h

/-- So is a fresh name. -/
theorem eq_of_isFreshOf (h : '_' ∉ given.toList) (hfresh : IsFreshOf name given) : given = name := by
  obtain rfl | ⟨n, rfl⟩ := hfresh
  · rfl
  · rw [toList_numbered] at h
    exact absurd (by simp) h

/-- **A name without an underscore is given to what asks for it**, unless it is taken, and to nothing
else. -/
theorem mem_assign_avoid_iff (h : '_' ∉ name.toList) (hkept : avoid reserved (sanitize name) = name) :
    name ∈ assign taken (names.map fun asked => avoid reserved (sanitize asked)) ↔
      name ∈ names ∧ name ∉ taken := by
  constructor
  · intro hmem
    refine ⟨?_, not_mem_of_mem_assign hmem⟩
    obtain ⟨base, hbase, hfresh⟩ := exists_of_mem_assign hmem
    obtain rfl := eq_of_isFreshOf h hfresh
    obtain ⟨asked, hasked, rfl⟩ := List.mem_map.1 hbase
    rwa [eq_of_avoid h]
  · rintro ⟨hasked, htaken⟩
    exact (mem_assign_or (List.mem_map.2 ⟨name, hasked, hkept⟩) taken).resolve_left htaken

theorem mem_assign_server_iff (h : '_' ∉ name.toList) (hserver : server name = name) :
    name ∈ assign taken (names.map server) ↔ name ∈ names ∧ name ∉ taken :=
  mem_assign_avoid_iff h hserver

theorem mem_assign_client_iff (h : '_' ∉ name.toList) (hclient : client name = name) :
    name ∈ assign taken (names.map client) ↔ name ∈ names ∧ name ∉ taken :=
  mem_assign_avoid_iff h hclient

end ApiCodegen.Name
