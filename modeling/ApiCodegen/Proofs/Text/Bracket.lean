import ApiCodegen.Proofs.Text.Token

/-!
# Brackets between tokens

A list of tokens is taken apart where no bracket is open: at the commas of its arguments, or at the ends
of its statements.

* `parts`, `separatedBy`: the parts of some tokens.
* `Inside`: **tokens that belong to the part in which they stand.**
* `Nested`: tokens with closed brackets, with commas inside brackets only or anywhere.
* `Nested.inside`: **closed brackets are taken apart nowhere.**
* `parts_intercalate`, `parts_terminated`: so what is put together is found again.
* `Reads.wrap`, `reads_intercalate`: texts in brackets, and texts with marks between them, are read so.
-/

namespace ApiCodegen.Text

variable {ts us inner : List Token} {t : Token} {depth : ℕ} {b : Bool} {c o : Char}

/-- Angle brackets stand around types; nothing is compared. -/
def isOpen (c : Char) : Bool := c == '(' || c == '[' || c == '\x7b' || c == '<'

def isClose (c : Char) : Bool := c == ')' || c == ']' || c == '\x7d' || c == '>'

/-- The number of open brackets behind a token. -/
def depthBehind (depth : ℕ) : Token → ℕ
  | .mark c => if isOpen c then depth + 1 else if isClose c then depth - 1 else depth
  | _ => depth

/-- Where a part ends, by the number of open brackets: what is left of the token. -/
abbrev Stop := ℕ → Token → Option (List Token)

/-- The parts of some tokens. -/
def parts (stop : Stop) : ℕ → List Token → List (List Token)
  | _, [] => [[]]
  | depth, t :: rest =>
    match stop depth t with
    | some kept => kept :: parts stop 0 rest
    | none => (parts stop (depthBehind depth t) rest).modifyHead (t :: ·)

/-- The parts end at a mark outside of all brackets. -/
def separatedBy (c : Char) : Stop := fun depth t =>
  if depth = 0 ∧ t = .mark c then some [] else none

/-! ## Tokens that belong together -/

variable {stop : Stop}

/-- **Some tokens belong to the part in which they stand.** -/
def Inside (stop : Stop) (depth : ℕ) (ts : List Token) : Prop :=
  ∀ rest, parts stop depth (ts ++ rest) = (parts stop depth rest).modifyHead (ts ++ ·)

theorem inside_nil (stop : Stop) (depth : ℕ) : Inside stop depth [] := by
  intro rest
  rw [List.nil_append]
  cases parts stop depth rest <;> rfl

theorem Inside.append (h : Inside stop depth ts) (hnext : Inside stop depth us) :
    Inside stop depth (ts ++ us) := by
  intro rest
  rw [List.append_assoc, h, hnext, List.modifyHead_modifyHead]
  simp [Function.comp_def]

/-- A token that changes nothing. -/
theorem inside_token (hstop : stop depth t = none) (hdepth : depthBehind depth t = depth) :
    Inside stop depth [t] := by
  intro rest
  rw [List.singleton_append, parts, hstop, hdepth]
  rfl

/-- A pair of brackets around what belongs together inside. -/
theorem inside_brackets (ho : isOpen o) (hc : isClose c) (hopen : stop depth (.mark o) = none)
    (hinner : Inside stop (depth + 1) inner) (hclose : stop (depth + 1) (.mark c) = none) :
    Inside stop depth (.mark o :: (inner ++ [Token.mark c])) := by
  have hdown : depthBehind (depth + 1) (.mark c) = depth := by
    have hnot : isOpen c = false := by
      simp only [isClose, Bool.or_eq_true, beq_iff_eq] at hc
      rcases hc with ((rfl | rfl) | rfl) | rfl <;> rfl
    simp [depthBehind, hc, hnot]
  intro rest
  rw [List.cons_append, List.append_assoc, List.singleton_append, parts, hopen]
  simp only [depthBehind, ho, if_true]
  rw [hinner, parts, hclose]
  simp only [hdown, List.modifyHead_modifyHead]
  simp [Function.comp_def]

/-! ## Closed brackets -/

/-- A token that is no bracket, no comma and no end of anything. -/
def isPlain : Token → Bool
  | .mark c => !isOpen c && !isClose c && c != ',' && c != ';'
  | .word _ | .text _ => true
  | .line _ | .unreadable => false

/-- The pairs of brackets. -/
def bracketPairs : List (Char × Char) := [('(', ')'), ('[', ']'), ('\x7b', '\x7d'), ('<', '>')]

/-- **Tokens with closed brackets.** Commas stand inside brackets, or anywhere. -/
inductive Nested : Bool → List Token → Prop
  | nil {b : Bool} : Nested b []
  | token {b : Bool} {t : Token} {ts : List Token} (ht : isPlain t) (h : Nested b ts) : Nested b (t :: ts)
  | comma {ts : List Token} (h : Nested true ts) : Nested true (.mark ',' :: ts)
  | brackets {b : Bool} {o c : Char} {inner ts : List Token} (hpair : (o, c) ∈ bracketPairs)
      (hinner : Nested true inner) (h : Nested b ts) :
      Nested b (.mark o :: (inner ++ .mark c :: ts))

namespace Nested

theorem append (h : Nested b ts) (hnext : Nested b us) : Nested b (ts ++ us) := by
  induction h with
  | nil => exact hnext
  | token ht _ ih => exact .token ht (ih hnext)
  | comma _ ih => exact .comma (ih hnext)
  | brackets hpair hinner _ _ ih =>
    rw [List.cons_append, List.append_assoc, List.cons_append]
    exact .brackets hpair hinner (ih hnext)

/-- Commas inside brackets are commas anywhere. -/
theorem weaken (h : Nested b ts) : Nested true ts := by
  induction h with
  | nil => exact .nil
  | token ht _ ih => exact .token ht ih
  | comma _ ih => exact .comma ih
  | brackets hpair hinner _ _ ih => exact .brackets hpair hinner ih

theorem singleton (ht : isPlain t) : Nested b [t] := .token ht .nil

/-- Commas inside a pair of brackets. -/
theorem wrap (hpair : (o, c) ∈ bracketPairs) (h : Nested true ts) :
    Nested b (.mark o :: (ts ++ [Token.mark c])) := .brackets hpair h .nil

/-- Some tokens that are put together with commas. -/
theorem intercalate {tss : List (List Token)} (h : ∀ ts ∈ tss, Nested false ts) :
    Nested true (List.intercalate [.mark ','] tss) := by
  induction tss with
  | nil => exact .nil
  | cons ts tss ih =>
    have hts := (h ts List.mem_cons_self).weaken
    have hrest := ih fun us hus => h us (List.mem_cons_of_mem _ hus)
    cases tss with
    | nil =>
      rw [List.intercalate_singleton]
      exact hts
    | cons us tss =>
      rw [List.intercalate_cons_cons, List.append_assoc, List.singleton_append]
      exact hts.append (.comma hrest)

/-- A token inside is plain, or a comma, or a bracket. -/
theorem forall_mem {p : Token → Prop} (h : Nested b ts) (hplain : ∀ t, isPlain t → p t) (hcomma : p (.mark ','))
    (hbrackets : ∀ pair ∈ bracketPairs, p (.mark pair.1) ∧ p (.mark pair.2)) : ∀ t ∈ ts, p t := by
  induction h with
  | nil => exact fun t ht => absurd ht List.not_mem_nil
  | token ht _ ih => exact List.forall_mem_cons.2 ⟨hplain _ ht, ih⟩
  | comma _ ih => exact List.forall_mem_cons.2 ⟨hcomma, ih⟩
  | brackets hpair _ _ ihinner ih =>
    obtain ⟨hopen, hclose⟩ := hbrackets _ hpair
    have hbehind := List.forall_mem_append.2 ⟨ihinner, List.forall_mem_cons.2 ⟨hclose, ih⟩⟩
    exact List.forall_mem_cons.2 ⟨hopen, hbehind⟩

/-- No line starts inside. -/
theorem ne_line (h : Nested b ts) (ht : t ∈ ts) (indent : ℕ) : t ≠ .line indent := by
  have hplain : ∀ t, isPlain t → t ≠ .line indent := by
    rintro _ hplain rfl
    cases hplain
  have hall : ∀ t ∈ ts, t ≠ .line indent :=
    h.forall_mem hplain Token.noConfusion fun _ _ => ⟨Token.noConfusion, Token.noConfusion⟩
  exact hall t ht

/-- No semicolon stands inside. -/
theorem ne_semicolon (h : Nested b ts) (ht : t ∈ ts) : t ≠ .mark ';' := by
  have hplain : ∀ t, isPlain t → t ≠ .mark ';' := by
    rintro _ hplain rfl
    cases hplain
  have hall : ∀ t ∈ ts, t ≠ .mark ';' := h.forall_mem hplain (by decide) (by decide)
  exact hall t ht

end Nested

/-- Tokens that stand one bracket deeper than what is around them: commas and closing brackets. -/
def isInner : Token → Bool
  | .mark c => isClose c || c == ','
  | _ => false

theorem isInner_of_isPlain (h : isPlain t) : isInner t = false := by
  cases t with
  | mark c =>
    simp only [isPlain, Bool.and_eq_true, Bool.not_eq_true', bne_iff_ne] at h
    simp [isInner, h.1.1.2, h.1.2]
  | word | text | line | unreadable => rfl

theorem depthBehind_of_isPlain (h : isPlain t) (depth : ℕ) : depthBehind depth t = depth := by
  cases t with
  | mark c =>
    simp only [isPlain, Bool.and_eq_true, Bool.not_eq_true', bne_iff_ne] at h
    simp [depthBehind, h.1.1.1, h.1.1.2]
  | word | text | line | unreadable => rfl

/-- No part ends at any of the tokens, if so many brackets are open around them at least. -/
def Quiet (stop : Stop) (depth : ℕ) (ts : List Token) : Prop :=
  ∀ t ∈ ts, ∀ d, depth ≤ d → stop (if isInner t then d + 1 else d) t = none

/-- **Closed brackets are taken apart nowhere.** -/
theorem Nested.inside (h : Nested b ts) (hquiet : Quiet stop depth ts) {d : ℕ} (hd : depth ≤ d) :
    Inside stop (if b then d + 1 else d) ts := by
  induction h generalizing d with
  | nil => exact inside_nil _ _
  | @token b t ts ht _ ih =>
    have hrest := ih (fun u hu => hquiet u (List.mem_cons_of_mem _ hu)) hd
    have hstop : stop (if b then d + 1 else d) t = none := by
      have hle : depth ≤ if b then d + 1 else d := by split <;> omega
      simpa [isInner_of_isPlain ht] using hquiet t List.mem_cons_self _ hle
    exact (inside_token hstop (depthBehind_of_isPlain ht _)).append hrest
  | @comma ts _ ih =>
    have hrest := ih (fun u hu => hquiet u (List.mem_cons_of_mem _ hu)) hd
    have hstop : stop (d + 1) (.mark ',') = none := hquiet (.mark ',') List.mem_cons_self d hd
    exact (inside_token hstop rfl).append hrest
  | @brackets b o c inner ts hpair _ _ ihinner ih =>
    have hclass : ∀ pair ∈ bracketPairs, isOpen pair.1 ∧ isClose pair.2 ∧ isInner (.mark pair.1) = false ∧
        isInner (.mark pair.2) := by decide
    obtain ⟨ho, hc, hoInner, hcInner⟩ := hclass _ hpair
    set k := if b then d + 1 else d with hk
    have hle : depth ≤ k := by
      rw [hk]
      split <;> omega
    have hopen : stop k (.mark o) = none := by
      simpa [hoInner] using hquiet (.mark o) List.mem_cons_self k hle
    have hclose : stop (k + 1) (.mark c) = none := by
      have hmem : Token.mark c ∈ .mark o :: (inner ++ .mark c :: ts) :=
        List.mem_cons_of_mem _ (List.mem_append_right _ List.mem_cons_self)
      simpa [hcInner] using hquiet (.mark c) hmem k hle
    have hinside : Inside stop (k + 1) inner := ihinner
      (fun u hu => hquiet u (List.mem_cons_of_mem _ (List.mem_append_left _ hu))) hle
    have hrest := ih (fun u hu => hquiet u
      (List.mem_cons_of_mem _ (List.mem_append_right _ (List.mem_cons_of_mem _ hu)))) hd
    have hboth := (inside_brackets ho hc hopen hinside hclose).append hrest
    simpa using hboth

/-! ## Parts that are put together -/

theorem separatedBy_self (c : Char) : separatedBy c 0 (.mark c) = some [] := if_pos ⟨rfl, rfl⟩

theorem quiet_comma (ts : List Token) (depth : ℕ) : Quiet (separatedBy ',') depth ts := by
  intro t _ d _
  refine if_neg ?_
  rintro ⟨hdepth, rfl⟩
  have hinner : isInner (.mark ',') = true := rfl
  rw [hinner] at hdepth
  cases hdepth

theorem Nested.quiet_semicolon (h : Nested b ts) (depth : ℕ) : Quiet (separatedBy ';') depth ts :=
  fun _ ht _ _ => if_neg fun hsemicolon => h.ne_semicolon ht hsemicolon.2

/-- A part that ends here. -/
theorem parts_stop {kept : List Token} (h : Inside stop 0 ts) (hstop : stop 0 t = some kept)
    (rest : List Token) :
    parts stop 0 (ts ++ t :: rest) = (ts ++ kept) :: parts stop 0 rest := by
  rw [h, parts, hstop]
  rfl

theorem parts_last (h : Inside stop 0 ts) : parts stop 0 ts = [ts] := by
  have hrest := h []
  rw [List.append_nil] at hrest
  rw [hrest, parts]
  simp

/-- **What is put together with separators is found again.** -/
theorem parts_intercalate {tss : List (List Token)} (hne : tss ≠ [])
    (h : ∀ ts ∈ tss, Inside (separatedBy c) 0 ts) :
    parts (separatedBy c) 0 (List.intercalate [.mark c] tss) = tss := by
  induction tss with
  | nil => exact absurd rfl hne
  | cons ts tss ih =>
    have hts := h ts List.mem_cons_self
    cases tss with
    | nil =>
      rw [List.intercalate_singleton]
      exact parts_last hts
    | cons us tss =>
      have hrest := ih (List.cons_ne_nil _ _) fun us hus => h us (List.mem_cons_of_mem _ hus)
      rw [List.intercalate_cons_cons, List.append_assoc, List.singleton_append,
        parts_stop hts (separatedBy_self c), hrest, List.append_nil]

/-- **What ends in a mark each is found again**, with nothing behind the last mark. -/
theorem parts_terminated {tss : List (List Token)} (h : ∀ ts ∈ tss, Inside (separatedBy c) 0 ts) :
    parts (separatedBy c) 0 (tss.flatMap fun ts => ts ++ [Token.mark c]) = tss ++ [[]] := by
  induction tss with
  | nil => rfl
  | cons ts tss ih =>
    have hts := h ts List.mem_cons_self
    have hrest := ih fun us hus => h us (List.mem_cons_of_mem _ hus)
    rw [List.flatMap_cons, List.append_assoc, List.singleton_append,
      parts_stop hts (separatedBy_self c), hrest, List.append_nil]
    rfl

/-! ## Reading parts -/

variable {lang : Language} {cs : List Char} {css : List (List Char)} {tss : List (List Token)}

/-- A comma in front of what is read, and a space. -/
theorem Reads.cons_comma (h : Reads lang cs ts) : Reads lang (',' :: ' ' :: cs) (.mark ',' :: ts) :=
  .cons_mark (by cases lang <;> rfl) (.cons_space h)

/-- Brackets around what is read. -/
theorem Reads.wrap {o c : Char} (hpair : (o, c) ∈ bracketPairs) (h : Reads lang cs ts) :
    Reads lang (o :: (cs ++ [c])) (.mark o :: (ts ++ [Token.mark c])) := by
  have hpairs : ∀ pair ∈ bracketPairs, opening lang pair.1 = ([.mark pair.1], .between) ∧
      opening lang pair.2 = ([.mark pair.2], .between) ∧ isWordOf lang pair.2 = false ∧ pair.2 ≠ '"' := by
    cases lang <;> decide
  obtain ⟨hopen, hclose, hend⟩ := hpairs _ hpair
  exact .cons_mark hopen (h.append hend (.cons_mark hclose reads_nil))

/-- Parts are read part by part, if what stands between them is read as a mark. -/
theorem reads_intercalate {m : Char} {between : List Char} (hc : isWordOf lang c = false ∧ c ≠ '"')
    (hbetween : ∀ {cs ts}, Reads lang cs ts → Reads lang (c :: (between ++ cs)) (.mark m :: ts))
    (h : List.Forall₂ (Reads lang) css tss) :
    Reads lang (List.intercalate (c :: between) css) (List.intercalate [.mark m] tss) := by
  induction h with
  | nil => exact reads_nil
  | @cons cs ts css tss hcs htail ih =>
    cases htail with
    | nil =>
      rw [List.intercalate_singleton, List.intercalate_singleton]
      exact hcs
    | cons hds hmore =>
      rw [List.intercalate_cons_cons, List.intercalate_cons_cons, List.append_assoc, List.append_assoc]
      exact hcs.append hc (hbetween ih)

theorem reads_commas (h : List.Forall₂ (Reads lang) css tss) :
    Reads lang (List.intercalate [',', ' '] css) (List.intercalate [.mark ','] tss) :=
  reads_intercalate (by cases lang <;> decide) .cons_comma h

/-- Literals are read one by one, if what stands between them is read as a mark. -/
theorem reads_texts {m : Char} {between : List Char} (hc : isWordOf lang c = false ∧ c ≠ '"')
    (hbetween : ∀ {cs ts}, Reads lang cs ts → Reads lang (c :: (between ++ cs)) (.mark m :: ts))
    (values : List String) :
    Reads lang (List.intercalate (c :: between) (values.map fun v => quoteChars v.toList))
      (List.intercalate [.mark m] (values.map fun v => [.text v])) :=
  reads_intercalate hc hbetween (forall₂_map fun v _ => reads_text v)

/-- Some characters are read as tokens with closed brackets, wherever they stand. -/
def ReadsClosed (lang : Language) (b : Bool) (cs : List Char) : Prop :=
  ∃ ts, Nested b ts ∧ Reads lang cs ts

/-- The tokens of a text that is read so are the ones that it is read as. -/
theorem readsClosed_tokens {text : String} (h : ReadsClosed lang b text.toList) :
    Nested b (tokens lang text) ∧ Reads lang text.toList (tokens lang text) := by
  obtain ⟨ts, hnested, hreads⟩ := h
  rw [hreads.tokens_eq]
  exact ⟨hnested, hreads⟩

/-- So are parts with commas between them, with commas anywhere. -/
theorem readsClosed_intercalate (h : ∀ cs ∈ css, ReadsClosed lang false cs) :
    ReadsClosed lang true (List.intercalate [',', ' '] css) := by
  obtain ⟨tss, htss⟩ := exists_forall₂ h
  obtain ⟨hnested, hreads⟩ := (List.forall₂_and_left _ _).1 htss.flip
  exact ⟨_, .intercalate hnested, reads_commas hreads.flip⟩

/-! ## Readers -/

variable {Reader : Type} {take : Reader → Token → Option Reader} {r next : Reader}

/-- A reader goes on behind a token that it takes. -/
theorem foldlM_cons_of_some (h : take r t = some next) (ts : List Token) :
    (t :: ts).foldlM take r = ts.foldlM take next := by
  rw [List.foldlM_cons, h, Option.bind_eq_bind, Option.bind_some]

/-- A reader goes on behind tokens that it takes. -/
theorem foldlM_append_of_some (h : ts.foldlM take r = some next) (us : List Token) :
    (ts ++ us).foldlM take r = us.foldlM take next := by
  rw [List.foldlM_append, h, Option.bind_eq_bind, Option.bind_some]

end ApiCodegen.Text
