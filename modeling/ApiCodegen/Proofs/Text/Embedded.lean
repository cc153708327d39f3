import ApiCodegen.Proofs.Text.Escape

/-!
# The literals of a text

A line of a generated file has literals in it, with something else between them. They are found from left to
right, and each is read by the rules of its language.

* `literals`: what the literals of a text mean, in order.
* `Embeds`: **the literals of a part of a text**, in front of whatever follows.
* `embeds_quoteChars`, `embeds_plain`: a quoted text is one literal, and a part without quotes has none.
* `Embeds.append`, `embeds_intercalate`: parts are read one after the other.
-/

namespace ApiCodegen.Text

/-- What the literals of a text mean, outside of a literal, or inside of one of which some units are
known. -/
def literalsFrom (lang : Language) : Option (Cursor × List ℕ) → List Char → Option (List String)
  | none, [] => some []
  | some _, [] => none
  | none, c :: rest =>
    if c = '"' then
      if lang = .server ∧ ['"', '"'] <+: rest then none else literalsFrom lang (some (.plain, [])) rest
    else literalsFrom lang none rest
  | some (cursor, us), c :: rest =>
    (decodeStep lang cursor c).bind fun step =>
      if step.2 = .closed then
        (ofUnits? lang (us ++ step.1)).bind fun cs =>
          (literalsFrom lang none rest).map (String.ofList cs :: ·)
      else literalsFrom lang (some (step.2, us ++ step.1)) rest

/-- **What the literals of a text mean**, in order, if all of them can be read. -/
def literals (lang : Language) (text : String) : Option (List String) :=
  literalsFrom lang none text.toList

variable {lang : Language} {cs ds rest : List Char} {texts more : List String}

/-- A literal is read up to its end. -/
theorem literalsFrom_decode {cursor : Cursor} {us vs : List ℕ} (h : decode lang cursor cs = some (vs, rest)) :
    literalsFrom lang (some (cursor, us)) cs =
      (ofUnits? lang (us ++ vs)).bind fun text =>
        (literalsFrom lang none rest).map (String.ofList text :: ·) := by
  induction cs generalizing cursor us vs with
  | nil => cases h
  | cons c cs ih =>
    rw [decode] at h
    rw [literalsFrom]
    obtain ⟨⟨ws, next⟩, hstep, hmore⟩ := Option.bind_eq_some_iff.1 h
    rw [hstep, Option.bind_some]
    dsimp only at hmore ⊢
    split_ifs at hmore ⊢ with hclosed
    · obtain ⟨rfl, rfl⟩ := Prod.mk.inj (Option.some.inj hmore)
      rfl
    · obtain ⟨⟨more, behind⟩, hdecode, heq⟩ := Option.map_eq_some_iff.1 hmore
      obtain ⟨rfl, rfl⟩ := Prod.mk.inj heq
      rw [ih hdecode, List.append_assoc]

/-- **The literals of a part of a text**, in front of whatever is no quote. -/
def Embeds (lang : Language) (cs : List Char) (texts : List String) : Prop :=
  ∀ rest : List Char, rest.head? ≠ some '"' →
    literalsFrom lang none (cs ++ rest) = (literalsFrom lang none rest).map (texts ++ ·)

/-- **A quoted text is one literal.** -/
theorem embeds_quoteChars (cs : List Char) : Embeds lang (quoteChars cs) [String.ofList cs] := by
  intro rest hrest
  have hopen : literalsFrom lang none (quoteChars cs ++ rest) =
      literalsFrom lang (some (.plain, [])) (cs.flatMap escapeChar ++ '"' :: rest) := by
    rw [quoteChars, List.cons_append, List.append_assoc, List.singleton_append, literalsFrom, if_pos rfl,
      if_neg fun hlong => not_quotes_prefix cs hrest hlong.2]
  rw [hopen, literalsFrom_decode (decode_flatMap cs rest), List.nil_append, ofUnits?_units,
    Option.bind_some]
  rfl

theorem embeds_quote (s : String) : Embeds lang (quote s).toList [s] := by
  have hchars : Embeds lang (quoteChars s.toList) [String.ofList s.toList] := embeds_quoteChars s.toList
  rw [String.ofList_toList] at hchars
  rwa [quote, String.toList_ofList]

/-- **A part without quotes has no literals**, whatever follows it. -/
theorem literalsFrom_plain (h : '"' ∉ cs) (rest : List Char) :
    literalsFrom lang none (cs ++ rest) = literalsFrom lang none rest := by
  induction cs with
  | nil => rfl
  | cons c cs ih =>
    have hc : c ≠ '"' := fun hc => h (hc ▸ List.mem_cons_self)
    rw [List.cons_append, literalsFrom, if_neg hc, ih fun hmem => h (List.mem_cons_of_mem _ hmem)]

theorem embeds_plain (h : '"' ∉ cs) : Embeds lang cs [] := by
  intro rest _
  rw [literalsFrom_plain h]
  exact Option.map_id'.symm

/-- Parts are read one after the other, if the second one starts with no quote. -/
theorem Embeds.append (h : Embeds lang cs texts) (hmore : Embeds lang ds more)
    (hhead : ds.head? ≠ some '"') : Embeds lang (cs ++ ds) (texts ++ more) := by
  intro rest hrest
  have hboth : (ds ++ rest).head? ≠ some '"' := by
    cases ds with
    | nil => exact hrest
    | cons d ds => exact hhead
  rw [List.append_assoc, h _ hboth, hmore _ hrest, Option.map_map]
  congr 1
  funext all
  exact (List.append_assoc _ _ _).symm

/-- A part without quotes may stand in front of anything. -/
theorem Embeds.behind (h : Embeds lang ds more) (cs : List Char) (hcs : '"' ∉ cs) :
    Embeds lang (cs ++ ds) more := by
  intro rest hrest
  rw [List.append_assoc, literalsFrom_plain hcs, h _ hrest]

/-- It may stand behind anything. -/
theorem Embeds.before (h : Embeds lang cs texts) (ds : List Char) (hds : '"' ∉ ds) :
    Embeds lang (cs ++ ds) texts := by
  have hhead : ds.head? ≠ some '"' := fun hhead => hds (List.mem_of_mem_head? hhead)
  have happend := h.append (embeds_plain hds) hhead
  rwa [List.append_nil] at happend

/-- **Parts with something between them that has no quotes are read one after the other.** -/
theorem embeds_intercalate (separator : List Char) (hquote : '"' ∉ separator) (hne : separator ≠ [])
    {parts : List (List Char)} {means : List (List String)} (h : List.Forall₂ (Embeds lang) parts means) :
    Embeds lang (List.intercalate separator parts) means.flatten := by
  induction h with
  | nil => exact embeds_plain List.not_mem_nil
  | @cons part mean parts means hfirst hall ih =>
    cases hall with
    | nil => simpa using hfirst
    | @cons next _ rest _ _ _ =>
      have hhead : (separator ++ List.intercalate separator (next :: rest)).head? ≠ some '"' := by
        rw [List.head?_append_of_ne_nil _ hne]
        exact fun h => hquote (List.mem_of_mem_head? h)
      rw [List.intercalate_cons_cons, List.append_assoc, List.flatten_cons]
      exact hfirst.append (ih.behind separator hquote) hhead

theorem embeds_map {α : Type} (separator : List Char) (hquote : '"' ∉ separator) (hne : separator ≠ [])
    {as : List α} {f : α → List Char} {g : α → List String} (h : ∀ a ∈ as, Embeds lang (f a) (g a)) :
    Embeds lang (List.intercalate separator (as.map f)) (as.flatMap g) := by
  rw [List.flatMap_def]
  exact embeds_intercalate separator hquote hne (forall₂_map h)

/-- The literals of a text that stands on its own. -/
theorem Embeds.literals_eq {text : String} (h : Embeds lang text.toList texts) :
    literals lang text = some texts := by
  have halone := h [] (by simp)
  rw [List.append_nil] at halone
  rw [literals, halone, literalsFrom, Option.map_some, List.append_nil]

end ApiCodegen.Text
