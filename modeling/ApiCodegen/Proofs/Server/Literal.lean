import ApiCodegen.Proofs.Markup.Value
import ApiCodegen.Proofs.Numeric.Text
import ApiCodegen.Server.Literal

/-!
# Literals of the server are read as a whole

* `itemChars_eq`, `entryChars_eq`: members are written with commas between them.
* `exists_reads_literalChars`: **an expression of a value has closed brackets, wherever it stands**, and
  it is no call of `Field`.
-/

namespace ApiCodegen.Server

open Markup (Entries Number Value)
open Text

theorem itemChars_eq (items : List Value) :
    itemChars items = List.intercalate [',', ' '] (items.map literalChars) :=
  eq_intercalate_map itemChars (by simp [itemChars]) (by simp [itemChars]) (by simp [itemChars]) items

/-- The characters of an entry. -/
def pairChars (entry : Value × Value) : List Char :=
  literalChars entry.1 ++ ':' :: ' ' :: literalChars entry.2

theorem entryChars_eq (entries : Entries) :
    entryChars entries = List.intercalate [',', ' '] (entries.map pairChars) :=
  eq_intercalate_map entryChars (by simp [entryChars]) (by simp [entryChars, pairChars])
    (by simp [entryChars, pairChars]) entries

/-- Some tokens are no call of `Field`. -/
def NoField (ts : List Token) : Prop := ts.head? ≠ some (.word "Field")

theorem exists_reads_number (n : Number) : ∃ ts, Nested false ts ∧ NoField ts ∧
    Reads .server (numberLiteral n).toList ts := by
  -- a call with the name of what is no finite number
  have hcall (name : String) : ∃ ts, Nested false ts ∧ NoField ts ∧
      Reads .server ("float".toList ++ '(' :: (quoteChars name.toList ++ [')'])) ts := by
    have htext : Nested true [.text name] := .singleton rfl
    exact ⟨_, .token rfl (htext.wrap (by decide)), by simp [NoField],
      .cons_word (by decide) (by decide) ((reads_text name).wrap (by decide))⟩
  unfold numberLiteral
  split
  · exact hcall "nan"
  · exact hcall "inf"
  · exact hcall "-inf"
  · obtain ⟨ts, hts, hreads⟩ := Numeric.exists_reads_number .server (Numeric.forall_number n)
    refine ⟨ts, hts.nested, fun hhead => ?_, hreads⟩
    have hletter := (hts _ (List.mem_of_head? hhead)).2 "Field" rfl 'F' (by decide)
    revert hletter
    decide

/-- **An expression of a value has closed brackets, wherever it stands**, and is no call of `Field`. -/
theorem exists_reads_literalChars (v : Value) : ∃ ts, Nested false ts ∧ NoField ts ∧
    Reads .server (literalChars v) ts := by
  have hname (name : String) (hident : Name.isIdentifier name.toList) (hne : name ≠ "Field") :
      ∃ ts, Nested false ts ∧ NoField ts ∧ Reads .server name.toList ts := by
    refine ⟨[.word name], .singleton rfl, fun hhead => hne ?_, reads_word hident⟩
    exact Token.word.inj (Option.some.inj hhead)
  induction v with
  | null =>
    rw [literalChars]
    exact hname "None" (by decide) (by decide)
  | bool b =>
    cases b with
    | true =>
      rw [literalChars]
      exact hname "True" (by decide) (by decide)
    | false =>
      rw [literalChars]
      exact hname "False" (by decide) (by decide)
  | number n =>
    rw [literalChars]
    exact exists_reads_number n
  | string s =>
    rw [literalChars]
    exact ⟨[.text s], .singleton rfl, by simp [NoField], reads_text s⟩
  | sequence items ih =>
    have hitems : ReadsClosed .server true (itemChars items) := by
      rw [itemChars_eq]
      refine readsClosed_intercalate fun cs hcs => ?_
      obtain ⟨v, hv, rfl⟩ := List.mem_map.1 hcs
      obtain ⟨ts, hnested, -, hreads⟩ := ih v hv
      exact ⟨ts, hnested, hreads⟩
    obtain ⟨ts, hnested, hreads⟩ := hitems
    rw [literalChars]
    exact ⟨_, hnested.wrap (by decide), by simp [NoField], hreads.wrap (by decide)⟩
  | mapping entries ih =>
    have hentries : ReadsClosed .server true (entryChars entries) := by
      rw [entryChars_eq]
      refine readsClosed_intercalate fun cs hcs => ?_
      obtain ⟨⟨k, v⟩, he, rfl⟩ := List.mem_map.1 hcs
      obtain ⟨⟨ks, hks, -, hkreads⟩, ⟨vs, hvs, -, hvreads⟩⟩ := ih _ he
      exact ⟨_, hks.append (.token rfl hvs),
        hkreads.append (by decide) (.cons_mark (by decide) (.cons_space hvreads))⟩
    obtain ⟨ts, hnested, hreads⟩ := hentries
    rw [literalChars]
    exact ⟨_, hnested.wrap (by decide), by simp [NoField], hreads.wrap (by decide)⟩
  | tagged tag inner ih =>
    rw [literalChars]
    exact ih

end ApiCodegen.Server
