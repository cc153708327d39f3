import ApiCodegen.Proofs.Plan.Collision
import ApiCodegen.Proofs.Server.AliasOrder

/-!
# Aliases are evaluated from top to bottom

The order of aliases follows their schemas, and the file has the text of their values. The text mentions
less: an inline object is written without its properties, so what only these refer to is not mentioned,
yet the order goes by it. An alias that leads to itself in this way only is defined as if it did.

* `Alias.Mentions`: the text of an alias names another one.
* `ModelsFile.lines_of_before`: what stands earlier in the order is written earlier.
* `ModelsFile.defined_behind_mentioned`: **every alias is defined behind what it mentions**, unless that
  leads back to it or is taken for a built-in type.
* `ModelsFile.not_defined_behind_mentioned`: two aliases, of which one mentions the other and nothing
  mentions it, that are defined the wrong way round.
-/

namespace ApiCodegen.Server

variable {all : List Alias} {a b : Alias}

namespace Alias

/-- The value of an alias, as it is written, has the name of another one among its words. -/
def Mentions (a b : Alias) : Prop := b.name ∈ Text.words (TypeExpr.ofSchema a.schema).render

/-- What is mentioned is built in, or referred to. -/
theorem Mentions.refersTo (h : a.Mentions b) (hb : b ∈ all) :
    b.name ∈ vocabulary ∨ a.RefersTo all b := by
  rw [Mentions, TypeExpr.words_ofSchema] at h
  exact (TypeExpr.names_ofSchema h).imp_right fun hname => ⟨hb, hname⟩

end Alias

namespace ModelsFile

variable {declarations : List Declaration} {file : ModelsFile}

/-- Declarations with distinct names give aliases with distinct names. -/
theorem nodup_names_aliases (hn : (declarations.map Declaration.name).Nodup) :
    ((declarations.filterMap aliasOf?).map Alias.name).Nodup := by
  rw [names_aliases]
  exact hn.sublist (List.filter_sublist.map Declaration.name)

/-- The lines of the aliases stand together, in order. -/
theorem exists_lines_eq {before after : List Alias} (hsplit : file.aliases = before ++ a :: after) :
    ∃ front back, file.lines =
      front ++ (before.flatMap Alias.lines ++ (a.lines ++ after.flatMap Alias.lines) ++ back) := by
  have hall : file.aliases.flatMap Alias.lines =
      before.flatMap Alias.lines ++ (a.lines ++ after.flatMap Alias.lines) := by
    rw [hsplit, List.flatMap_append, List.flatMap_cons]
  have hne : a.lines ≠ [] := List.append_ne_nil_of_right_ne_nil _ (List.cons_ne_nil _ _)
  have hsome : file.aliases.flatMap Alias.lines ≠ [] := by simp [hall, hne]
  rw [← hall]
  unfold lines
  generalize file.aliases.flatMap Alias.lines = definitions at hsome ⊢
  cases definitions with
  | nil => exact absurd rfl hsome
  | cons line more =>
    have happart : apart (line :: more) = ["", ""] ++ line :: more := rfl
    rw [happart, ← List.append_assoc _ ["", ""], List.append_assoc _ (line :: more)]
    exact ⟨_, _, rfl⟩

/-- The lines of an alias follow those of an alias that stands before it. -/
theorem lines_of_before (h : b.Before file.aliases a) :
    ∃ front back, file.lines = front ++ (a.lines ++ back) ∧ b.lines <:+: front := by
  obtain ⟨before, after, hsplit, hb⟩ := h
  obtain ⟨front, back, hfile⟩ := exists_lines_eq hsplit
  rw [List.append_assoc, List.append_assoc, ← List.append_assoc] at hfile
  refine ⟨_, _, hfile, List.IsInfix.trans ?_ (List.suffix_append _ _).isInfix⟩
  obtain ⟨u, v, rfl⟩ := List.append_of_mem hb
  rw [List.flatMap_append, List.flatMap_cons]
  exact ⟨_, _, List.append_assoc _ _ _⟩

/-- **Every alias is defined once, and behind what its value mentions** unless that leads back to it.

* An alias that mentions another one refers to it, or takes its name for that of a built-in type. If it
  refers to it, it is defined behind it, or the other one leads back to it.
* What is defined earlier is written earlier.
* Where the other one leads back, there is an order of declaration in which it is defined too late. -/
theorem defined_behind_mentioned {doc : Document} (h : doc.declarations = .ok declarations) :
    let all := declarations.filterMap aliasOf?
    let file := ofDeclarations declarations
    file.aliases.Perm all ∧
    (∀ a ∈ file.aliases, ∀ b ∈ file.aliases, a.Mentions b →
      (b.name ∈ vocabulary ∧ ¬ a.RefersTo all b) ∨ b.LeadsTo all a ∨ b.Before file.aliases a) ∧
    (∀ a b : Alias, b.Before file.aliases a →
      ∃ front back, file.lines = front ++ (a.lines ++ back) ∧ b.lines <:+: front) ∧
    (∀ a b : Alias, b ∈ all → b.LeadsTo all a →
      ∃ other : List Alias, other.Perm all ∧ ¬ b.Before (aliasOrder other) a) := by
  intro all file
  have hn : (all.map Alias.name).Nodup := nodup_names_aliases (Document.nodup_names_declarations h)
  have hperm : file.aliases.Perm all := aliasOrder_perm hn
  refine ⟨hperm, fun a ha b hb hmention => ?_, fun _ _ => lines_of_before,
    fun _ _ => exists_not_before_aliasOrder hn⟩
  by_cases hr : a.RefersTo all b
  · by_cases hback : b.LeadsTo all a
    · exact .inr (.inl hback)
    · exact .inr (.inr (before_aliasOrder hn (hperm.mem_iff.1 ha) hr hback))
  · have hbuiltin := (hmention.refersTo (hperm.mem_iff.1 hb)).resolve_right hr
    exact .inl ⟨hbuiltin, hr⟩

/-! ## Shelves and books -/

/-- Books have titles. -/
def book : Alias := ⟨"Book", none, .primitive .string none⟩

/-- A shelf is a list of books. -/
def shelf : Alias := ⟨"Shelf", none, .array (.nullable (.reference "Book"))⟩

/-- A library is a list of shelves. -/
def library : Alias := ⟨"Library", none, .array (.reference "Shelf")⟩

/-- A library, what stands in it, and what stands in that. -/
def libraryDocument : Document where
  components := [library, shelf, book].map fun a => ⟨a.name, a.description, a.schema⟩

/-- The declarations of `libraryDocument`. -/
def libraryDeclarations : List Declaration :=
  libraryDocument.components.map Declaration.ofComponent

/-- Books are defined before shelves and shelves before the library, which is declared first. -/
theorem defined_behind_mentioned_library : libraryDocument.declarations = .ok libraryDeclarations ∧
    book.Before (ofDeclarations libraryDeclarations).aliases shelf ∧
    shelf.Before (ofDeclarations libraryDeclarations).aliases library := by
  have hd : libraryDocument.declarations = .ok libraryDeclarations := by rfl
  have hall : libraryDeclarations.filterMap aliasOf? = [library, shelf, book] := by rfl
  obtain ⟨hperm, hbehind, -, -⟩ := defined_behind_mentioned hd
  rw [hall] at hperm hbehind
  have hmem (a : Alias) (ha : a ∈ [library, shelf, book]) :
      a ∈ (ofDeclarations libraryDeclarations).aliases := hperm.mem_iff.2 ha
  have hmention (a b : Alias) (h : b.name ∈ (TypeExpr.ofSchema a.schema).names) : a.Mentions b := by
    rwa [Alias.Mentions, TypeExpr.words_ofSchema]
  -- a book refers to nothing, and a shelf to books only
  have hbook : ¬ book.LeadsTo [library, shelf, book] shelf := fun h =>
    absurd (h.name_mem (by decide +kernel) (by simp) (List.mem_singleton_self "Book")) (by decide)
  have hshelf : ¬ shelf.LeadsTo [library, shelf, book] library := fun h =>
    absurd (h.name_mem (by decide +kernel) (by simp) (by decide : shelf.name ∈ ["Shelf", "Book"]))
      (by decide)
  refine ⟨hd, ?_, ?_⟩
  · have hsplit := hbehind shelf (hmem _ (by simp)) book (hmem _ (by simp))
      (hmention _ _ (by decide +kernel))
    exact (hsplit.resolve_left fun hv => absurd hv.1 (by decide)).resolve_left hbook
  · have hsplit := hbehind library (hmem _ (by simp)) shelf (hmem _ (by simp))
      (hmention _ _ (by decide +kernel))
    exact (hsplit.resolve_left fun hv => absurd hv.1 (by decide)).resolve_left hshelf

/-- Books are lists of pages. -/
def books : Alias := ⟨"Books", none, .array (.reference "Pages")⟩

/-- Pages are objects that refer to books. The value of the alias does not mention them. -/
def pages : Alias :=
  ⟨"Pages", none, .array (.object [⟨"next", .reference "Books", none, none, {}⟩] [])⟩

/-- Pages, and books of them. -/
def pagesDocument : Document where
  components := [pages, books].map fun a => ⟨a.name, a.description, a.schema⟩

/-- The declarations of `pagesDocument`. -/
def pagesDeclarations : List Declaration := pagesDocument.components.map Declaration.ofComponent

/-- Books mention pages, nothing else is mentioned, and books are defined before pages. -/
theorem not_defined_behind_mentioned : pagesDocument.declarations = .ok pagesDeclarations ∧
    (∀ a ∈ (ofDeclarations pagesDeclarations).aliases, ¬ Relation.TransGen
      (fun c d => c ∈ (ofDeclarations pagesDeclarations).aliases ∧
        d ∈ (ofDeclarations pagesDeclarations).aliases ∧ c.Mentions d) a a) ∧
    books ∈ (ofDeclarations pagesDeclarations).aliases ∧
    pages ∈ (ofDeclarations pagesDeclarations).aliases ∧ books.Mentions pages ∧
    ¬ pages.Before (ofDeclarations pagesDeclarations).aliases books := by
  have hd : pagesDocument.declarations = .ok pagesDeclarations := by rfl
  have horder : (ofDeclarations pagesDeclarations).aliases = [books, pages] := by rfl
  have hmention (a b : Alias) : a.Mentions b ↔ b.name ∈ (TypeExpr.ofSchema a.schema).names := by
    rw [Alias.Mentions, TypeExpr.words_ofSchema]
  rw [horder]
  refine ⟨hd, fun a ha hcycle => ?_, List.mem_cons_self, by simp, ?_, ?_⟩
  · have hbooks : ∀ c ∈ [books, pages], ¬ c.Mentions books := by
      simp only [hmention]
      decide +kernel
    have hpages : ∀ d ∈ [books, pages], ¬ pages.Mentions d := by
      simp only [hmention]
      decide +kernel
    rcases List.mem_cons.1 ha with rfl | ha
    · obtain ⟨c, -, hc, -, hlast⟩ := Relation.TransGen.tail'_iff.1 hcycle
      exact hbooks c hc hlast
    · obtain rfl := List.mem_singleton.1 ha
      obtain ⟨d, ⟨-, hd, hfirst⟩, -⟩ := Relation.TransGen.head'_iff.1 hcycle
      exact hpages d hd hfirst
  · rw [hmention]
    decide +kernel
  · have hnodup : [books, pages].Nodup := by simp [books, pages]
    have hbefore : books.Before [books, pages] pages := ⟨[books], [], rfl, List.mem_cons_self⟩
    exact hbefore.asymm hnodup

end ModelsFile

end ApiCodegen.Server
