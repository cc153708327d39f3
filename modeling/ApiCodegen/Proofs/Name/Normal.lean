import ApiCodegen.Proofs.Name.Legal

/-!
# Names that are made of names

A name is made of a text where something is declared, and again wherever it is referred to. What was made
already may be made once more, so it must be kept.

* `Spelled`: **the texts that are spelled as identifiers.**
* `spelled_iff`, `legal_iff`: identifiers and legal names in these words.
* `Normalizes`: **a maker of names**: what it makes is spelled as an identifier and kept, and it is known what
  else is kept.
* `Normalizes.of_kept`: that follows if some texts are all kept, and nothing else is made.
* `names_normal`: **all that make names of the two languages do so.**
-/

namespace ApiCodegen.Name

variable {text : String} {reserved : List String} {kept : String → Prop} {make : String → String}

/-- **A text that is spelled as an identifier**: it matches `[A-Za-z_][A-Za-z0-9_]*`. -/
def Spelled (text : String) : Prop :=
  ∃ c rest, text.toList = c :: rest ∧ (c.isAlpha ∨ c = '_') ∧ ∀ d ∈ rest, d.isAlpha ∨ d.isDigit ∨ d = '_'

theorem isWordChar_iff {c : Char} : isWordChar c ↔ c.isAlpha ∨ c.isDigit ∨ c = '_' := by
  simp only [isWordChar, Char.isAlphanum, Bool.or_eq_true, beq_iff_eq, or_assoc]

/-- A word character is a digit, or can stand at the start of an identifier. -/
theorem isDigit_eq_false_iff {c : Char} (hc : isWordChar c) : c.isDigit = false ↔ c.isAlpha ∨ c = '_' := by
  have h := forall_isWordChar (fun c => (c.isAlpha || c == '_') != c.isDigit) (by decide +kernel) hc
  cases hdigit : c.isDigit <;> simpa [hdigit] using h

theorem spelled_iff : Spelled text ↔ isIdentifier text.toList := by
  rw [isIdentifier_iff]
  constructor
  · rintro ⟨c, rest, htext, hc, hrest⟩
    have hword : isWordChar c := isWordChar_iff.2 (hc.imp_right .inr)
    rw [htext]
    refine ⟨List.cons_ne_nil c rest, ?_,
      List.forall_mem_cons.2 ⟨hword, fun d hd => isWordChar_iff.2 (hrest d hd)⟩⟩
    rintro d ⟨⟩
    exact (isDigit_eq_false_iff hword).2 hc
  · rintro ⟨hne, hhead, hall⟩
    obtain ⟨c, rest, htext⟩ := List.exists_cons_of_ne_nil hne
    rw [htext] at hhead hall
    obtain ⟨hc, hrest⟩ := List.forall_mem_cons.1 hall
    exact ⟨c, rest, htext, (isDigit_eq_false_iff hc).1 (hhead c rfl), fun d hd => isWordChar_iff.1 (hrest d hd)⟩

theorem legal_iff : Legal reserved text ↔ Spelled text ∧ text ∉ reserved := by
  rw [Legal, spelled_iff]

/-- **A maker of names**: what it makes is spelled as an identifier, and is kept when it is made once more. Of
all texts it keeps these. -/
structure Normalizes (kept : String → Prop) (make : String → String) : Prop where
  spelled : ∀ text, Spelled (make text)
  twice : ∀ text, make (make text) = make text
  kept_iff : ∀ text, make text = text ↔ kept text

/-- It is enough that some texts are kept, and that nothing else is made. -/
theorem Normalizes.of_kept (hspelled : ∀ text, kept text → Spelled text) (hmade : ∀ text, kept (make text))
    (hkept : ∀ text, kept text → make text = text) : Normalizes kept make where
  spelled text := hspelled _ (hmade text)
  twice text := hkept _ (hmade text)
  kept_iff text := ⟨fun h => h ▸ hmade text, hkept text⟩

theorem normalizes_sanitize : Normalizes Spelled sanitize :=
  .of_kept (fun _ h => h) (fun text => spelled_iff.2 (isIdentifier_sanitize text))
    (fun _ h => sanitize_eq_iff.2 (spelled_iff.1 h))

theorem normalizes_declaration : Normalizes Spelled declaration :=
  .of_kept (fun _ h => h) (fun text => spelled_iff.2 (isIdentifier_declaration text))
    (fun _ h => declaration_of_isIdentifier (spelled_iff.1 h))

/-- A name behind a `_` that keeps it from being reserved is not reserved itself. -/
theorem normalizes_avoid (hr : Plain reserved) :
    Normalizes (fun text => Spelled text ∧ text ∉ reserved) fun text => avoid reserved (sanitize text) :=
  .of_kept (fun _ h => h.1) (fun text => legal_iff.1 (legal_avoid hr text))
    (fun _ h => avoid_of_legal (legal_iff.2 h))

/-- **All that make names make identifiers, and make them once**, of every text.

* Identifiers and names of types are made of all texts, and texts that are spelled as identifiers are kept.
* Names of the server files and of the client files are made so that they are not reserved, and texts that are
  spelled as identifiers and not reserved are kept.
* Nothing else is kept. -/
theorem names_normal : Normalizes Spelled sanitize ∧
    Normalizes (fun text => Spelled text ∧ text ∉ serverReserved) server ∧
    Normalizes (fun text => Spelled text ∧ text ∉ clientReserved) client ∧
    Normalizes Spelled declaration :=
  ⟨normalizes_sanitize, normalizes_avoid plain_server, normalizes_avoid plain_client, normalizes_declaration⟩

example : client "delete" = "delete_" ∧ client "delete_" = "delete_" ∧
    declaration "2-ß" = "_2" := by decide +kernel

end ApiCodegen.Name
