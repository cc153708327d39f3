import ApiCodegen.Proofs.Client.Comment
import ApiCodegen.Proofs.Server.Docstring

/-!
# A description stays inside of what it is written in

A description may hold quotes, backslashes and the ends of comments, in runs of any length and at the ends of
lines. It is escaped first, then laid out in lines.

* `Server.LongLiteral`: a text is one literal in triple quotes.
* `Server.exists_longLiteral_docstring`: **a documentation string is one, at any indentation.**
* `Client.OneComment`: a text is one comment, which ends where the text does.
* `Client.exists_oneComment_comment`: **a comment is one, if it is not empty.**
* `descriptions_enclosed`: both, whatever is described.
-/

namespace ApiCodegen

open Text

variable {indent : String}

/-! ## Documentation strings -/

namespace Server

/-- **A text is one literal in triple quotes**: between the quotes no three quotes stand together, only
quotes and backslashes are escaped, and no quote is the last character. It is read as one token. -/
structure LongLiteral (cs : List Char) : Prop where
  content : ∃ content, Escaped 0 content ∧ content.getLast? ≠ some '"' ∧
    cs = ['"', '"', '"'] ++ content ++ ['"', '"', '"']
  read : ∃ value, ∀ rest, lex .server .between (cs ++ rest) = .text value :: lex .server .between rest

theorem longLiteral_of_escaped {content : List Char} (h : Escaped 0 content)
    (hlast : content.getLast? ≠ some '"') :
    LongLiteral (['"', '"', '"'] ++ content ++ ['"', '"', '"']) where
  content := ⟨content, h, hlast, rfl⟩
  read := by
    obtain ⟨value, hlex⟩ := h.lex hlast (.inl rfl) []
    refine ⟨String.ofList value, fun rest => ?_⟩
    have hopen (more : List Char) : lex .server .between ('"' :: '"' :: '"' :: more) =
        lex .server (.long [] 0) more := rfl
    have hclose : lex .server (.long value 0) ('"' :: '"' :: '"' :: rest) =
        .text (String.ofList value) :: lex .server .between rest := rfl
    simp only [List.append_assoc, List.cons_append, List.nil_append]
    rw [hopen, hlex, hclose]

/-- **A documentation string is one literal on lines of its own**, at any indentation. -/
theorem exists_longLiteral_docstring (hindent : ∀ b ∈ indent.toList, isBlank b) (description : String) :
    ∃ literal, LongLiteral literal ∧
      (ofLines (docstring indent description)).toList = indent.toList ++ literal ++ ['\n'] := by
  obtain ⟨content, hescaped, hlast, hchars⟩ := exists_escaped_docstring hindent description
  exact ⟨_, longLiteral_of_escaped hescaped hlast, by simp [hchars]⟩

end Server

/-! ## Comments -/

namespace Client

/-- **A text is one comment**: it starts as a comment, and what ends a comment stands at its end and nowhere
before. It is read as nothing. -/
structure OneComment (cs : List Char) : Prop where
  opens : ['/', '*'] <+: cs
  closes : ['*', '/'] <:+ cs
  ends : ∀ front back, cs = front ++ '*' :: '/' :: back → back = []
  read : ∀ rest, lex .client .between (cs ++ rest) = lex .client .between rest

theorem oneComment_of_unended {inside : List Char} (h : Unended ('*' :: inside)) :
    OneComment ('/' :: '*' :: '*' :: (inside ++ [' ', '*', '/'])) where
  opens := ⟨'*' :: (inside ++ [' ', '*', '/']), rfl⟩
  closes := ⟨'/' :: '*' :: '*' :: (inside ++ [' ']), by simp⟩
  ends := by
    intro front back hend
    -- all but the last slash is a text in which no comment ends
    have hspace : Unended [' ', '*'] := unended_of_not_mem (by decide)
    have hall : Unended ('/' :: '*' :: '*' :: (inside ++ [' ', '*'])) :=
      unended_cons (by decide) (unended_star (by decide) (h.append hspace (by decide)))
    exact hall.eq_nil_of_end (by simpa using hend)
  read := by
    intro rest
    have hread := lex_comment_between h rest
    simpa using hread

/-- **A comment is empty, or one comment on lines of its own**, at any indentation. -/
theorem exists_oneComment_comment (hindent : ∀ b ∈ indent.toList, isBlank b) (description : Option String)
    (constraints : Constraints) : comment description constraints = [] ∨ ∃ cs, OneComment cs ∧
      (ofLines ((comment description constraints).map (indent ++ ·))).toList =
        indent.toList ++ cs ++ ['\n'] := by
  refine (exists_unended_commentOf (fun _ => hindent) fun _ => unended_commentLine).imp_right ?_
  rintro ⟨-, inside, hinside, hchars⟩
  exact ⟨_, oneComment_of_unended hinside, by simpa [comment] using hchars⟩

end Client

/-! ## Whatever is described -/

/-- **No description escapes from what it is written in**: a documentation string is one literal, and a
comment is empty or one comment, on lines of their own and at any indentation. -/
theorem descriptions_enclosed (indent : String) (hindent : ∀ b ∈ indent.toList, isBlank b) :
    (∀ description, ∃ literal, Server.LongLiteral literal ∧
      (ofLines (Server.docstring indent description)).toList = indent.toList ++ literal ++ ['\n']) ∧
    ∀ description constraints,
      let text := (ofLines ((Client.comment description constraints).map (indent ++ ·))).toList
      text = [] ∨ ∃ cs, Client.OneComment cs ∧ text = indent.toList ++ cs ++ ['\n'] := by
  refine ⟨Server.exists_longLiteral_docstring hindent, fun description constraints => ?_⟩
  refine (Client.exists_oneComment_comment hindent description constraints).imp_left fun hnil => ?_
  rw [hnil]
  rfl

/-- Quotes and a backslash at the end of a line, a quote at the end of the text; and ends of comments that
overlap, and one of which half stands in each of two lines. -/
theorem descriptions_enclosed_runs :
    (∃ literal, Server.LongLiteral literal ∧ "\t".toList ++ literal ++ ['\n'] =
      "\t\"\"\"\\\"\\\"\\\"\"\\\\\n\ta\"\n\t\"\"\"\n".toList) ∧
    ∃ cs, Client.OneComment cs ∧ "\t".toList ++ cs ++ ['\n'] =
      "\t/**\n\t * **\\/*\\/*\n\t * /\n\t * @minLength 1\n\t */\n".toList := by
  have htab : ∀ b ∈ "\t".toList, isBlank b := by
    intro b hb
    obtain rfl : b = '\t' := by simpa using hb
    rfl
  obtain ⟨hliteral, hcomment⟩ := descriptions_enclosed "\t" htab
  constructor
  · obtain ⟨literal, hlong, htext⟩ := hliteral "\"\"\"\"\\\na\""
    refine ⟨literal, hlong, htext.symm.trans ?_⟩
    decide +kernel
  · have hchars : (ofLines ((Client.comment (some "**/*/*\n/") { minLength := some 1 }).map ("\t" ++ ·))).toList =
        "\t/**\n\t * **\\/*\\/*\n\t * /\n\t * @minLength 1\n\t */\n".toList := by
      decide +kernel
    rcases hcomment (some "**/*/*\n/") { minLength := some 1 } with hnil | ⟨cs, hone, htext⟩
    · rw [hchars] at hnil
      cases hnil
    · exact ⟨cs, hone, htext.symm.trans hchars⟩

end ApiCodegen
