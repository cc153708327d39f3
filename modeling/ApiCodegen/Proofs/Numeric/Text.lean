import ApiCodegen.Markup.Value
import ApiCodegen.Proofs.Text.Bracket

/-!
# The texts of numbers

* `isNumberChar`: the characters that texts of numbers use.
* `forall_text`, `forall_bound`: **every text of a number consists of them.**
* `exists_reads_number`: **so it is read the same wherever it stands**, as words and plain marks.
-/

namespace ApiCodegen.Numeric

open Markup (Number)
open Text

/-- The characters of texts of numbers: those of digits, signs, points and exponents, and those of the
names of what is no finite number. -/
def isNumberChar (c : Char) : Bool := c.isDigit || "-.einfNa".toList.contains c

variable {c : Char} {cs digits : List Char} {layout : Layout}

theorem isNumberChar_of_isDigit (h : c.isDigit) : isNumberChar c := by
  rw [isNumberChar, h, Bool.true_or]

theorem forall_nat (n : ℕ) (hc : c ∈ (toString n).toList) : isNumberChar c :=
  isNumberChar_of_isDigit (Name.isDigit_of_mem_toString hc)

theorem forall_int (n : ℤ) (hc : c ∈ (toString n).toList) : isNumberChar c := by
  cases n with
  | ofNat n => exact forall_nat n hc
  | negSucc n =>
    have htext : (toString (Int.negSucc n)).toList = '-' :: (toString (n + 1)).toList := by
      simp [toString, Int.repr]
    rw [htext] at hc
    rcases List.mem_cons.1 hc with rfl | hc
    · rfl
    · exact forall_nat _ hc

theorem forall_positional (hdigits : ∀ c ∈ digits, isNumberChar c) (point : ℤ) :
    ∀ c ∈ layout.positional digits point, isNumberChar c := by
  intro c hc
  have hzero (n : ℕ) (h : c ∈ List.replicate n '0') : isNumberChar c := by
    rw [List.eq_of_mem_replicate h]
    rfl
  unfold Layout.positional at hc
  dsimp only at hc
  split at hc
  · rcases List.mem_cons.1 hc with rfl | hc
    · rfl
    rcases List.mem_cons.1 hc with rfl | hc
    · rfl
    rcases List.mem_append.1 hc with hc | hc
    · exact hzero _ hc
    · exact hdigits c hc
  · split at hc
    · rcases List.mem_append.1 hc with hc | hc
      · rcases List.mem_append.1 hc with hc | hc
        · exact hdigits c hc
        · exact hzero _ hc
      · split at hc
        · rcases List.mem_cons.1 hc with rfl | hc
          · rfl
          · rw [List.mem_singleton.1 hc]
            rfl
        · exact absurd hc List.not_mem_nil
    · rcases List.mem_append.1 hc with hc | hc
      · exact hdigits c (List.mem_of_mem_take hc)
      · rcases List.mem_cons.1 hc with rfl | hc
        · rfl
        · exact hdigits c (List.mem_of_mem_drop hc)

theorem forall_scientific (hdigits : ∀ c ∈ digits, isNumberChar c) (point : ℤ) :
    ∀ c ∈ Layout.scientific digits point, isNumberChar c := by
  intro c hc
  unfold Layout.scientific at hc
  rcases List.mem_append.1 hc with hc | hc
  · match digits, hdigits, hc with
    | [], _, hc => exact absurd hc List.not_mem_nil
    | [d], hdigits, hc => exact hdigits c hc
    | d :: e :: digits, hdigits, hc =>
      rcases List.mem_cons.1 hc with rfl | hc
      · exact hdigits _ List.mem_cons_self
      rcases List.mem_cons.1 hc with rfl | hc
      · rfl
      · exact hdigits c (List.mem_cons_of_mem _ hc)
  · rcases List.mem_cons.1 hc with rfl | hc
    · rfl
    · exact forall_int _ hc

theorem forall_magnitude (v : Magnitude) : ∀ c ∈ layout.magnitude v, isNumberChar c := by
  intro c hc
  unfold Layout.magnitude at hc
  have hdigits (d : ℕ) : ∀ c ∈ Nat.toDigits 10 d, isNumberChar c := fun c hc =>
    isNumberChar_of_isDigit (Nat.isDigit_of_mem_toDigits (by decide) (by decide) hc)
  split at hc
  · have hzero : (if layout.pointZero then ['0', '.', '0'] else ['0']).all isNumberChar := by
      split <;> decide
    exact List.all_eq_true.1 hzero c hc
  · dsimp only at hc
    split at hc
    · split at hc
      · exact forall_positional (hdigits _) _ c hc
      · exact forall_scientific (hdigits _) _ c hc
    · exact forall_positional (hdigits _) _ c hc

/-- **The text of a number consists of characters of numbers**, in both layouts. -/
theorem forall_text (hlayout : layout ∈ [document, plain]) (x : Binary64) :
    ∀ c ∈ (layout.text x).toList, isNumberChar c := by
  have hnames : layout.nan.toList.all isNumberChar ∧ layout.infinity.toList.all isNumberChar ∧
      layout.negativeInfinity.toList.all isNumberChar := by
    have hcases : layout = document ∨ layout = plain := by simpa using hlayout
    rcases hcases with rfl | rfl <;> decide
  match x with
  | .nan => exact List.all_eq_true.1 hnames.1
  | .infinity false => exact List.all_eq_true.1 hnames.2.1
  | .infinity true => exact List.all_eq_true.1 hnames.2.2
  | .finite negative v =>
    intro c hc
    rw [Layout.text, String.toList_ofList] at hc
    split at hc
    · rcases List.mem_cons.1 hc with rfl | hc
      · rfl
      · exact forall_magnitude v c hc
    · exact forall_magnitude v c hc

theorem forall_number (n : Number) : ∀ c ∈ n.text.toList, isNumberChar c := by
  cases n with
  | whole n => exact fun c hc => forall_int n hc
  | real x => exact forall_text List.mem_cons_self x

/-- So does the text of a bound. -/
theorem forall_bound (x : Binary64) : ∀ c ∈ (bound x).toList, isNumberChar c := by
  have hplain := forall_text (List.mem_cons_of_mem document List.mem_cons_self) x
  unfold bound
  split
  · split
    · exact fun c hc => forall_int _ hc
    · exact hplain
  · exact hplain

/-! ## Reading numbers -/

variable {lang : Language} {word : List Char}

/-- The tokens of a text of a number: plain ones, of which the words have its characters. -/
def IsNumber (ts : List Token) : Prop :=
  ∀ t ∈ ts, isPlain t ∧ ∀ w, t = .word w → ∀ c ∈ w.toList, isNumberChar c

theorem IsNumber.nested {ts : List Token} (h : IsNumber ts) : Nested false ts := by
  induction ts with
  | nil => exact .nil
  | cons t ts ih =>
    exact .token (h t List.mem_cons_self).1 (ih fun u hu => h u (List.mem_cons_of_mem _ hu))

/-- A character of a number belongs to a word or is a mark of its own. -/
theorem isNumberChar_cases (h : isNumberChar c) :
    Name.isWordChar c ∨ isPlain (.mark c) ∧ Name.isWordChar c = false ∧
      ∀ lang, opening lang c = ([.mark c], .between) := by
  rw [isNumberChar, Bool.or_eq_true] at h
  rcases h with hdigit | hmem
  · exact .inl (Name.isWordChar_of_isDigit hdigit)
  · have hall : "-.einfNa".toList.all fun d => Name.isWordChar d || (isPlain (.mark d) &&
        !Name.isWordChar d && opening .server d == ([.mark d], .between) &&
          opening .client d == ([.mark d], .between)) := by decide
    have hone := List.all_eq_true.1 hall c (List.contains_iff_mem.1 hmem)
    simp only [Bool.or_eq_true, Bool.and_eq_true, Bool.not_eq_true', beq_iff_eq] at hone
    refine hone.imp_right fun ⟨⟨⟨hplain, hword⟩, hserver⟩, hclient⟩ => ⟨hplain, hword, fun lang => ?_⟩
    cases lang with
    | server => exact hserver
    | client => exact hclient

theorem isNumber_word (h : ∀ c ∈ word, isNumberChar c) : IsNumber [.word (String.ofList word)] := by
  intro t ht
  rw [List.mem_singleton.1 ht]
  refine ⟨rfl, fun w hw c hc => ?_⟩
  rw [← Token.word.inj hw, String.toList_ofList] at hc
  exact h c hc

/-- A character of a number that belongs to no word ends one. -/
theorem ends_word (hc : isNumberChar c) (hword : Name.isWordChar c = false) (lang : Language) :
    isWordOf lang c = false ∧ c ≠ '"' := by
  have hne (d : Char) (hd : isNumberChar d = false) : c ≠ d := by
    rintro rfl
    rw [hc] at hd
    cases hd
  refine ⟨?_, hne '"' (by decide)⟩
  cases lang with
  | server => exact hword
  | client => simp [isWordOf, hword, hne '$' (by decide)]

/-- Characters of numbers between tokens, and behind a part of a word. -/
theorem exists_lex_number (lang : Language) (hcs : ∀ c ∈ cs, isNumberChar c) :
    (∃ ts, IsNumber ts ∧ Reads lang cs ts) ∧
    ∀ word : List Char, (∀ c ∈ word, isNumberChar c) → ∃ ts, IsNumber ts ∧ ∀ rest, Separate lang rest →
      lex lang (.word word) (cs ++ rest) = ts ++ lex lang .between rest := by
  induction cs with
  | nil =>
    refine ⟨⟨[], fun t ht => absurd ht List.not_mem_nil, reads_nil⟩, fun word hword => ?_⟩
    exact ⟨_, isNumber_word hword, fun rest hrest => lex_separate hrest⟩
  | cons c cs ih =>
    have hc := hcs c List.mem_cons_self
    obtain ⟨⟨ts, hts, hreads⟩, hbehind⟩ := ih fun d hd => hcs d (List.mem_cons_of_mem _ hd)
    rcases isNumberChar_cases hc with hword | ⟨hplain, hword, hmark⟩
    · have hwordOf : isWordOf lang c := isWordOf_of_isWordChar hword
      constructor
      · obtain ⟨us, hus, hlex⟩ := hbehind [c] (by simpa using hc)
        refine ⟨us, hus, fun rest hrest => ?_⟩
        have hstep : step lang .between c = ([], .word [c]) := if_pos hwordOf
        rw [List.cons_append, lex, hstep]
        exact hlex rest hrest
      · intro word hrun
        have hlonger : ∀ d ∈ word ++ [c], isNumberChar d :=
          List.forall_mem_append.2 ⟨hrun, List.forall_mem_singleton.2 hc⟩
        obtain ⟨us, hus, hlex⟩ := hbehind (word ++ [c]) hlonger
        refine ⟨us, hus, fun rest hrest => ?_⟩
        have hstep : step lang (.word word) c = ([], .word (word ++ [c])) := if_pos hwordOf
        rw [List.cons_append, lex, hstep]
        exact hlex rest hrest
    · have hmarked : IsNumber (.mark c :: ts) :=
        List.forall_mem_cons.2 ⟨⟨hplain, fun w hw => Token.noConfusion hw⟩, hts⟩
      have hmarkReads : Reads lang (c :: cs) (.mark c :: ts) := hreads.cons_mark (hmark lang)
      refine ⟨⟨_, hmarked, hmarkReads⟩, fun word hrun => ?_⟩
      -- the word in front ends here
      have hended : IsNumber (.word (String.ofList word) :: .mark c :: ts) :=
        List.forall_mem_cons.2 ⟨isNumber_word hrun _ List.mem_cons_self, hmarked⟩
      refine ⟨_, hended, fun rest hrest => ?_⟩
      have hseparate : Separate lang (c :: cs ++ rest) := separate_cons (ends_word hc hword lang)
      rw [lex_separate hseparate, hmarkReads rest hrest]
      rfl

/-- **The text of a number is read the same wherever it stands**, as words and plain marks. -/
theorem exists_reads_number (lang : Language) (hcs : ∀ c ∈ cs, isNumberChar c) :
    ∃ ts, IsNumber ts ∧ Reads lang cs ts :=
  (exists_lex_number lang hcs).1

end ApiCodegen.Numeric
