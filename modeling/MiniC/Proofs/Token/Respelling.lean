/-
Reading a text that was written from tokens gives the tokens back
(`tokenize_rewritten`).

# Writing

Every lexeme has a plain spelling: a word or a symbol as it is, a number by its
text, a truth value by its word, a quoted text with a backslash in front of what
would end or change it. What is found in a text has such a spelling
(`written_spells`), although it may have been found in another one: groups of digits
lose their commas, an escape may become a character, and a character may get one. A
number keeps its spelling without commas because leaving them out respects each part
of a numeral (`Numeral.filter`).

# Reading

Where a blank or nothing follows, a spelling is read as the lexeme it was written
from (`next_spelled`), whichever it is and whatever comes behind. That something is
apart is needed for each kind of lexeme in its own way: a blank does not continue a
word, belongs to no numeral, and makes no longer symbol. A quoted text needs nothing,
since it ends with its quote. The kinds exclude each other by their first
characters, so that the reader tries the right one: only a symbol is `Plain`.

# Texts

Words that are written with a space between them are read one by one, and the spaces
between them leave no trace (`ofText_written`, `spaced_lexemes`). What the scanner
makes of a text are its pieces with their places, so the tokens are those lexemes
(`tokenize_lexemes`).
-/
import MiniC.Integer
import MiniC.Proofs.Source.Value
import MiniC.Proofs.Token.Pieces

namespace MiniC

namespace Piece

-- ================================================================ writing

/-- A character as it is written between quotes. -/
def escaped (quote c : Char) : List Char :=
  if c = '\n' then ['\\', 'n'] else if c = '\\' ∨ c = quote then ['\\', c] else [c]

/-- A text in quotes. -/
def quoted (quote : Char) (value : List Char) : List Char :=
  quote :: (value.flatMap (escaped quote) ++ [quote])

end Piece

/-- The plain spelling of a lexeme. A character is named by its code. -/
def Lexeme.written : Lexeme → List Char
  | .keyword k => k.spelling.toList
  | .ident name => name.toList
  | .symbol s => s.spelling.toList
  | .literal .int text => text.toList
  | .literal .double text => text.toList
  | .literal .float text => text.toList ++ ['f']
  | .literal .bool text => if text = "1" then "true".toList else "false".toList
  | .literal .char text => Piece.quoted '\'' [Char.ofNat (Integer.ofDigits text.toList)]
  | .literal .string text => Piece.quoted '"' text.toList

/-- Tokens written out, with a space between any two of them. -/
def rewritten (tokens : List Token) : String :=
  String.ofList ([' '].intercalate (tokens.map (·.lexeme.written)))

namespace Piece

/-- A quoted text stands for what was escaped in it. -/
theorem quotes_escaped {quote : Char} (hquote : escape? quote = some quote) (value : List Char) :
    Quotes quote (value.flatMap (escaped quote)) value [] := by
  induction value with
  | nil => exact .nil
  | cons c value ih =>
      rw [List.flatMap_cons]
      unfold escaped
      by_cases hline : c = '\n'
      · rw [if_pos hline, hline]
        exact .escape rfl ih
      rw [if_neg hline]
      by_cases hescape : c = '\\' ∨ c = quote
      · rw [if_pos hescape]
        refine .escape ?_ ih
        obtain rfl | rfl := hescape
        · rfl
        · exact hquote
      · rw [if_neg hescape]
        obtain ⟨hbackslash, hne⟩ := not_or.1 hescape
        exact .plain hbackslash hline hne ih

-- ================================================================ numbers

/-- Groups of digits without their commas are groups of digits. -/
theorem Grouped.filter {cs : List Char} (h : Grouped cs) : Grouped (cs.filter (· ≠ ',')) := by
  induction h with
  | nil => exact .nil
  | @digit c cs hdigit _ ih =>
      rw [List.filter_cons]
      split
      · exact .digit hdigit ih
      · exact ih
  | comma _ _ ih => exact ih

theorem isDigit_ne_comma {c : Char} (h : c.isDigit = true) : c ≠ ',' := by
  rintro rfl
  exact absurd h (by decide)

theorem filter_digits {ds : List Char} (h : ∀ d ∈ ds, d.isDigit = true) :
    ds.filter (· ≠ ',') = ds :=
  List.filter_eq_self.2 fun d hd => decide_eq_true (isDigit_ne_comma (h d hd))

/-- A numeral without its commas is a numeral. -/
theorem Numeral.filter {point : Bool} {cs : List Char} (h : Numeral point cs) :
    Numeral point (cs.filter (· ≠ ',')) := by
  cases h with
  | whole h => exact .whole h.filter
  | pointed h hds =>
      rw [List.filter_append, List.filter_cons_of_pos (by decide), filter_digits hds]
      exact .pointed h.filter hds

/-- It starts as it did. -/
theorem StartsNumeral.filter {cs : List Char} (h : StartsNumeral cs) :
    StartsNumeral (cs.filter (· ≠ ',')) := by
  have hdigit {cs : List Char} (h : startsWithDigit cs = true) :
      startsWithDigit (cs.filter (· ≠ ',')) = true := by
    cases cs with
    | nil => exact h
    | cons c cs =>
        have hkept : decide (c ≠ ',') = true := decide_eq_true (isDigit_ne_comma h)
        rw [List.filter_cons, if_pos hkept]
        exact h
  obtain h | ⟨ds, rfl, hds⟩ := h
  · exact Or.inl (hdigit h)
  · rw [List.filter_cons_of_pos (by decide)]
    exact Or.inr ⟨_, rfl, hdigit hds⟩

theorem numeralText_filter (cs : List Char) :
    numeralText (cs.filter (· ≠ ',')) = numeralText cs := by
  unfold numeralText
  rw [List.filter_filter]
  simp only [Bool.and_self]

/-- The text of a numeral is the numeral without its commas. -/
theorem numeralText_toList (cs : List Char) : (numeralText cs).toList = cs.filter (· ≠ ',') :=
  String.toList_ofList

-- =================================================== what is found is written

theorem ofDigits_toString (n : Nat) : Integer.ofDigits (toString n).toList = n := by
  show Integer.ofDigits (String.ofList (Nat.toDigits 10 n)).toList = n
  unfold Integer.ofDigits
  rw [String.toList_ofList, Source.ofDigits_eq, Nat.ofDigitChars_ten_toDigits]

/-- The plain spelling of what was spelled in some way. -/
theorem written_spells {cs : List Char} {l : Lexeme} {faults : List (Nat × LexicalFault)}
    (h : Spells cs l faults) : Spells l.written l [] := by
  cases h with
  | keyword k => exact .keyword k
  | truth => exact .truth
  | falsity => exact .falsity
  | ident hc hcs hword =>
      show Spells (String.ofList _).toList _ []
      rw [String.toList_ofList]
      exact .ident hc hcs hword
  | integer hnumeral hstarts =>
      have hspells := Spells.integer hnumeral.filter hstarts.filter
      rwa [numeralText_filter, ← numeralText_toList] at hspells
  | double hnumeral hstarts =>
      have hspells := Spells.double hnumeral.filter hstarts.filter
      rwa [numeralText_filter, ← numeralText_toList] at hspells
  | float hnumeral hstarts =>
      have hspells := Spells.float hnumeral.filter hstarts.filter
      rwa [numeralText_filter, ← numeralText_toList] at hspells
  | char hbody hsize =>
      show Spells (quoted '\'' [Char.ofNat (Integer.ofDigits (toString _).toList)]) _ []
      rw [ofDigits_toString, Char.ofNat_toNat]
      exact .char (quotes_escaped rfl _) hsize
  | string hbody =>
      show Spells (quoted '"' (String.ofList _).toList) _ []
      rw [String.toList_ofList]
      exact .string (quotes_escaped rfl _)
  | symbol s => exact .symbol s

-- ========================================================= reading words

/-- Whether a text is empty or starts with a blank. -/
def Apart (rest : List Char) : Prop := ∀ d ∈ rest.head?, isBlank d = true

theorem apart_nil : Apart [] := nofun

theorem apart_cons {d : Char} {ds : List Char} (h : isBlank d = true) : Apart (d :: ds) := by
  intro e he
  rwa [← Option.some.inj he]

/-- What a blank is: one of four characters. -/
theorem Apart.of_blank {P : Char → Prop} {rest : List Char} (h : Apart rest) (hspace : P ' ')
    (hline : P '\n') (hreturn : P '\r') (htab : P '\t') : ∀ d ∈ rest.head?, P d := by
  intro d hd
  have hblank := h d hd
  unfold isBlank at hblank
  simp only [Bool.or_eq_true, decide_eq_true_eq] at hblank
  obtain ((rfl | rfl) | rfl) | rfl := hblank
  · exact hspace
  · exact hline
  · exact hreturn
  · exact htab

/-- A run of characters ends where the next one is not of its kind. -/
theorem takeWhile_apart {p : Char → Bool} {cs rest : List Char} (hcs : ∀ c ∈ cs, p c = true)
    (hrest : ∀ d ∈ rest.head?, p d = false) :
    (cs ++ rest).takeWhile p = cs ∧ (cs ++ rest).dropWhile p = rest := by
  rw [List.takeWhile_append_of_pos hcs, List.dropWhile_append_of_pos hcs]
  cases rest with
  | nil => exact ⟨List.append_nil _, rfl⟩
  | cons d rest =>
      have hd : ¬ p d = true := by
        rw [hrest d rfl]
        exact Bool.false_ne_true
      rw [List.takeWhile_cons_of_neg hd, List.dropWhile_cons_of_neg hd]
      exact ⟨List.append_nil _, rfl⟩

theorem startsIdent_not_blank {c : Char} (h : startsIdent c = true) : isBlank c = false := by
  unfold isBlank
  simp only [Bool.or_eq_false_iff, decide_eq_false_iff_not]
  refine ⟨⟨⟨?_, ?_⟩, ?_⟩, ?_⟩
  all_goals
    rintro rfl
    exact absurd h (by decide)

/-- A word is read up to what does not continue it. -/
theorem next_word {c : Char} {cs rest : List Char} (hc : startsIdent c = true)
    (hcs : ∀ d ∈ cs, continuesIdent d = true)
    (hrest : ∀ d ∈ rest.head?, continuesIdent d = false) :
    next c (cs ++ rest) = (word (c :: cs) (lexemeOfWord (String.ofList (c :: cs))), rest) := by
  obtain ⟨htake, hdrop⟩ := takeWhile_apart hcs hrest
  unfold next
  rw [if_neg (by rw [startsIdent_not_blank hc]; exact Bool.false_ne_true), if_pos hc]
  dsimp only
  rw [htake, hdrop]

theorem Apart.endsWord {rest : List Char} (h : Apart rest) :
    ∀ d ∈ rest.head?, continuesIdent d = false :=
  h.of_blank (P := fun d => continuesIdent d = false) rfl rfl rfl rfl

/-- A keyword is a word, and is read as that keyword. -/
theorem keyword_word (k : Keyword) :
    ∃ c cs, k.spelling.toList = c :: cs ∧ startsIdent c = true
      ∧ cs.all continuesIdent = true ∧ lexemeOfWord (String.ofList (c :: cs)) = .keyword k := by
  cases k <;> exact ⟨_, _, rfl, by decide, by decide, by decide⟩

theorem lexemeOfWord_ident {w : String} (h : ¬ Reserved w) : lexemeOfWord w = .ident w := by
  unfold lexemeOfWord
  rw [if_neg fun htrue => h (.inl htrue), if_neg fun hfalse => h (.inr (.inl hfalse))]
  cases hk : Keyword.ofSpelling? w with
  | none => rfl
  | some k => exact absurd ⟨k, hk⟩ fun hkeyword => h (.inr (.inr hkeyword))

-- ======================================================= reading numbers

/-- Whether no text behind a numeral could belong to it. -/
def EndsNumeral (rest : List Char) : Prop :=
  ∀ d ∈ rest.head?, d.isDigit = false ∧ d ≠ '.' ∧ d ≠ ','

/-- Where no numeral goes on nothing is read of one. -/
theorem splitNumber_ends {rest : List Char} (h : EndsNumeral rest) (seen : Bool) :
    splitNumber seen rest = ([], rest) := by
  cases rest with
  | nil => rfl
  | cons d rest =>
      obtain ⟨hdigit, hpoint, hcomma⟩ := h d rfl
      exact splitNumber_stop (by rw [hdigit]; exact Bool.false_ne_true)
        (fun heq => hpoint heq.1) (fun heq => hcomma heq.1)

/-- Digits are read up to what ends a numeral. -/
theorem splitNumber_digits {ds rest : List Char} (hds : ∀ d ∈ ds, d.isDigit = true)
    (hrest : EndsNumeral rest) : splitNumber true (ds ++ rest) = (ds, rest) := by
  induction ds with
  | nil => exact splitNumber_ends hrest true
  | cons d ds ih =>
      obtain ⟨hd, hds⟩ := List.forall_mem_cons.1 hds
      rw [List.cons_append, splitNumber_digit hd, ih hds]

/-- Groups of digits are read in front of what follows them. -/
theorem splitNumber_grouped {cs rest : List Char} (h : Grouped cs) :
    splitNumber false (cs ++ rest)
      = (cs ++ (splitNumber false rest).1, (splitNumber false rest).2) := by
  induction h with
  | nil => rfl
  | digit hc _ ih => rw [List.cons_append, splitNumber_digit hc, ih, List.cons_append]
  | @comma cs hcs _ ih =>
      have hstarts : startsWithDigit (cs ++ rest) = true := by
        cases cs with
        | nil => exact absurd hcs Bool.false_ne_true
        | cons c cs => exact hcs
      rw [List.cons_append, splitNumber_comma hstarts, ih, List.cons_append]

/-- A numeral is read up to what ends it. -/
theorem splitNumber_numeral {point : Bool} {cs rest : List Char} (h : Numeral point cs)
    (hrest : EndsNumeral rest) : splitNumber false (cs ++ rest) = (cs, rest) := by
  cases h with
  | whole h => rw [splitNumber_grouped h, splitNumber_ends hrest, List.append_nil]
  | pointed h hds =>
      rw [List.append_assoc, splitNumber_grouped h, List.cons_append, splitNumber_point,
        splitNumber_digits hds hrest]

theorem Apart.endsNumeral {rest : List Char} (h : Apart rest) : EndsNumeral rest :=
  h.of_blank (by decide) (by decide) (by decide) (by decide)

theorem isDigit_plain {c : Char} (h : c.isDigit = true) :
    isBlank c = false ∧ startsIdent c = false := by
  have hdigit : 48 ≤ c.toNat ∧ c.toNat ≤ 57 := by
    simpa [Char.isDigit, UInt32.le_iff_toNat_le] using h
  constructor
  · unfold isBlank
    simp only [Bool.or_eq_false_iff, decide_eq_false_iff_not]
    refine ⟨⟨⟨?_, ?_⟩, ?_⟩, ?_⟩
    all_goals
      rintro rfl
      exact absurd h (by decide)
  · unfold startsIdent
    have hne : c ≠ '_' := by
      rintro rfl
      exact absurd h (by decide)
    have halpha : c.isAlpha = false := by
      rw [Bool.eq_false_iff, ne_eq, isAlpha_iff]
      omega
    simp [hne, halpha]

/-- What starts as a numeral is read as a number. -/
theorem next_number {c : Char} {cs : List Char} (h : StartsNumeral (c :: cs)) :
    next c cs = readNumber (c :: cs) := by
  have hnumber : (c.isDigit || (c = '.' && startsWithDigit cs)) = true := by
    obtain h | ⟨ds, heq, hds⟩ := h
    · exact Bool.or_eq_true_iff.2 (.inl h)
    · obtain ⟨rfl, rfl⟩ := List.cons.inj heq
      exact hds
  have hplain : isBlank c = false ∧ startsIdent c = false := by
    obtain h | ⟨ds, heq, -⟩ := h
    · exact isDigit_plain h
    · obtain ⟨rfl, -⟩ := List.cons.inj heq
      exact ⟨rfl, rfl⟩
  unfold next
  rw [if_neg (by rw [hplain.1]; exact Bool.false_ne_true),
    if_neg (by rw [hplain.2]; exact Bool.false_ne_true), if_pos hnumber]

theorem StartsNumeral.append {cs : List Char} (h : StartsNumeral cs) (rest : List Char) :
    StartsNumeral (cs ++ rest) := by
  have hdigit {cs : List Char} (h : startsWithDigit cs = true) :
      startsWithDigit (cs ++ rest) = true := by
    cases cs with
    | nil => exact absurd h Bool.false_ne_true
    | cons c cs => exact h
  obtain h | ⟨ds, rfl, hds⟩ := h
  · exact .inl (hdigit h)
  · exact .inr ⟨_, rfl, hdigit hds⟩

/-- A text that starts as a number is read as one. -/
theorem exists_next_number {cs : List Char} (h : StartsNumeral cs) :
    ∃ d ds, cs = d :: ds ∧ next d ds = readNumber cs := by
  cases cs with
  | nil => obtain h | ⟨_, h, -⟩ := h <;> cases h
  | cons d ds => exact ⟨d, ds, rfl, next_number h⟩

/-- A numeral that stands apart is an int or a double. -/
theorem readNumber_plain {point : Bool} {cs rest : List Char} (h : Numeral point cs)
    (hrest : Apart rest) :
    readNumber (cs ++ rest)
      = (word cs (.literal (if point then .double else .int) (numeralText cs)), rest) := by
  have hf : ∀ d ∈ rest.head?, d ≠ 'f' :=
    hrest.of_blank (by decide) (by decide) (by decide) (by decide)
  rw [readNumber_unsuffixed (splitNumber_numeral h hrest.endsNumeral) fun h => hf 'f' h rfl,
    h.contains]

/-- A numeral with an f behind is a float. -/
theorem readNumber_float {point : Bool} {cs : List Char} (h : Numeral point cs)
    (rest : List Char) :
    readNumber (cs ++ 'f' :: rest)
      = (word (cs ++ ['f']) (.literal .float (numeralText cs)), rest) := by
  have hrest : EndsNumeral ('f' :: rest) := by
    intro d hd
    obtain rfl := Option.some.inj hd
    decide
  exact readNumber_suffixed (splitNumber_numeral h hrest)

-- ======================================================== reading quotes

/-- A character without a meaning of its own stands for itself. -/
theorem readQuoted_plain {quote c : Char} (hbackslash : c ≠ '\\') (hline : c ≠ '\n')
    (hquote : c ≠ quote) (cs : List Char) :
    readQuoted quote (c :: cs) = (readQuoted quote cs).extend [c] c [] := by
  rw [readQuoted]
  · rw [if_neg hline, if_neg hquote]
  · exact fun h _ => hbackslash h
  · exact fun _ _ h _ => hbackslash h

theorem readQuoted_close {quote : Char} (hbackslash : quote ≠ '\\') (hline : quote ≠ '\n')
    (rest : List Char) : readQuoted quote (quote :: rest) = ⟨[quote], [], [], true, rest⟩ := by
  rw [readQuoted]
  · rw [if_neg hline, if_pos rfl]
  · exact fun h _ => hbackslash h
  · exact fun _ _ h _ => hbackslash h

/-- A quoted text is read up to its closing quote. -/
theorem readQuoted_quotes {quote : Char} {body value : List Char}
    {faults : List (Nat × LexicalFault)} (hbackslash : quote ≠ '\\') (hline : quote ≠ '\n')
    (h : Quotes quote body value faults) (rest : List Char) :
    readQuoted quote (body ++ quote :: rest) = ⟨body ++ [quote], value, faults, true, rest⟩ := by
  induction h with
  | nil => exact readQuoted_close hbackslash hline rest
  | plain hc hd hne _ ih =>
      rw [List.cons_append, readQuoted_plain hc hd hne, ih]
      rfl
  | escape hescape _ ih =>
      rw [List.cons_append, List.cons_append, readQuoted, hescape, ih]
      rfl
  | unknown hescape _ ih =>
      rw [List.cons_append, List.cons_append, readQuoted, hescape, ih]
      rfl

/-- A string literal is read up to its closing quote, whatever is behind. -/
theorem next_string {body value : List Char} {faults : List (Nat × LexicalFault)}
    (h : Quotes '"' body value faults) (rest : List Char) :
    next '"' (body ++ '"' :: rest)
      = (⟨'"' :: (body ++ ['"']), some (.literal .string (String.ofList value)),
          shifted 1 faults⟩, rest) := by
  have hread := readQuoted_quotes (by decide) (by decide) h rest
  show (ofQuoted '"' (readQuoted '"' _) .unterminatedString readString,
    (readQuoted '"' _).rest) = _
  rw [hread]
  rfl

-- ======================================================= reading symbols

/-- Whether a character starts a symbol at most. -/
def Plain (c : Char) : Prop :=
  isBlank c = false ∧ startsIdent c = false ∧ c.isDigit = false ∧ c ≠ '\'' ∧ c ≠ '"'

instance (c : Char) : Decidable (Plain c) := by
  unfold Plain
  infer_instance

/-- What nothing else starts with is read as a symbol. -/
theorem next_symbol {c : Char} {cs : List Char} (h : Plain c)
    (hpoint : c = '.' → startsWithDigit cs = false) (hslash : c = '/' → cs.head? ≠ some '/') :
    next c cs = readSymbol c cs := by
  obtain ⟨hblank, hident, hdigit, hchar, hstring⟩ := h
  have hnumber : ¬ (c.isDigit || (c = '.' && startsWithDigit cs)) = true := by
    simp only [hdigit, Bool.false_or, Bool.and_eq_true, decide_eq_true_eq, not_and,
      Bool.not_eq_true]
    exact hpoint
  have hcomment : ¬ (c = '/' && cs.head? = some '/') = true := by
    simp only [Bool.and_eq_true, decide_eq_true_eq, not_and]
    exact hslash
  unfold next
  rw [if_neg (by rw [hblank]; exact Bool.false_ne_true),
    if_neg (by rw [hident]; exact Bool.false_ne_true), if_neg hnumber, if_neg hchar,
    if_neg hstring, if_neg hcomment]

/-- A symbol has one character or two, and is found by them. -/
theorem symbol_chars (s : Symbol) :
    (∃ c, s.spelling.toList = [c] ∧ Plain c ∧ symbolOfOne? c = some s)
      ∨ ∃ c d, s.spelling.toList = [c, d] ∧ Plain c ∧ c ≠ '.' ∧ d ≠ '/'
        ∧ symbolOfTwo? c d = some s := by
  cases s
  case le | ge | eq | ne | addAssign | subAssign | mulAssign | divAssign | incr | decr | arrow
      | scope =>
    exact .inr ⟨_, _, rfl, by decide, by decide, by decide, rfl⟩
  all_goals exact .inl ⟨_, rfl, by decide, rfl⟩

theorem symbolOfTwo?_blank (c : Char) {rest : List Char} (h : Apart rest) :
    ∀ d ∈ rest.head?, symbolOfTwo? c d = none := by
  refine h.of_blank (P := fun d => symbolOfTwo? c d = none) ?_ ?_ ?_ ?_
  all_goals
    unfold symbolOfTwo?
    split <;> first | rfl | (rename_i heq; cases heq)

theorem Apart.no_digit {rest : List Char} (h : Apart rest) : startsWithDigit rest = false := by
  cases rest with
  | nil => rfl
  | cons d rest => exact (h.endsNumeral d rfl).1

/-- What spells a lexeme is read as it, in front of a blank or nothing. -/
theorem next_spelled {chars rest : List Char} {l : Lexeme} {faults : List (Nat × LexicalFault)}
    (h : Spells chars l faults) (hrest : Apart rest) :
    ∃ c cs, chars ++ rest = c :: cs ∧ next c cs = (⟨chars, some l, faults⟩, rest) := by
  cases h with
  | keyword k =>
      obtain ⟨c, cs, hchars, hc, hcs, hword⟩ := keyword_word k
      rw [hchars]
      refine ⟨c, cs ++ rest, rfl, (next_word hc (List.all_eq_true.1 hcs) hrest.endsWord).trans ?_⟩
      rw [hword]
      rfl
  | truth => exact ⟨_, _, rfl, next_word rfl (List.all_eq_true.1 rfl) hrest.endsWord⟩
  | falsity => exact ⟨_, _, rfl, next_word rfl (List.all_eq_true.1 rfl) hrest.endsWord⟩
  | ident hc hcs hword =>
      refine ⟨_, _, rfl, (next_word hc hcs hrest.endsWord).trans ?_⟩
      rw [lexemeOfWord_ident hword]
      rfl
  | integer hnumeral hstarts =>
      obtain ⟨d, ds, hchars, hnext⟩ := exists_next_number (hstarts.append rest)
      exact ⟨d, ds, hchars, hnext.trans (readNumber_plain hnumeral hrest)⟩
  | double hnumeral hstarts =>
      obtain ⟨d, ds, hchars, hnext⟩ := exists_next_number (hstarts.append rest)
      exact ⟨d, ds, hchars, hnext.trans (readNumber_plain hnumeral hrest)⟩
  | float hnumeral hstarts =>
      obtain ⟨d, ds, hchars, hnext⟩ := exists_next_number (hstarts.append ('f' :: rest))
      refine ⟨d, ds, ?_, hnext.trans (readNumber_float hnumeral rest)⟩
      rw [List.append_assoc]
      exact hchars
  | @char body c _ hbody hsize =>
      refine ⟨'\'', body ++ '\'' :: rest, ?_, ?_⟩
      · rw [List.cons_append, List.append_assoc]
        rfl
      · have hread := readQuoted_quotes (by decide) (by decide) hbody rest
        show (ofQuoted '\'' (readQuoted '\'' _) .unterminatedCharacter readCharacter,
          (readQuoted '\'' _).rest) = _
        have hcharacter : readCharacter [c] = .ok (.literal .char (toString c.toNat)) :=
          if_pos hsize
        rw [hread]
        unfold ofQuoted
        dsimp only
        rw [if_pos rfl, hcharacter]
        rfl
  | @string body value _ hbody =>
      refine ⟨'"', body ++ '"' :: rest, ?_, ?_⟩
      · rw [List.cons_append, List.append_assoc]
        rfl
      · exact next_string hbody rest
  | symbol s =>
      obtain ⟨c, hchars, hplain, hone⟩ | ⟨c, d, hchars, hplain, hpoint, hslash, htwo⟩ :=
        symbol_chars s
      · rw [hchars]
        refine ⟨c, rest, rfl, ?_⟩
        rw [next_symbol hplain (fun _ => hrest.no_digit) ?_,
          readSymbol_one (symbolOfTwo?_blank c hrest), hone]
        · rfl
        · exact fun _ hhead => absurd (hrest '/' hhead) (by decide)
      · rw [hchars]
        refine ⟨c, d :: rest, rfl, ?_⟩
        have hhead : (d :: rest).head? ≠ some '/' := fun heq => hslash (Option.some.inj heq)
        rw [next_symbol hplain (fun heq => absurd heq hpoint) fun _ => hhead, readSymbol_two htwo]
        rfl

-- ========================================================== reading texts

/-- A lexeme that is spelled apart from the rest is read first, and then the rest. -/
theorem ofText_spelled {chars rest : List Char} {l : Lexeme} {faults : List (Nat × LexicalFault)}
    (h : Spells chars l faults) (hrest : Apart rest) :
    ofText (chars ++ rest) = ⟨chars, some l, faults⟩ :: ofText rest := by
  obtain ⟨c, cs, hchars, hnext⟩ := next_spelled h hrest
  rw [hchars, ofText_cons, hnext]

/-- The pieces of words with a space between any two of them. -/
def spaced : List Lexeme → List Piece
  | [] => []
  | [l] => [word l.written l]
  | l :: ls => word l.written l :: blank [' '] :: spaced ls

/-- Lexemes that are written with spaces are read with spaces between them. -/
theorem ofText_written {ls : List Lexeme} (h : ∀ l ∈ ls, Spells l.written l []) :
    ofText ([' '].intercalate (ls.map Lexeme.written)) = spaced ls := by
  induction ls with
  | nil => rfl
  | cons l ls ih =>
      obtain ⟨hl, hls⟩ := List.forall_mem_cons.1 h
      cases ls with
      | nil =>
          have hread := ofText_spelled hl apart_nil
          rw [List.append_nil] at hread
          rw [List.map_singleton, List.intercalate_singleton]
          exact hread
      | cons m ls =>
          have hsplit : [' '].intercalate ((l :: m :: ls).map Lexeme.written)
              = l.written ++ ' ' :: [' '].intercalate ((m :: ls).map Lexeme.written) := by
            rw [List.map_cons, List.map_cons, List.intercalate_cons_cons, List.append_assoc]
            rfl
          rw [hsplit, ofText_spelled hl (apart_cons rfl), ofText_cons]
          exact congrArg (word l.written l :: blank [' '] :: ·) (ih hls)

theorem spaced_lexemes (ls : List Lexeme) : (spaced ls).filterMap (·.lexeme) = ls := by
  fun_induction spaced ls with
  | case1 => rfl
  | case2 l => rfl
  | case3 l ls hne ih => exact congrArg (l :: ·) ih

theorem spaced_faults (ls : List Lexeme) : ∀ p ∈ spaced ls, p.faults = [] := by
  fun_induction spaced ls with
  | case1 => exact nofun
  | case2 l => exact List.forall_mem_singleton.2 rfl
  | case3 l ls hne ih => exact List.forall_mem_cons.2 ⟨rfl, List.forall_mem_cons.2 ⟨rfl, ih⟩⟩

theorem place_lexemes (ps : List Piece) (pos : Position) :
    ((place pos ps).filterMap fun p => p.2.token? p.1).map (·.lexeme)
      = ps.filterMap (·.lexeme) := by
  induction ps generalizing pos with
  | nil => rfl
  | cons p ps ih =>
      rw [place, List.filterMap_cons, List.filterMap_cons]
      unfold token?
      cases p.lexeme with
      | none => exact ih _
      | some l => exact congrArg (l :: ·) (ih _)

theorem place_faultless {ps : List Piece} (h : ∀ p ∈ ps, p.faults = []) (pos : Position) :
    (place pos ps).flatMap (fun p => p.2.diagnostics p.1) = [] := by
  induction ps generalizing pos with
  | nil => rfl
  | cons p ps ih =>
      obtain ⟨hp, hps⟩ := List.forall_mem_cons.1 h
      rw [place, List.flatMap_cons, ih hps]
      unfold diagnostics
      rw [hp]
      rfl

end Piece

/-- The tokens of a text have the lexemes of its pieces. -/
theorem tokenize_lexemes (source : String) :
    (tokenize source).1.map (·.lexeme)
      = (Piece.ofText source.toList).filterMap (·.lexeme) :=
  Piece.place_lexemes _ _

/-- A text whose pieces are without faults has no diagnostics. -/
theorem tokenize_faultless {source : String}
    (h : ∀ p ∈ Piece.ofText source.toList, p.faults = []) : (tokenize source).2 = [] :=
  Piece.place_faultless h _

/-- Tokens that are written out are read back: the same words in the same order,
and nothing is reported. -/
theorem tokenize_rewritten (source : String) :
    (tokenize (rewritten (tokenize source).1)).2 = []
      ∧ (tokenize (rewritten (tokenize source).1)).1.map (·.lexeme)
        = (tokenize source).1.map (·.lexeme) := by
  have hspelled : ∀ l ∈ (tokenize source).1.map (·.lexeme), Piece.Spells l.written l [] := by
    intro l hl
    obtain ⟨token, htoken, rfl⟩ := List.mem_map.1 hl
    obtain ⟨chars, faults, hspells⟩ := token_spelled htoken
    exact Piece.written_spells hspells
  have hpieces : Piece.ofText (rewritten (tokenize source).1).toList
      = Piece.spaced ((tokenize source).1.map (·.lexeme)) := by
    unfold rewritten
    rw [String.toList_ofList, ← Piece.ofText_written hspelled, List.map_map]
    rfl
  refine ⟨tokenize_faultless ?_, ?_⟩
  · rw [hpieces]
    exact Piece.spaced_faults _
  · rw [tokenize_lexemes, hpieces, Piece.spaced_lexemes]

example : rewritten (tokenize "x+=1,024.+.5f-'\\'';\"a\\q\\n\" // end").1
    = "x += 1024. + .5f - '\\'' ; \"aq\\n\"" := by decide +kernel

end MiniC
