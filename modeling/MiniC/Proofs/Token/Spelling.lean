/-
How words are spelled. `Spells` says of a stretch of characters that it is a
spelling of a lexeme, and which faults are in it, without a word about how a
text is searched for it: a quoted text is a sequence of plain and escaped
characters, a numeral is digits with commas between them and at most a point,
an identifier is none of the reserved words.

# Quoted texts

A quoted text is read up to its quote or to the end of the line. `Quotes` relates the
characters between the quotes to the text they stand for and to the faults in it,
each at its distance from the start; a fault behind more characters is shifted by
them. Inside a quoted text an unknown escape is the only fault there can be
(`Quotes.escapes`); that it is not closed, or that a character has the wrong number
of characters, is a fault of the whole.

# Numerals

Commas stand in front of digits only, and only before the point. Whether a numeral
has a point decides between two kinds of literal, so it is part of what a numeral is
(`Numeral.contains`). What the lexer splits off is described by what it has seen:
behind a point only digits follow, in front of one any numeral may
(`splitNumber_found`).

# What is read

Whatever part of the lexer finds a word in a text, what it has read is a spelling of
it (`word_spelled`, `number_spelled`, `symbol_spelled`, `quoted_spelled`); what is
read as no word is skipped with a fault at its first character (`IsSkipped`).
Consumed by the accounts of what becomes of a source text and of reading a text that
was written from tokens.
-/
import MiniC.Token.Lexer

namespace MiniC

namespace Piece

-- =========================================================== quoted texts

/-- Faults behind so many more characters. -/
def shifted (k : Nat) (faults : List (Nat × LexicalFault)) : List (Nat × LexicalFault) :=
  faults.map fun f => (f.1 + k, f.2)

/-- Whether characters between quotes stand for a value: themselves, or what
they escape. An unknown escape stands for the escaped character and is a
fault. -/
inductive Quotes (quote : Char) : List Char → List Char → List (Nat × LexicalFault) → Prop where
  | nil : Quotes quote [] [] []
  | plain {c : Char} {cs value : List Char} {faults : List (Nat × LexicalFault)} :
    c ≠ '\\' → c ≠ '\n' → c ≠ quote → Quotes quote cs value faults →
    Quotes quote (c :: cs) (c :: value) (shifted 1 faults)
  | escape {c v : Char} {cs value : List Char} {faults : List (Nat × LexicalFault)} :
    escape? c = some v → Quotes quote cs value faults →
    Quotes quote ('\\' :: c :: cs) (v :: value) (shifted 2 faults)
  | unknown {c : Char} {cs value : List Char} {faults : List (Nat × LexicalFault)} :
    escape? c = none → Quotes quote cs value faults →
    Quotes quote ('\\' :: c :: cs) (c :: value) ((1, .unknownEscape c) :: shifted 2 faults)

theorem mem_shifted {k : Nat} {faults : List (Nat × LexicalFault)} {f : Nat × LexicalFault}
    (h : f ∈ shifted k faults) : ∃ g ∈ faults, f.2 = g.2 := by
  obtain ⟨g, hg, rfl⟩ := List.mem_map.1 h
  exact ⟨g, hg, rfl⟩

/-- Whether all faults are unknown escapes. -/
def OnlyEscapes (faults : List (Nat × LexicalFault)) : Prop :=
  ∀ f ∈ faults, ∃ c, f.2 = .unknownEscape c

theorem OnlyEscapes.shifted {faults : List (Nat × LexicalFault)} (h : OnlyEscapes faults)
    (k : Nat) : OnlyEscapes (shifted k faults) := by
  intro f hf
  obtain ⟨g, hg, hfg⟩ := mem_shifted hf
  obtain ⟨c, hc⟩ := h g hg
  exact ⟨c, hfg.trans hc⟩

/-- The faults inside a quoted text are unknown escapes. -/
theorem Quotes.escapes {quote : Char} {cs value : List Char} {faults : List (Nat × LexicalFault)}
    (h : Quotes quote cs value faults) : OnlyEscapes faults := by
  induction h with
  | nil => exact nofun
  | plain _ _ _ _ ih => exact ih.shifted 1
  | escape _ _ ih => exact ih.shifted 2
  | @unknown c _ _ _ _ _ ih => exact List.forall_mem_cons.2 ⟨⟨c, rfl⟩, ih.shifted 2⟩

/-- Whether what was read behind an opening quote is a quoted text, closed or
up to the end of its line. -/
inductive Quoted.Found (quote : Char) (cs : List Char) (q : Quoted) : Prop where
  | closed (body : List Char) : q.closed = true → q.consumed = body ++ [quote] →
    cs = body ++ quote :: q.rest → Quotes quote body q.value q.faults → Found quote cs q
  | unclosed : q.closed = false → cs = q.consumed ++ q.rest → Found quote cs q

/-- What is found stays found behind more characters. -/
theorem Quoted.Found.extend {quote : Char} {cs : List Char} {q : Quoted}
    (h : Quoted.Found quote cs q) (front : List Char) (v : Char)
    (faults : List (Nat × LexicalFault))
    (hquotes : ∀ {body}, Quotes quote body q.value q.faults →
      Quotes quote (front ++ body) (v :: q.value) (faults ++ shifted front.length q.faults)) :
    Quoted.Found quote (front ++ cs) (q.extend front v faults) := by
  cases h with
  | closed body hclosed hconsumed hcs hbody =>
      refine .closed (front ++ body) hclosed ?_ ?_ (hquotes hbody)
      · show front ++ q.consumed = front ++ body ++ [quote]
        rw [hconsumed, List.append_assoc]
      · rw [hcs, List.append_assoc]
        rfl
  | unclosed hclosed hcs =>
      refine .unclosed hclosed ?_
      show front ++ cs = front ++ q.consumed ++ q.rest
      rw [hcs, List.append_assoc]

/-- A character that is neither escaping nor alone at the end escapes nothing. -/
theorem ne_backslash {c : Char} {cs : List Char} (halone : c = '\\' → cs = [] → False)
    (hescaped : ∀ d ds, c = '\\' → cs = d :: ds → False) : c ≠ '\\' := by
  intro hc
  cases cs with
  | nil => exact halone hc rfl
  | cons d ds => exact hescaped d ds hc rfl

/-- What is read of a quoted text is closed and spelled, or is not closed. -/
theorem readQuoted_found (quote : Char) (cs : List Char) :
    Quoted.Found quote cs (readQuoted quote cs) := by
  fun_induction readQuoted quote cs with
  | case1 => exact .unclosed rfl rfl
  | case2 => exact .unclosed rfl rfl
  | case3 c cs v hescape ih => exact ih.extend ['\\', c] v [] fun h => .escape hescape h
  | case4 c cs hescape ih =>
      exact ih.extend ['\\', c] c [(1, .unknownEscape c)] fun h => .unknown hescape h
  | case5 cs => exact .unclosed rfl rfl
  | case6 cs hline => exact .closed [] rfl rfl rfl .nil
  | case7 c cs halone hescaped hline hquote ih =>
      exact ih.extend [c] c [] fun h => .plain (ne_backslash halone hescaped) hline hquote h

-- ================================================================ numbers

/-- Digits with commas between them: a comma stands in front of a digit. -/
inductive Grouped : List Char → Prop where
  | nil : Grouped []
  | digit {c : Char} {cs : List Char} : c.isDigit = true → Grouped cs → Grouped (c :: cs)
  | comma {cs : List Char} : startsWithDigit cs = true → Grouped cs → Grouped (',' :: cs)

/-- A numeral, with a point in it or without. -/
inductive Numeral : Bool → List Char → Prop where
  | whole {cs : List Char} : Grouped cs → Numeral false cs
  | pointed {cs ds : List Char} : Grouped cs → (∀ d ∈ ds, d.isDigit = true) →
    Numeral true (cs ++ '.' :: ds)

/-- Whether a numeral starts as one: with a digit, or with a point and a
digit. -/
def StartsNumeral (cs : List Char) : Prop :=
  startsWithDigit cs = true ∨ ∃ ds, cs = '.' :: ds ∧ startsWithDigit ds = true

/-- What a numeral says: it without its commas. -/
def numeralText (cs : List Char) : String := String.ofList (cs.filter (· ≠ ','))

/-- Groups of digits have no point. -/
theorem Grouped.no_point {cs : List Char} (h : Grouped cs) : '.' ∉ cs := by
  induction h with
  | nil => exact List.not_mem_nil
  | digit hdigit _ ih =>
      rw [List.mem_cons]
      rintro (rfl | hmem)
      · exact absurd hdigit (by decide)
      · exact ih hmem
  | comma _ _ ih =>
      rw [List.mem_cons]
      rintro (hpoint | hmem)
      · exact absurd hpoint (by decide)
      · exact ih hmem

/-- A numeral has a point if it is one with a point. -/
theorem Numeral.contains {point : Bool} {cs : List Char} (h : Numeral point cs) :
    cs.contains '.' = point := by
  cases h with
  | whole h => rw [List.contains_eq_mem, decide_eq_false_iff_not]; exact h.no_point
  | pointed => rw [List.contains_eq_mem, decide_eq_true_eq]; simp

/-- A digit in front of a numeral belongs to it. -/
theorem Numeral.digit {point : Bool} {c : Char} {cs : List Char} (hc : c.isDigit = true)
    (h : Numeral point cs) : Numeral point (c :: cs) := by
  cases h with
  | whole h => exact .whole (.digit hc h)
  | pointed h hds => exact .pointed (.digit hc h) hds

/-- A comma in front of digits belongs to the numeral. -/
theorem Numeral.comma {point : Bool} {cs : List Char} (hcs : startsWithDigit cs = true)
    (h : Numeral point cs) : Numeral point (',' :: cs) := by
  cases h with
  | whole h => exact .whole (.comma hcs h)
  | @pointed cs ds h hds =>
      refine .pointed (.comma ?_ h) hds
      cases cs with
      | nil => exact absurd (show Char.isDigit '.' = true from hcs) (by decide)
      | cons c cs => exact hcs

theorem splitNumber_digit {c : Char} (hc : c.isDigit = true) (seen : Bool) (cs : List Char) :
    splitNumber seen (c :: cs) = (c :: (splitNumber seen cs).1, (splitNumber seen cs).2) := by
  rw [splitNumber, if_pos hc]

theorem splitNumber_point (cs : List Char) :
    splitNumber false ('.' :: cs) = ('.' :: (splitNumber true cs).1, (splitNumber true cs).2) :=
  rfl

theorem splitNumber_comma {cs : List Char} (hcs : startsWithDigit cs = true) :
    splitNumber false (',' :: cs)
      = (',' :: (splitNumber false cs).1, (splitNumber false cs).2) := by
  rw [splitNumber, if_neg (by decide), if_neg (by decide), if_pos (by rw [hcs]; rfl)]

/-- What a numeral does not go on with ends it. -/
theorem splitNumber_stop {seen : Bool} {c : Char} {cs : List Char} (hdigit : ¬ c.isDigit = true)
    (hpoint : ¬ (c = '.' ∧ seen = false))
    (hcomma : ¬ (c = ',' ∧ seen = false ∧ startsWithDigit cs = true)) :
    splitNumber seen (c :: cs) = ([], c :: cs) := by
  rw [splitNumber, if_neg hdigit, if_neg (by simpa using hpoint), if_neg (by simpa using hcomma)]

/-- The rest of a numeral behind its point, or a numeral. -/
def NumeralRest : Bool → List Char → Prop
  | true, cs => ∀ c ∈ cs, c.isDigit = true
  | false, cs => ∃ point, Numeral point cs

/-- What is split off is a numeral, as much of one as there is a digit. -/
theorem splitNumber_found (seen : Bool) (cs : List Char) :
    (splitNumber seen cs).1 ++ (splitNumber seen cs).2 = cs
      ∧ NumeralRest seen (splitNumber seen cs).1
      ∧ (startsWithDigit cs = true → startsWithDigit (splitNumber seen cs).1 = true) := by
  induction cs generalizing seen with
  | nil =>
      refine ⟨rfl, ?_, id⟩
      cases seen with
      | true => exact nofun
      | false => exact ⟨false, .whole .nil⟩
  | cons c cs ih =>
      have hstop : NumeralRest seen [] := by
        cases seen with
        | true => exact nofun
        | false => exact ⟨false, .whole .nil⟩
      by_cases hdigit : c.isDigit = true
      · obtain ⟨happend, hrest, -⟩ := ih seen
        rw [splitNumber_digit hdigit]
        refine ⟨congrArg (c :: ·) happend, ?_, fun _ => hdigit⟩
        cases seen with
        | true => exact List.forall_mem_cons.2 ⟨hdigit, hrest⟩
        | false =>
            obtain ⟨point, h⟩ := hrest
            exact ⟨point, h.digit hdigit⟩
      have hnone : ¬ startsWithDigit (c :: cs) = true := hdigit
      by_cases hpoint : c = '.' ∧ seen = false
      · obtain ⟨rfl, rfl⟩ := hpoint
        obtain ⟨happend, hrest, -⟩ := ih true
        rw [splitNumber_point]
        refine ⟨congrArg ('.' :: ·) happend, ⟨true, ?_⟩, fun h => absurd h hnone⟩
        exact show Numeral true ([] ++ _) from .pointed .nil hrest
      by_cases hcomma : c = ',' ∧ seen = false ∧ startsWithDigit cs = true
      · obtain ⟨rfl, rfl, hcs⟩ := hcomma
        obtain ⟨happend, ⟨point, h⟩, hstarts⟩ := ih false
        rw [splitNumber_comma hcs]
        exact ⟨congrArg (',' :: ·) happend, ⟨point, h.comma (hstarts hcs)⟩,
          fun h => absurd h hnone⟩
      · rw [splitNumber_stop hdigit hpoint hcomma]
        exact ⟨rfl, hstop, fun h => absurd h hnone⟩

-- ================================================================== words

/-- Whether a word is no identifier: a truth value or a keyword. -/
def Reserved (word : String) : Prop :=
  word = "true" ∨ word = "false" ∨ ∃ k, Keyword.ofSpelling? word = some k

/-- Whether characters spell a lexeme, with these faults among them. -/
inductive Spells : List Char → Lexeme → List (Nat × LexicalFault) → Prop where
  | keyword (k : Keyword) : Spells k.spelling.toList (.keyword k) []
  | truth : Spells "true".toList (.literal .bool "1") []
  | falsity : Spells "false".toList (.literal .bool "0") []
  | ident {c : Char} {cs : List Char} : startsIdent c = true →
    (∀ d ∈ cs, continuesIdent d = true) → ¬ Reserved (String.ofList (c :: cs)) →
    Spells (c :: cs) (.ident (String.ofList (c :: cs))) []
  | integer {cs : List Char} : Numeral false cs → StartsNumeral cs →
    Spells cs (.literal .int (numeralText cs)) []
  | double {cs : List Char} : Numeral true cs → StartsNumeral cs →
    Spells cs (.literal .double (numeralText cs)) []
  | float {point : Bool} {cs : List Char} : Numeral point cs → StartsNumeral cs →
    Spells (cs ++ ['f']) (.literal .float (numeralText cs)) []
  | char {body : List Char} {c : Char} {faults : List (Nat × LexicalFault)} :
    Quotes '\'' body [c] faults → c.utf8Size = 1 →
    Spells ('\'' :: (body ++ ['\''])) (.literal .char (toString c.toNat)) (shifted 1 faults)
  | string {body value : List Char} {faults : List (Nat × LexicalFault)} :
    Quotes '"' body value faults →
    Spells ('"' :: (body ++ ['"'])) (.literal .string (String.ofList value)) (shifted 1 faults)
  | symbol (s : Symbol) : Spells s.spelling.toList (.symbol s) []

/-- Nothing is spelled by no characters. -/
theorem Spells.ne_nil {cs : List Char} {l : Lexeme} {faults : List (Nat × LexicalFault)}
    (h : Spells cs l faults) : cs ≠ [] := by
  cases h with
  | keyword k => cases k <;> decide
  | truth => decide
  | falsity => decide
  | ident => exact List.cons_ne_nil _ _
  | integer _ hstarts => rintro rfl; obtain h | ⟨_, h, -⟩ := hstarts <;> cases h
  | double _ hstarts => rintro rfl; obtain h | ⟨_, h, -⟩ := hstarts <;> cases h
  | float => exact List.append_ne_nil_of_right_ne_nil _ (List.cons_ne_nil _ _)
  | char => exact List.cons_ne_nil _ _
  | string => exact List.cons_ne_nil _ _
  | symbol s => cases s <;> decide

/-- The faults in a word are unknown escapes. -/
theorem Spells.escapes {cs : List Char} {l : Lexeme} {faults : List (Nat × LexicalFault)}
    (h : Spells cs l faults) : OnlyEscapes faults := by
  cases h with
  | char hbody _ => exact hbody.escapes.shifted 1
  | string hbody => exact hbody.escapes.shifted 1
  | _ => exact nofun

-- ================================================================ reading

/-- Whether a piece is a word and its characters spell it. -/
def IsWord (p : Piece) : Prop := ∃ l, p.lexeme = some l ∧ Spells p.chars l p.faults

theorem ofSpelling?_some {word : String} {k : Keyword} (h : Keyword.ofSpelling? word = some k) :
    k.spelling = word := by
  unfold Keyword.ofSpelling? at h
  have hfound := List.find?_some h
  exact eq_of_beq hfound

/-- What a word is read as it spells. -/
theorem word_spelled {c : Char} {cs : List Char} (hc : startsIdent c = true)
    (hcs : ∀ d ∈ cs, continuesIdent d = true) :
    Spells (c :: cs) (lexemeOfWord (String.ofList (c :: cs))) [] := by
  have hchars {w : String} (h : String.ofList (c :: cs) = w) : c :: cs = w.toList := by
    rw [← h, String.toList_ofList]
  unfold lexemeOfWord
  split
  · rename_i h
    rw [hchars h]
    exact .truth
  split
  · rename_i h
    rw [hchars h]
    exact .falsity
  rename_i htrue hfalse
  split
  · rename_i k hk
    rw [hchars (ofSpelling?_some hk).symm]
    exact .keyword k
  · rename_i hk
    refine .ident hc hcs ?_
    rintro (h | h | ⟨k, h⟩)
    · exact htrue h
    · exact hfalse h
    · rw [hk] at h
      cases h

/-- What is split off where a number starts is the start of one. -/
theorem splitNumber_starts {cs : List Char} (h : StartsNumeral cs) :
    StartsNumeral (splitNumber false cs).1 := by
  obtain hdigit | ⟨ds, rfl, hds⟩ := h
  · exact Or.inl ((splitNumber_found false cs).2.2 hdigit)
  · rw [splitNumber_point]
    exact Or.inr ⟨_, rfl, (splitNumber_found true ds).2.2 hds⟩

/-- A numeral with an f behind is read with it. -/
theorem readNumber_suffixed {cs spelled rest : List Char}
    (h : splitNumber false cs = (spelled, 'f' :: rest)) :
    readNumber cs = (word (spelled ++ ['f']) (.literal .float (numeralText spelled)), rest) := by
  unfold readNumber
  rw [h]
  rfl

/-- A numeral without an f behind is read alone. -/
theorem readNumber_unsuffixed {cs spelled rest : List Char}
    (h : splitNumber false cs = (spelled, rest)) (hrest : rest.head? ≠ some 'f') :
    readNumber cs
      = (word spelled (.literal (if spelled.contains '.' then .double else .int)
          (numeralText spelled)), rest) := by
  unfold readNumber
  rw [h]
  dsimp only
  split
  · exact absurd (List.head?_cons) hrest
  · rfl

/-- A number is read up to what a numeral does not go on with, and an `f` if
one comes there. -/
theorem number_spelled {cs : List Char} (h : StartsNumeral cs) :
    IsWord (readNumber cs).1 ∧ (readNumber cs).1.chars ++ (readNumber cs).2 = cs := by
  obtain ⟨happend, ⟨point, hnumeral⟩, -⟩ := splitNumber_found false cs
  have hstarts := splitNumber_starts h
  cases hsplit : splitNumber false cs with
  | mk spelled rest =>
      rw [hsplit] at happend hnumeral hstarts
      dsimp only at happend hnumeral hstarts
      by_cases hf : rest.head? = some 'f'
      · obtain ⟨rest, rfl⟩ := List.head?_eq_some_iff.1 hf
        rw [readNumber_suffixed hsplit]
        refine ⟨⟨_, rfl, .float hnumeral hstarts⟩, ?_⟩
        rw [← happend]
        exact (List.append_cons _ _ _).symm
      · rw [readNumber_unsuffixed hsplit hf]
        refine ⟨⟨_, rfl, ?_⟩, happend⟩
        rw [hnumeral.contains]
        cases point with
        | true => exact .double hnumeral hstarts
        | false => exact .integer hnumeral hstarts

theorem symbolOfOne?_spelling {c : Char} {s : Symbol} (h : symbolOfOne? c = some s) :
    s.spelling.toList = [c] := by
  unfold symbolOfOne? at h
  split at h <;> cases h <;> rfl

/-- A symbol of two characters is spelled by them. -/
theorem symbolOfTwo?_spelling {c d : Char} {s : Symbol} (h : symbolOfTwo? c d = some s) :
    s.spelling.toList = [c, d] := by
  unfold symbolOfTwo? at h
  split at h <;> cases h <;> rfl

/-- Two characters that make a symbol are read as it, whatever the first alone
makes. -/
theorem readSymbol_two {c d : Char} {s : Symbol} (h : symbolOfTwo? c d = some s)
    (cs : List Char) : readSymbol c (d :: cs) = (word [c, d] (.symbol s), cs) := by
  unfold readSymbol
  dsimp only
  rw [h]

/-- Without a second character that goes with it, the first stands alone. -/
theorem readSymbol_one {c : Char} {cs : List Char} (h : ∀ d ∈ cs.head?, symbolOfTwo? c d = none) :
    readSymbol c cs =
      match symbolOfOne? c with
      | some s => (word [c] (.symbol s), cs)
      | none => (⟨[c], none, [(0, .unexpected c)]⟩, cs) := by
  unfold readSymbol
  cases cs with
  | nil => rfl
  | cons d cs =>
      dsimp only
      cases htwo : symbolOfTwo? c d with
      | none => rfl
      | some s =>
          rw [h d rfl] at htwo
          cases htwo

/-- A symbol of two characters or of one is read, or a character that starts
nothing. -/
theorem readSymbol_cases (c : Char) (cs : List Char) :
    (∃ d rest s, cs = d :: rest ∧ symbolOfTwo? c d = some s
        ∧ readSymbol c cs = (word [c, d] (.symbol s), rest))
      ∨ (∃ s, symbolOfOne? c = some s ∧ readSymbol c cs = (word [c] (.symbol s), cs))
      ∨ readSymbol c cs = (⟨[c], none, [(0, .unexpected c)]⟩, cs) := by
  cases htwo : cs.head?.bind (symbolOfTwo? c) with
  | some s =>
      obtain ⟨d, hd, hs⟩ := Option.bind_eq_some_iff.1 htwo
      obtain ⟨rest, rfl⟩ := List.head?_eq_some_iff.1 hd
      exact .inl ⟨d, rest, s, rfl, hs, readSymbol_two hs rest⟩
  | none =>
      have hread := readSymbol_one (Option.bind_eq_none_iff.1 htwo)
      cases hs : symbolOfOne? c with
      | some s => exact .inr (.inl ⟨s, rfl, by rw [hread, hs]⟩)
      | none => exact .inr (.inr (by rw [hread, hs]))

/-- A symbol is read as a word, or a character that starts nothing. -/
theorem symbol_spelled (c : Char) (cs : List Char) :
    (IsWord (readSymbol c cs).1 ∨ (readSymbol c cs).1 = ⟨[c], none, [(0, .unexpected c)]⟩)
      ∧ (readSymbol c cs).1.chars ++ (readSymbol c cs).2 = c :: cs := by
  have hword {s : Symbol} {ds : List Char} (h : s.spelling.toList = ds) :
      IsWord (word ds (.symbol s)) := ⟨.symbol s, rfl, h ▸ .symbol s⟩
  obtain ⟨d, rest, s, rfl, hs, hread⟩ | ⟨s, hs, hread⟩ | hread := readSymbol_cases c cs
  · rw [hread]
    exact ⟨Or.inl (hword (symbolOfTwo?_spelling hs)), rfl⟩
  · rw [hread]
    exact ⟨Or.inl (hword (symbolOfOne?_spelling hs)), rfl⟩
  · rw [hread]
    exact ⟨Or.inr rfl, rfl⟩

/-- Whether a piece is no word but faulty from its first character on, and not
for being a character that starts nothing. -/
def IsSkipped (p : Piece) : Prop :=
  p.lexeme = none ∧ p.chars ≠ [] ∧ (∃ fault, (0, fault) ∈ p.faults)
    ∧ ∀ f ∈ p.faults, ∀ c, f.2 ≠ .unexpected c

theorem readQuoted_escapes (quote : Char) (cs : List Char) :
    OnlyEscapes (readQuoted quote cs).faults := by
  fun_induction readQuoted quote cs with
  | case1 => exact nofun
  | case2 => exact nofun
  | case3 c cs v hescape ih => exact ih.shifted 2
  | case4 c cs hescape ih => exact List.forall_mem_cons.2 ⟨⟨c, rfl⟩, ih.shifted 2⟩
  | case5 cs => exact nofun
  | case6 cs hline => exact nofun
  | case7 c cs halone hescaped hline hquote ih => exact ih.shifted 1

/-- A quoted text is read as a word, or skipped. -/
theorem quoted_spelled {quote : Char} (cs : List Char) {unterminated : LexicalFault}
    {read : List Char → Except LexicalFault Lexeme}
    (hunterminated : ∀ c, unterminated ≠ .unexpected c)
    (hok : ∀ {body value faults l}, Quotes quote body value faults → read value = .ok l →
      Spells (quote :: (body ++ [quote])) l (shifted 1 faults))
    (herror : ∀ {value fault}, read value = .error fault → ∀ c, fault ≠ .unexpected c) :
    (IsWord (ofQuoted quote (readQuoted quote cs) unterminated read)
        ∨ IsSkipped (ofQuoted quote (readQuoted quote cs) unterminated read))
      ∧ (ofQuoted quote (readQuoted quote cs) unterminated read).chars
        ++ (readQuoted quote cs).rest = quote :: cs := by
  have hfaults := readQuoted_escapes quote cs
  have hfound := readQuoted_found quote cs
  generalize readQuoted quote cs = q at hfaults hfound ⊢
  have hskipped {fault : LexicalFault} (hfault : ∀ c, fault ≠ .unexpected c) :
      IsSkipped ⟨quote :: q.consumed, none, shifted 1 q.faults ++ [(0, fault)]⟩ := by
    refine ⟨rfl, List.cons_ne_nil _ _, ⟨fault, List.mem_append_right _ (List.mem_singleton.2 rfl)⟩,
      fun f hf c => ?_⟩
    obtain hf | hf := List.mem_append.1 hf
    · obtain ⟨d, hd⟩ := hfaults.shifted 1 f hf
      rw [hd]
      exact nofun
    · rw [List.mem_singleton.1 hf]
      exact hfault c
  unfold ofQuoted
  cases hfound with
  | closed body hclosed hconsumed hcs hbody =>
      have hwhole : quote :: q.consumed ++ q.rest = quote :: cs := by
        rw [hcs, hconsumed, List.cons_append, List.append_assoc]
        rfl
      dsimp only
      rw [if_pos hclosed]
      cases hread : read q.value with
      | ok l =>
          refine ⟨Or.inl ⟨l, rfl, ?_⟩, hwhole⟩
          show Spells (quote :: q.consumed) l _
          rw [hconsumed]
          exact hok hbody hread
      | error fault => exact ⟨Or.inr (hskipped (herror hread)), hwhole⟩
  | unclosed hclosed hcs =>
      dsimp only
      rw [hclosed, hcs]
      exact ⟨Or.inr (hskipped hunterminated), rfl⟩

theorem readString_ok {body value : List Char} {faults : List (Nat × LexicalFault)} {l : Lexeme}
    (hbody : Quotes '"' body value faults) (h : readString value = .ok l) :
    Spells ('"' :: (body ++ ['"'])) l (shifted 1 faults) := by
  cases h
  exact .string hbody

theorem readCharacter_ok {body value : List Char} {faults : List (Nat × LexicalFault)} {l : Lexeme}
    (hbody : Quotes '\'' body value faults) (h : readCharacter value = .ok l) :
    Spells ('\'' :: (body ++ ['\''])) l (shifted 1 faults) := by
  unfold readCharacter at h
  split at h
  · split at h
    · rename_i hsize
      cases h
      exact .char hbody hsize
    · cases h
  · cases h

theorem readCharacter_error {value : List Char} {fault : LexicalFault}
    (h : readCharacter value = .error fault) (c : Char) : fault ≠ .unexpected c := by
  unfold readCharacter at h
  split at h
  · split at h <;> cases h
    exact nofun
  · cases h
    exact nofun

end Piece

end MiniC
