/-
Reading a source byte by byte. A scanner that sees nothing but bytes goes over
a source with a position that it moves for every byte: it tells words, numbers,
quoted texts and symbols by single bytes, an unknown escape takes one byte of
its character, and a character that starts nothing is looked for in a window of
four bytes. It is shown to do what cutting the characters does
(`scan_segmented`).

# Bytes and characters

Nothing that the scanner asks of a byte tells the bytes of a longer encoding apart:
each question is answered alike for all characters above 127, so it may be asked of a
byte (`Bytewise`). A scanner in front of characters (`before`) therefore sees what the
reader of characters sees, and eats what that one takes.

# Where the two part

Three things are done byte by byte that the reader does by whole characters. Inside a
quoted text a long character is eaten one byte at a time, and each byte is plain, so
its bytes come out together (`quotedFrom_wide`). An escape looks at one byte only; if
it is the first of a long character, that byte is reported and the others are plain
(`firstByte_eq`). And a character that starts nothing is decoded from a window, which
holds all its bytes, since no encoding has more than four (`window_encode`).

# Turns

Each turn of the scanner takes the bytes of one piece, leaves its token or its
diagnostics, and stands in front of the rest (`turn_eq`). As many turns as there are
bytes suffice, since each piece has some (`next_encode_length`); so the scanner goes
through a source segment by segment, from the first byte to the last.
-/
import MiniC.Proofs.Token.Pieces

namespace MiniC

-- ================================================================= scanner

/-- What a scanner has before it, where it is, and what it has reported. -/
structure Scan where
  data : List UInt8
  pos : Position
  diagnostics : List Diagnostic

namespace Scan

open Piece

/-- One of the next bytes. -/
def look (s : Scan) (i : Nat) : Option Char := s.data[i]?.map charOfByte

/-- Takes bytes. -/
def eat (s : Scan) (n : Nat) : Scan :=
  ⟨s.data.drop n, s.pos.advanceBytes (s.data.take n), s.diagnostics⟩

/-- Reports an error. -/
def report (s : Scan) (pos : Position) (message : String) : Scan :=
  { s with diagnostics := s.diagnostics ++ [⟨.error, message, pos⟩] }

/-- Puts bytes in front of a text that was read. -/
def prepend (bytes : List UInt8) (r : Option (List UInt8) × Scan) : Option (List UInt8) × Scan :=
  (r.1.map (bytes ++ ·), r.2)

/-- Takes the bytes up to a closing quote and the quote. There is no text if the
line or the source ends first. -/
def quotedFrom (quote : Char) :
    List UInt8 → Position → List Diagnostic → Option (List UInt8) × Scan
  | [], pos, ds => (none, ⟨[], pos, ds⟩)
  | b :: bs, pos, ds =>
    if charOfByte b = '\\' then
      match bs with
      | [] => (none, ⟨[], pos.advanceByte b, ds⟩)
      | e :: rest =>
        let escaped := pos.advanceByte b
        match escape? (charOfByte e) with
        | some v => prepend (encode [v]) (quotedFrom quote rest (escaped.advanceByte e) ds)
        | none =>
          let message :=
            "unknown escape sequence '\\" ++ String.singleton (charOfByte e) ++ "'"
          prepend [e] (quotedFrom quote rest (escaped.advanceByte e)
            (ds ++ [⟨.error, message, escaped⟩]))
    else if charOfByte b = '\n' then (none, ⟨b :: bs, pos, ds⟩)
    else if charOfByte b = quote then (some [], ⟨bs, pos.advanceByte b, ds⟩)
    else prepend [b] (quotedFrom quote bs (pos.advanceByte b) ds)

/-- Takes a quoted text, whose opening quote comes next. -/
def quoted (s : Scan) (quote : Char) : Option (List UInt8) × Scan :=
  let t := s.eat 1
  quotedFrom quote t.data t.pos t.diagnostics

/-- The bytes of a numeral: what it says, whether it has a point, and how many
bytes it takes. -/
structure Digits where
  text : List Char
  point : Bool
  count : Nat

/-- The numeral that bytes start with, a point in front of them or not. -/
def digits : Bool → List UInt8 → Digits
  | seen, [] => ⟨[], seen, 0⟩
  | seen, b :: bs =>
    let c := charOfByte b
    if c.isDigit then
      let d := digits seen bs
      ⟨c :: d.text, d.point, d.count + 1⟩
    else if c = '.' && !seen then
      let d := digits true bs
      ⟨c :: d.text, d.point, d.count + 1⟩
    else if c = ',' && (bs.head?.any fun b => (charOfByte b).isDigit) && !seen then
      let d := digits seen bs
      ⟨d.text, d.point, d.count + 1⟩
    else ⟨[], seen, 0⟩

/-- Takes a number. -/
def number (s : Scan) : Option Token × Scan :=
  let d := digits false s.data
  let t := s.eat d.count
  let text := String.ofList d.text
  if t.look 0 = some 'f' then (some ⟨.literal .float text, s.pos⟩, t.eat 1)
  else (some ⟨.literal (if d.point then .double else .int) text, s.pos⟩, t)

/-- Takes a word. -/
def word (s : Scan) : Option Token × Scan :=
  let more := s.data.tail.takeWhile fun b => continuesIdent (charOfByte b)
  let count := 1 + more.length
  (some ⟨lexemeOfWord (textOfBytes (s.data.take count)), s.pos⟩, s.eat count)

/-- A character literal holds one byte. -/
def readByte : List UInt8 → Except LexicalFault Lexeme
  | [b] => .ok (.literal .char (toString b.toNat))
  | _ => .error .characterLength

/-- Takes a character literal. -/
def character (s : Scan) : Option Token × Scan :=
  match s.quoted '\'' with
  | (some bytes, t) =>
    match readByte bytes with
    | .ok l => (some ⟨l, s.pos⟩, t)
    | .error fault => (none, t.report s.pos fault.message)
  | (none, t) => (none, t.report s.pos LexicalFault.unterminatedCharacter.message)

/-- Takes a string literal. -/
def string (s : Scan) : Option Token × Scan :=
  match s.quoted '"' with
  | (some bytes, t) => (some ⟨.literal .string (textOfBytes bytes), s.pos⟩, t)
  | (none, t) => (none, t.report s.pos LexicalFault.unterminatedString.message)

/-- Takes a comment. -/
def comment (s : Scan) : Scan :=
  s.eat (2 + ((s.data.drop 2).takeWhile fun b => charOfByte b ≠ '\n').length)

/-- Skips a character that starts nothing. It is looked for in a window of four
bytes, where the character behind it may be cut. -/
def unexpected (s : Scan) : Scan :=
  let count := ((charOfBytes? (s.data.take 4)).map Char.utf8Size).getD 1
  let shown := textOfBytes (s.data.take count)
  (s.eat count).report s.pos ("unexpected character '" ++ shown ++ "'")

/-- Takes a symbol, the longer one if two fit. -/
def symbol (s : Scan) (c : Char) : Option Token × Scan :=
  match (s.look 1).bind (symbolOfTwo? c) with
  | some two => (some ⟨.symbol two, s.pos⟩, s.eat 2)
  | none =>
    match symbolOfOne? c with
    | some one => (some ⟨.symbol one, s.pos⟩, s.eat 1)
    | none => (none, s.unexpected)

/-- One turn of the scanner, whose next byte is given. -/
def turn (s : Scan) (c : Char) : Option Token × Scan :=
  if isBlank c then (none, s.eat 1)
  else if startsIdent c then s.word
  else if c.isDigit || (c = '.' && (s.look 1).any Char.isDigit) then s.number
  else if c = '\'' then s.character
  else if c = '"' then s.string
  else if c = '/' && s.look 1 = some '/' then (none, s.comment)
  else s.symbol c

/-- At most so many turns: where each starts and what it reads, and the scanner
after the last. -/
def run : Nat → Scan → List (Position × Option Token) × Scan
  | 0, s => ([], s)
  | fuel + 1, s =>
    match s.data with
    | [] => ([], s)
    | b :: _ =>
      let (token, t) := s.turn (charOfByte b)
      let (turns, last) := run fuel t
      ((s.pos, token) :: turns, last)

end Scan

/-- The turns of a scanner over the bytes of a source. Every turn takes a byte, so
there are no more turns than bytes. -/
def scan (source : String) : List (Position × Option Token) × Scan :=
  Scan.run (bytesOf source).length ⟨bytesOf source, .start, []⟩

-- ================================================= what is asked of a byte

namespace Piece

/-- Whether digits start is asked of the first character. -/
theorem startsWithDigit_eq (cs : List Char) : startsWithDigit cs = cs.head?.any Char.isDigit := by
  cases cs <;> rfl

/-- A digit is looked for among bytes as among characters. -/
theorem startsWithDigit_encode (cs : List Char) :
    ((encode cs).head?.any fun b => (charOfByte b).isDigit) = startsWithDigit cs := by
  rw [bytewise_isDigit.head_any, startsWithDigit_eq]

theorem bytewise_isBlank : Bytewise isBlank false := by
  intro c hc
  unfold isBlank
  rw [decide_eq_false (ne_of_wide hc (by decide)), decide_eq_false (ne_of_wide hc (by decide)),
    decide_eq_false (ne_of_wide hc (by decide)), decide_eq_false (ne_of_wide hc (by decide))]
  rfl

theorem bytewise_startsIdent : Bytewise startsIdent false := by
  intro c hc
  unfold startsIdent
  rw [decide_eq_false (ne_of_wide hc (by decide)), bytewise_isAlpha c hc]
  rfl

theorem bytewise_continuesIdent : Bytewise continuesIdent false := by
  intro c hc
  unfold continuesIdent Char.isAlphanum
  rw [decide_eq_false (ne_of_wide hc (by decide)), bytewise_isAlpha c hc, bytewise_isDigit c hc]
  rfl

theorem bytewise_escape? : Bytewise escape? none := by
  intro c hc
  unfold escape?
  split
  case h_8 => rfl
  all_goals exact absurd hc (by decide)

theorem bytewise_symbolOfOne? : Bytewise symbolOfOne? none := by
  intro c hc
  unfold symbolOfOne?
  split
  case h_19 => rfl
  all_goals exact absurd hc (by decide)

theorem bytewise_symbolOfTwo? : Bytewise symbolOfTwo? fun _ => none := by
  intro c hc
  funext d
  unfold symbolOfTwo?
  split
  case h_13 => rfl
  all_goals exact absurd hc (by decide)

theorem bytewise_symbolOfTwo?_second (c : Char) : Bytewise (symbolOfTwo? c) none := by
  intro d hd
  unfold symbolOfTwo?
  split
  case h_13 => rfl
  all_goals exact absurd hd (by decide)

end Piece

namespace Scan

open Piece

-- =================================================== in front of characters

/-- A scanner in front of characters. -/
def before (cs : List Char) (pos : Position) (ds : List Diagnostic) : Scan := ⟨encode cs, pos, ds⟩

variable (pos : Position) (ds : List Diagnostic)

/-- Eating the bytes of a text stands in front of what follows it. -/
theorem before_eat (xs ys : List Char) :
    (before (xs ++ ys) pos ds).eat (encode xs).length = before ys (pos.advanceAll xs) ds := by
  unfold before eat
  dsimp only
  rw [encode_append, List.drop_left' rfl, List.take_left' rfl, Position.advanceBytes_encode]

/-- A plain character is one byte. -/
theorem before_eat_one {c : Char} (hc : c.toNat < 128) (cs : List Char) :
    (before (c :: cs) pos ds).eat 1 = before cs (pos.advance c) ds := by
  have heat := before_eat pos ds [c] cs
  rwa [encode_length_narrow hc] at heat

theorem before_take (xs ys : List Char) :
    (before (xs ++ ys) pos ds).data.take (encode xs).length = encode xs := by
  unfold before
  dsimp only
  rw [encode_append, List.take_left' rfl]

-- =========================================================== quoted texts

/-- The errors in characters that start at a place. -/
def errorsAt (pos : Position) (chars : List Char) (faults : List (Nat × LexicalFault)) :
    List Diagnostic :=
  faults.map fun f => ⟨.error, f.2.message, pos.advanceAll (chars.take f.1)⟩

/-- Faults behind more characters are reported that much further on. -/
theorem errorsAt_append {front : List Char} {faults : List (Nat × LexicalFault)}
    (hfront : ∀ f ∈ faults, f.1 ≤ front.length) (chars : List Char)
    (more : List (Nat × LexicalFault)) :
    errorsAt pos (front ++ chars) (faults ++ shifted front.length more)
      = errorsAt pos front faults ++ errorsAt (pos.advanceAll front) chars more := by
  unfold errorsAt shifted
  rw [List.map_append, List.map_map]
  congr 1
  · refine List.map_congr_left fun f hf => ?_
    rw [List.take_append_of_le_length (hfront f hf)]
  · refine List.map_congr_left fun f _ => ?_
    dsimp only [Function.comp]
    rw [Nat.add_comm, List.take_length_add_append, Position.advanceAll_append]

/-- What a scanner makes of a quoted text: the bytes of its value if it was
closed, and what is left. -/
def outcome (q : Quoted) (pos : Position) (ds : List Diagnostic) : Option (List UInt8) × Scan :=
  (if q.closed then some (encode q.value) else none,
    before q.rest (pos.advanceAll q.consumed) (ds ++ errorsAt pos q.consumed q.faults))

theorem outcome_faultless {q : Quoted} (h : q.faults = []) :
    outcome q pos ds = (if q.closed then some (encode q.value) else none,
      before q.rest (pos.advanceAll q.consumed) ds) := by
  unfold outcome errorsAt
  rw [h, List.map_nil, List.append_nil]

/-- A quoted text with one more character in front comes to one more character. -/
theorem outcome_extend (q : Quoted) {front : List Char} (v : Char)
    {faults : List (Nat × LexicalFault)} (hfront : ∀ f ∈ faults, f.1 ≤ front.length) :
    outcome (q.extend front v faults) pos ds
      = prepend (encode [v])
          (outcome q (pos.advanceAll front) (ds ++ errorsAt pos front faults)) := by
  unfold outcome prepend Quoted.extend
  refine Prod.ext ?_ ?_
  · dsimp only
    split
    · rw [← List.singleton_append, encode_append]
      rfl
    · rfl
  · dsimp only
    rw [Position.advanceAll_append, List.append_assoc]
    exact congrArg (before q.rest _ <| ds ++ ·) (errorsAt_append pos hfront _ _)

theorem prepend_cons (b : UInt8) (bs : List UInt8) (r : Option (List UInt8) × Scan) :
    prepend [b] (prepend bs r) = prepend (b :: bs) r := Prod.ext (Option.map_map _ _ r.1) rfl

variable {quote : Char}

/-- A plain byte is taken as it is. -/
theorem quotedFrom_plain {b : UInt8} (hescape : charOfByte b ≠ '\\')
    (hline : charOfByte b ≠ '\n') (hquote : charOfByte b ≠ quote) (bs : List UInt8) :
    quotedFrom quote (b :: bs) pos ds
      = prepend [b] (quotedFrom quote bs (pos.advanceByte b) ds) := by
  rw [quotedFrom.eq_def]
  dsimp only
  rw [if_neg hescape, if_neg hline, if_neg hquote]

/-- Bytes of a longer encoding stand for themselves. -/
theorem quotedFrom_wide (hquote : quote.toNat < 128) {bytes : List UInt8}
    (h : ∀ b ∈ bytes, 128 ≤ b.toNat) (rest : List UInt8) :
    quotedFrom quote (bytes ++ rest) pos ds
      = prepend bytes (quotedFrom quote rest (pos.advanceBytes bytes) ds) := by
  induction bytes generalizing pos with
  | nil => exact Prod.ext Option.map_id'.symm rfl
  | cons b bs ih =>
      obtain ⟨hb, hbs⟩ := List.forall_mem_cons.1 h
      have hwide : 128 ≤ (charOfByte b).toNat := by rwa [charOfByte_toNat]
      rw [List.cons_append, quotedFrom_plain pos ds (ne_of_wide hwide (by decide))
        (ne_of_wide hwide (by decide)) (ne_of_wide hwide hquote), ih _ hbs, prepend_cons]
      rfl

/-- An escape takes two bytes, and comes to what it stands for. -/
theorem quotedFrom_escape {e : UInt8} {v : Char} (h : escape? (charOfByte e) = some v)
    (rest : List UInt8) :
    quotedFrom quote (encode ['\\'] ++ e :: rest) pos ds
      = prepend (encode [v]) (quotedFrom quote rest ((pos.advance '\\').advanceByte e) ds) := by
  show quotedFrom quote (92 :: e :: rest) pos ds = _
  rw [quotedFrom.eq_def]
  dsimp only
  rw [if_pos (show charOfByte 92 = '\\' from rfl), h]
  rfl

/-- An unknown escape is reported, and its byte is taken as it is. -/
theorem quotedFrom_unknown {e : UInt8} (h : escape? (charOfByte e) = none) (rest : List UInt8) :
    quotedFrom quote (encode ['\\'] ++ e :: rest) pos ds
      = prepend [e] (quotedFrom quote rest ((pos.advance '\\').advanceByte e)
          (ds ++ [⟨.error, "unknown escape sequence '\\" ++ String.singleton (charOfByte e) ++ "'",
            pos.advance '\\'⟩])) := by
  show quotedFrom quote (92 :: e :: rest) pos ds = _
  rw [quotedFrom.eq_def]
  dsimp only
  rw [if_pos (show charOfByte 92 = '\\' from rfl), h]
  rfl

/-- At the end of the line a quoted text is given up. -/
theorem quotedFrom_stop {b : UInt8} (hline : charOfByte b = '\n') (bs : List UInt8) :
    quotedFrom quote (b :: bs) pos ds = (none, ⟨b :: bs, pos, ds⟩) := by
  rw [quotedFrom.eq_def]
  dsimp only
  rw [if_neg (by rw [hline]; decide), if_pos hline]

/-- The quote ends a quoted text. -/
theorem quotedFrom_close {b : UInt8} (hescape : charOfByte b ≠ '\\')
    (hline : charOfByte b ≠ '\n') (hquote : charOfByte b = quote) (bs : List UInt8) :
    quotedFrom quote (b :: bs) pos ds = (some [], ⟨bs, pos.advanceByte b, ds⟩) := by
  rw [quotedFrom.eq_def]
  dsimp only
  rw [if_neg hescape, if_neg hline, if_pos hquote]

/-- What is reported of an unknown escape is the first byte of its character. -/
theorem firstByte_eq {c : Char} {b : UInt8} {bs : List UInt8}
    (h : String.utf8EncodeChar c = b :: bs) : LexicalFault.firstByte c = charOfByte b := by
  unfold LexicalFault.firstByte
  rw [h]
  rfl

/-- A quoted text is read from its bytes as from its characters. -/
theorem quotedFrom_eq (hquote : quote.toNat < 128) (cs : List Char) :
    quotedFrom quote (encode cs) pos ds = outcome (readQuoted quote cs) pos ds := by
  fun_induction readQuoted quote cs generalizing pos ds with
  | case1 =>
      rw [outcome_faultless pos ds rfl]
      rfl
  | case2 =>
      rw [outcome_faultless pos ds rfl]
      rfl
  | case3 c cs v hescape ih =>
      have hc : c.toNat < 128 := bytewise_escape?.narrow (hescape ▸ Option.some_ne_none v)
      obtain ⟨e, hbytes, he⟩ := encoded_narrow hc
      have hnext := Position.advanceByte_char hbytes (pos.advance '\\')
      rw [outcome_extend pos ds _ v fun f hf => absurd hf List.not_mem_nil, encode_cons,
        encode_cons, ← encode_singleton, hbytes, List.singleton_append,
        quotedFrom_escape pos ds (he ▸ hescape), ih]
      show prepend _ (outcome _ (((pos.advance '\\').advanceByte e).advanceBytes []) ds)
        = prepend _ (outcome _ _ (ds ++ []))
      rw [List.append_nil, hnext]
      rfl
  | case4 c cs hescape ih =>
      obtain ⟨e, es, hbytes, hwide⟩ := encoded_cons c
      have he := bytewise_escape?.byte (hbytes ▸ List.mem_cons_self : e ∈ String.utf8EncodeChar c)
      have hfront : ∀ f ∈ [(1, LexicalFault.unknownEscape c)], f.1 ≤ ['\\', c].length := by
        intro f hf
        rw [List.mem_singleton.1 hf]
        exact Nat.le_succ 1
      rw [outcome_extend pos ds _ c hfront, encode_cons, encode_cons, ← encode_singleton,
        encode_singleton c, hbytes, List.cons_append, quotedFrom_unknown pos ds (he.trans hescape),
        quotedFrom_wide _ _ hquote hwide, prepend_cons, Position.advanceByte_char hbytes, ih,
        ← firstByte_eq hbytes]
      rfl
  | case5 cs =>
      rw [outcome_faultless pos ds rfl, encode_cons]
      exact quotedFrom_stop pos ds rfl _
  | case6 cs halone hescaped hline =>
      obtain ⟨b, hbytes, hb⟩ := encoded_narrow hquote
      rw [outcome_faultless pos ds rfl, encode_cons, hbytes, List.singleton_append,
        quotedFrom_close pos ds (hb ▸ ne_backslash halone hescaped) (hb ▸ hline) hb]
      show _ = (some [], before cs (pos.advance quote) ds)
      rw [← Position.advanceByte_char hbytes]
      rfl
  | case7 c cs halone hescaped hline hother ih =>
      rw [outcome_extend pos ds _ c fun f hf => absurd hf List.not_mem_nil, encode_cons]
      show _ = prepend _ (outcome _ (pos.advance c) (ds ++ []))
      rw [List.append_nil, ← ih, encode_singleton, ← Position.advanceBytes_char]
      obtain hc | hc := Nat.lt_or_ge c.toNat 128
      · obtain ⟨b, hbytes, hb⟩ := encoded_narrow hc
        rw [hbytes]
        exact quotedFrom_plain pos ds (hb ▸ ne_backslash halone hescaped) (hb ▸ hline)
          (hb ▸ hother) _
      · exact quotedFrom_wide pos ds hquote (encoded_wide hc) _

-- ================================================================ numbers

/-- Puts a character in front of a numeral. -/
def Digits.push (c : Char) (d : Digits) : Digits := ⟨c :: d.text, d.point, d.count + 1⟩

/-- What a spelling of a numeral says. -/
def Digits.ofSpelling (seen : Bool) (cs : List Char) : Digits :=
  ⟨cs.filter (· ≠ ','), seen || cs.contains '.', (encode cs).length⟩

/-- A digit is read into the number. -/
theorem Digits.ofSpelling_digit {c : Char} (hc : c.isDigit = true) (seen : Bool)
    (cs : List Char) : ofSpelling seen (c :: cs) = (ofSpelling seen cs).push c := by
  have hcomma : c ≠ ',' := by rintro rfl; exact absurd hc (by decide)
  have hpoint : c ≠ '.' := by rintro rfl; exact absurd hc (by decide)
  have hfilter : (c :: cs).filter (· ≠ ',') = c :: cs.filter (· ≠ ',') :=
    List.filter_cons_of_pos (by simpa using hcomma)
  unfold ofSpelling push
  rw [hfilter, encode_length_cons (bytewise_isDigit.narrow (Bool.ne_false_iff.2 hc)),
    List.contains_cons, beq_false_of_ne hpoint.symm, Bool.false_or]

theorem Digits.ofSpelling_point (cs : List Char) :
    ofSpelling false ('.' :: cs) = (ofSpelling true cs).push '.' := by
  unfold ofSpelling push
  rw [encode_length_cons (by decide)]
  rfl

/-- A comma is eaten and not read. -/
theorem Digits.ofSpelling_comma (cs : List Char) :
    ofSpelling false (',' :: cs)
      = { ofSpelling false cs with count := (ofSpelling false cs).count + 1 } := by
  unfold ofSpelling
  rw [encode_length_cons (by decide)]
  rfl

theorem digits_comma {bs : List UInt8}
    (h : (bs.head?.any fun b => (charOfByte b).isDigit) = true) :
    digits false (encode [','] ++ bs)
      = { digits false bs with count := (digits false bs).count + 1 } := by
  show digits false (44 :: bs) = _
  rw [digits, h]
  rfl

/-- What is neither a digit nor a point nor a comma between digits ends a number. -/
theorem digits_stop {seen : Bool} {b : UInt8} {bs : List UInt8}
    (hdigit : ¬ (charOfByte b).isDigit = true) (hpoint : ¬ (charOfByte b = '.' ∧ seen = false))
    (hcomma : ¬ (charOfByte b = ',' ∧ seen = false
      ∧ (bs.head?.any fun b => (charOfByte b).isDigit) = true)) :
    digits seen (b :: bs) = ⟨[], seen, 0⟩ := by
  rw [digits, if_neg hdigit, if_neg (by simpa using hpoint), if_neg]
  simp only [Bool.and_eq_true, decide_eq_true_eq, Bool.not_eq_true']
  exact fun h => hcomma ⟨h.1.1, h.2, h.1.2⟩

/-- A numeral is read from its bytes as from its characters. -/
theorem digits_eq (seen : Bool) (cs : List Char) :
    digits seen (encode cs) = .ofSpelling seen (splitNumber seen cs).1 := by
  induction cs generalizing seen with
  | nil =>
      show (⟨[], seen, 0⟩ : Digits) = ⟨[], seen || false, 0⟩
      rw [Bool.or_false]
  | cons c cs ih =>
      by_cases hdigit : c.isDigit = true
      · obtain ⟨b, hbytes, hb⟩ :=
          encoded_narrow (bytewise_isDigit.narrow (Bool.ne_false_iff.2 hdigit))
        rw [encode_cons, hbytes, List.singleton_append, digits, hb, if_pos hdigit, ih,
          splitNumber_digit hdigit, Digits.ofSpelling_digit hdigit]
        rfl
      by_cases hpoint : c = '.' ∧ seen = false
      · obtain ⟨rfl, rfl⟩ := hpoint
        rw [splitNumber_point, Digits.ofSpelling_point, ← ih]
        rfl
      by_cases hcomma : c = ',' ∧ seen = false ∧ startsWithDigit cs = true
      · obtain ⟨rfl, rfl, hcs⟩ := hcomma
        rw [splitNumber_comma hcs, Digits.ofSpelling_comma, ← ih, encode_cons, ← encode_singleton,
          digits_comma (startsWithDigit_encode cs ▸ hcs)]
      · obtain ⟨b, bs, hbytes, -⟩ := encoded_cons c
        have hb : b ∈ String.utf8EncodeChar c := hbytes ▸ List.mem_cons_self
        rw [splitNumber_stop hdigit hpoint hcomma, encode_cons, hbytes, List.cons_append,
          digits_stop]
        · show (⟨[], seen, 0⟩ : Digits) = ⟨[], seen || false, 0⟩
          rw [Bool.or_false]
        · rwa [bytewise_isDigit.byte hb]
        · rwa [charOfByte_eq_iff (by decide) hb]
        · rw [charOfByte_eq_iff (by decide) hb]
          rintro ⟨rfl, hseen, hdigits⟩
          obtain ⟨-, rfl⟩ := List.cons.inj hbytes
          rw [List.nil_append, startsWithDigit_encode] at hdigits
          exact hcomma ⟨rfl, hseen, hdigits⟩

-- ================================================================== turns

/-- What a turn makes of a piece: its word if it is one, and what is left. -/
def after (p : Piece) (rest : List Char) (pos : Position) (ds : List Diagnostic) :
    Option Token × Scan :=
  (p.token? pos, before rest (pos.advanceAll p.chars) (ds ++ p.diagnostics pos))

/-- Behind a word stands its token. -/
theorem after_word (chars : List Char) (l : Lexeme) (rest : List Char) :
    after (Piece.word chars l) rest pos ds
      = (some ⟨l, pos⟩, before rest (pos.advanceAll chars) ds) := by
  unfold after
  show (_, before rest _ (ds ++ [])) = _
  rw [List.append_nil]
  rfl

theorem after_blank (chars rest : List Char) :
    after (Piece.blank chars) rest pos ds = (none, before rest (pos.advanceAll chars) ds) := by
  unfold after
  show (_, before rest _ (ds ++ [])) = _
  rw [List.append_nil]
  rfl

theorem before_look_one {c : Char} (hc : c.toNat < 128) (cs : List Char) :
    (before (c :: cs) pos ds).look 1 = (encode cs).head?.map charOfByte := by
  obtain ⟨b, hbytes, -⟩ := encoded_narrow hc
  unfold before look
  dsimp only
  rw [encode_cons, hbytes, List.singleton_append, List.getElem?_cons_succ, List.head?_eq_getElem?]

theorem before_look_zero (cs : List Char) :
    (before cs pos ds).look 0 = (encode cs).head?.map charOfByte := by
  unfold before look
  rw [List.head?_eq_getElem?]

/-- A number is read from its bytes as from its characters. -/
theorem number_eq (cs : List Char) :
    (before cs pos ds).number = after (readNumber cs).1 (readNumber cs).2 pos ds := by
  obtain ⟨happend, -, -⟩ := splitNumber_found false cs
  have hdigits := digits_eq false cs
  cases hsplit : splitNumber false cs with
  | mk spelled rest =>
      rw [hsplit] at happend hdigits
      dsimp only at happend hdigits
      have heat := before_eat pos ds spelled rest
      rw [happend] at heat
      unfold number
      rw [show (before cs pos ds).data = encode cs from rfl, hdigits]
      dsimp only [Digits.ofSpelling]
      rw [heat, before_look_zero, Bool.false_or]
      by_cases hf : rest.head? = some 'f'
      · obtain ⟨rest, rfl⟩ := List.head?_eq_some_iff.1 hf
        rw [if_pos ((head_eq_iff (by decide) _).2 hf), before_eat_one _ _ (by decide),
          readNumber_suffixed hsplit, after_word, Position.advanceAll_append]
        rfl
      · rw [if_neg (mt (head_eq_iff (by decide) _).1 hf), readNumber_unsuffixed hsplit hf,
          after_word]
        rfl

/-- A word is read from its bytes as from its characters. -/
theorem word_eq {c : Char} (hc : startsIdent c = true) (cs : List Char) :
    (before (c :: cs) pos ds).word
      = after (Piece.word (c :: cs.takeWhile continuesIdent)
          (lexemeOfWord (String.ofList (c :: cs.takeWhile continuesIdent))))
          (cs.dropWhile continuesIdent) pos ds := by
  have hnarrow := bytewise_startsIdent.narrow (Bool.ne_false_iff.2 hc)
  obtain ⟨b, hbytes, -⟩ := encoded_narrow hnarrow
  have hmore : (before (c :: cs) pos ds).data.tail.takeWhile
      (fun b => continuesIdent (charOfByte b)) = encode (cs.takeWhile continuesIdent) := by
    rw [← bytewise_continuesIdent.takeWhile]
    unfold before
    rw [encode_cons, hbytes]
    rfl
  have hcount : 1 + (encode (cs.takeWhile continuesIdent)).length
      = (encode (c :: cs.takeWhile continuesIdent)).length := by
    rw [encode_length_cons hnarrow, Nat.add_comm]
  have hcs : c :: cs = c :: cs.takeWhile continuesIdent ++ cs.dropWhile continuesIdent :=
    congrArg (c :: ·) List.takeWhile_append_dropWhile.symm
  unfold word
  dsimp only
  rw [hmore, hcount, hcs, before_take, before_eat, textOfBytes_encode, after_word]
  rfl

/-- So is a comment. -/
theorem comment_eq (cs : List Char) :
    (before ('/' :: '/' :: cs) pos ds).comment
      = before (cs.dropWhile (· ≠ '\n'))
          (pos.advanceAll ('/' :: '/' :: cs.takeWhile (· ≠ '\n'))) ds := by
  have hmore : ((before ('/' :: '/' :: cs) pos ds).data.drop 2).takeWhile
      (fun b => charOfByte b ≠ '\n') = encode (cs.takeWhile (· ≠ '\n')) :=
    (bytewise_ne (by decide)).takeWhile cs
  have hcount : 2 + (encode (cs.takeWhile (· ≠ '\n'))).length
      = (encode ('/' :: '/' :: cs.takeWhile (· ≠ '\n'))).length := by
    rw [encode_length_cons (by decide), encode_length_cons (by decide), Nat.add_comm]
  have hcs : '/' :: '/' :: cs
      = '/' :: '/' :: cs.takeWhile (· ≠ '\n') ++ cs.dropWhile (· ≠ '\n') :=
    congrArg ('/' :: '/' :: ·) List.takeWhile_append_dropWhile.symm
  unfold comment
  rw [hmore, hcount, hcs, before_eat]

/-- A quoted text is read as its characters are. -/
theorem quoted_eq (hquote : quote.toNat < 128) (cs : List Char) :
    (before (quote :: cs) pos ds).quoted quote
      = outcome (readQuoted quote cs) (pos.advance quote) ds := by
  unfold quoted
  rw [before_eat_one pos ds hquote]
  exact quotedFrom_eq _ ds hquote cs

/-- What a turn makes of a quoted text. -/
theorem after_quoted (q : Quoted) (unterminated : LexicalFault)
    (read : List Char → Except LexicalFault Lexeme) :
    after (ofQuoted quote q unterminated read) q.rest pos ds =
      match if q.closed then read q.value else .error unterminated with
      | .ok l => (some ⟨l, pos⟩, (outcome q (pos.advance quote) ds).2)
      | .error fault => (none, (outcome q (pos.advance quote) ds).2.report pos fault.message) := by
  have hinner : errorsAt pos (quote :: q.consumed) (q.faults.map fun f => (f.1 + 1, f.2))
      = errorsAt (pos.advance quote) q.consumed q.faults := by
    have happend := @errorsAt_append pos [quote] [] (fun f hf => absurd hf List.not_mem_nil)
      q.consumed q.faults
    exact happend.trans (List.nil_append _)
  have houter (fault : LexicalFault) :
      errorsAt pos (quote :: q.consumed) (q.faults.map (fun f => (f.1 + 1, f.2)) ++ [(0, fault)])
        = errorsAt (pos.advance quote) q.consumed q.faults
          ++ [⟨.error, fault.message, pos⟩] := by
    rw [← hinner]
    exact List.map_append
  unfold after ofQuoted
  dsimp only
  cases if q.closed = true then read q.value else .error unterminated with
  | ok l =>
      show (_, before q.rest _ (ds ++ errorsAt pos (quote :: q.consumed) _)) = _
      rw [hinner]
      rfl
  | error fault =>
      show (_, before q.rest _ (ds ++ errorsAt pos (quote :: q.consumed) (_ ++ [_]))) = _
      rw [houter, ← List.append_assoc]
      rfl

theorem outcome_closed {q : Quoted} (h : q.closed = true) :
    outcome q pos ds = (some (encode q.value), (outcome q pos ds).2) :=
  Prod.ext (if_pos h) rfl

theorem outcome_open {q : Quoted} (h : ¬ q.closed = true) :
    outcome q pos ds = (none, (outcome q pos ds).2) :=
  Prod.ext (if_neg h) rfl

/-- A string is read as its characters are. -/
theorem string_eq (cs : List Char) :
    (before ('"' :: cs) pos ds).string
      = after (ofQuoted '"' (readQuoted '"' cs) .unterminatedString readString)
          (readQuoted '"' cs).rest pos ds := by
  rw [after_quoted]
  unfold string
  rw [quoted_eq pos ds (by decide)]
  by_cases hclosed : (readQuoted '"' cs).closed = true
  · rw [outcome_closed _ _ hclosed, if_pos hclosed]
    dsimp only [readString]
    rw [textOfBytes_encode]
    rfl
  · rw [outcome_open _ _ hclosed, if_neg hclosed]
    rfl

theorem readByte_several {bytes : List UInt8} (h : bytes.length ≠ 1) :
    readByte bytes = .error .characterLength := by
  unfold readByte
  split
  · exact absurd rfl h
  · rfl

/-- One byte is what one character of one byte has. -/
theorem readByte_encode (value : List Char) : readByte (encode value) = readCharacter value := by
  have hone (c : Char) : (encode [c]).length = c.utf8Size := by
    rw [encode_singleton, String.length_utf8EncodeChar]
  match value with
  | [] => rfl
  | [c] =>
      unfold readCharacter
      dsimp only
      split
      · rename_i hsize
        have hc : c.toNat < 128 :=
          Nat.lt_succ_of_le (UInt32.le_iff_toNat_le.1 (Char.utf8Size_eq_one_iff.1 hsize))
        obtain ⟨b, hbytes, rfl⟩ := encoded_narrow hc
        rw [encode_singleton, hbytes, charOfByte_toNat]
        rfl
      · rename_i hsize
        exact readByte_several (hone c ▸ hsize)
  | c :: d :: cs =>
      have hc := c.utf8Size_pos
      have hd := d.utf8Size_pos
      refine readByte_several ?_
      rw [encode_cons, encode_cons, List.length_append, List.length_append,
        String.length_utf8EncodeChar, String.length_utf8EncodeChar]
      omega

/-- A character literal is read from its bytes as from its characters. -/
theorem character_eq (cs : List Char) :
    (before ('\'' :: cs) pos ds).character
      = after (ofQuoted '\'' (readQuoted '\'' cs) .unterminatedCharacter readCharacter)
          (readQuoted '\'' cs).rest pos ds := by
  rw [after_quoted]
  unfold character
  rw [quoted_eq pos ds (by decide)]
  by_cases hclosed : (readQuoted '\'' cs).closed = true
  · rw [outcome_closed _ _ hclosed, if_pos hclosed]
    dsimp only
    rw [readByte_encode]
    rfl
  · rw [outcome_open _ _ hclosed, if_neg hclosed]
    rfl

theorem before_look_one_eq_iff {a c : Char} (ha : a.toNat < 128) (hc : c.toNat < 128)
    (cs : List Char) : (before (c :: cs) pos ds).look 1 = some a ↔ cs.head? = some a := by
  rw [before_look_one pos ds hc]
  exact head_eq_iff ha cs

/-- A character that starts nothing is found in the window of four bytes,
whatever is cut behind it. -/
theorem window_encode (c : Char) (cs : List Char) :
    charOfBytes? ((encode (c :: cs)).take 4) = some c := by
  have hsize : (String.utf8EncodeChar c).length ≤ 4 :=
    le_of_eq_of_le (String.length_utf8EncodeChar c) c.utf8Size_le_four
  rw [encode_cons, List.take_append, List.take_of_length_le hsize, charOfBytes?_encode]

/-- A character that starts nothing is reported, and all its bytes are eaten. -/
theorem unexpected_eq (c : Char) (cs : List Char) :
    (before (c :: cs) pos ds).unexpected
      = before cs (pos.advance c)
          (ds ++ [⟨.error, (LexicalFault.unexpected c).message, pos⟩]) := by
  have hcount : c.utf8Size = (encode [c]).length := by
    rw [encode_singleton, String.length_utf8EncodeChar]
  have htake := before_take pos ds [c] cs
  have heat := before_eat pos ds [c] cs
  rw [← hcount, List.singleton_append] at htake heat
  unfold unexpected
  rw [show (before (c :: cs) pos ds).data.take 4 = (encode (c :: cs)).take 4 from rfl,
    window_encode]
  dsimp only [Option.map_some, Option.getD_some]
  rw [htake, heat, textOfBytes_encode]
  rfl

/-- A symbol is read from its bytes as from its characters, and so is a
character that starts nothing. -/
theorem symbol_eq (c : Char) (cs : List Char) :
    (before (c :: cs) pos ds).symbol c = after (readSymbol c cs).1 (readSymbol c cs).2 pos ds := by
  have hlook : ((before (c :: cs) pos ds).look 1).bind (symbolOfTwo? c)
      = cs.head?.bind (symbolOfTwo? c) := by
    obtain hc | hc := Nat.lt_or_ge c.toNat 128
    · rw [before_look_one pos ds hc, Option.bind_map]
      exact (bytewise_symbolOfTwo?_second c).head_bind cs
    · have hnone (o : Option Char) : o.bind (symbolOfTwo? c) = none := by
        rw [bytewise_symbolOfTwo? c hc, Option.bind_fun_none]
      rw [hnone, hnone]
  unfold symbol
  rw [hlook]
  cases htwo : cs.head?.bind (symbolOfTwo? c) with
  | some two =>
      obtain ⟨d, hd, hs⟩ := Option.bind_eq_some_iff.1 htwo
      obtain ⟨rest, rfl⟩ := List.head?_eq_some_iff.1 hd
      have hc : c.toNat < 128 := bytewise_symbolOfTwo?.narrow fun h => by
        rw [h] at hs
        cases hs
      have hsecond := (bytewise_symbolOfTwo?_second c).narrow (hs ▸ Option.some_ne_none two)
      have heat := before_eat pos ds [c, d] rest
      rw [encode_length_cons hc, encode_length_narrow hsecond] at heat
      rw [readSymbol_two hs, after_word, ← heat]
      rfl
  | none =>
      rw [readSymbol_one (Option.bind_eq_none_iff.1 htwo)]
      cases hs : symbolOfOne? c with
      | some one =>
          have hc := bytewise_symbolOfOne?.narrow (hs ▸ Option.some_ne_none one)
          dsimp only
          rw [after_word, before_eat_one pos ds hc]
          rfl
      | none =>
          dsimp only
          rw [unexpected_eq]
          rfl

/-- A turn asks of a byte what it would ask of its character. -/
theorem turn_byte {c : Char} {b : UInt8} (hb : b ∈ String.utf8EncodeChar c) (s : Scan) :
    s.turn (charOfByte b) = s.turn c := by
  have hsymbol : s.symbol (charOfByte b) = s.symbol c := by
    unfold symbol
    rw [bytewise_symbolOfTwo?.byte hb, bytewise_symbolOfOne?.byte hb]
  have heq {a : Char} (ha : a.toNat < 128) : (charOfByte b = a) = (c = a) :=
    propext (charOfByte_eq_iff ha hb)
  unfold turn
  simp only [bytewise_isBlank.byte hb, bytewise_startsIdent.byte hb, bytewise_isDigit.byte hb,
    hsymbol, heq (show '.'.toNat < 128 by decide), heq (show '\''.toNat < 128 by decide),
    heq (show '"'.toNat < 128 by decide), heq (show '/'.toNat < 128 by decide)]

/-- A turn of the scanner takes the bytes of the next piece. -/
theorem turn_eq (c : Char) (cs : List Char) :
    (before (c :: cs) pos ds).turn c = after (next c cs).1 (next c cs).2 pos ds := by
  have hnumber : (c.isDigit || (c = '.' && ((before (c :: cs) pos ds).look 1).any Char.isDigit))
      = (c.isDigit || (c = '.' && startsWithDigit cs)) := by
    by_cases hc : c = '.'
    · subst hc
      rw [before_look_one pos ds (by decide), Option.any_map, ← startsWithDigit_encode]
    · rw [decide_eq_false hc, Bool.false_and, Bool.false_and]
  unfold turn next
  rw [hnumber]
  split
  · rename_i hblank
    rw [after_blank, before_eat_one pos ds (bytewise_isBlank.narrow (Bool.ne_false_iff.2 hblank))]
    rfl
  split
  · rename_i hc
    exact word_eq pos ds hc cs
  split
  · exact number_eq pos ds (c :: cs)
  split
  · rename_i hc
    subst hc
    exact character_eq pos ds cs
  split
  · rename_i hc
    subst hc
    exact string_eq pos ds cs
  have hlook (cs : List Char) :
      (before ('/' :: cs) pos ds).look 1 = some '/' ↔ cs.head? = some '/' :=
    before_look_one_eq_iff pos ds (by decide) (by decide) cs
  by_cases hcomment : c = '/' ∧ cs.head? = some '/'
  · obtain ⟨rfl, hslash⟩ := hcomment
    obtain ⟨cs, rfl⟩ := List.head?_eq_some_iff.1 hslash
    rw [(hlook _).2 hslash, comment_eq]
    exact (after_blank pos ds ('/' :: '/' :: cs.takeWhile (· ≠ '\n')) _).symm
  · have hother : ¬ (c = '/' ∧ (before (c :: cs) pos ds).look 1 = some '/') := by
      rintro ⟨rfl, hslash⟩
      exact hcomment ⟨rfl, (hlook cs).1 hslash⟩
    rw [if_neg (by simpa using hother), if_neg (by simpa using hcomment)]
    exact symbol_eq pos ds c cs

/-- A turn leaves less behind than it found. -/
theorem next_encode_length (c : Char) (cs : List Char) :
    (encode (next c cs).2).length < (encode (c :: cs)).length := by
  obtain ⟨haccounted, happend⟩ := next_accounted c cs
  rw [← happend, encode_append, List.length_append]
  exact Nat.lt_add_of_pos_left (encode_length_pos haccounted.ne_nil)

theorem run_nil (turns : Nat) :
    run turns (before [] pos ds) = ([], before [] pos (ds ++ [])) := by
  rw [List.append_nil]
  cases turns <;> rfl

/-- A turn is taken, and then the rest. -/
theorem run_cons (turns : Nat) (c : Char) (cs : List Char) :
    run (turns + 1) (before (c :: cs) pos ds)
      = let later := run turns (after (next c cs).1 (next c cs).2 pos ds).2
        ((pos, (next c cs).1.token? pos) :: later.1, later.2) := by
  obtain ⟨b, bs, hbytes, -⟩ := encoded_cons c
  have hb : b ∈ String.utf8EncodeChar c := hbytes ▸ List.mem_cons_self
  have hdata : (before (c :: cs) pos ds).data = b :: (bs ++ encode cs) := by
    unfold before
    rw [encode_cons, hbytes, List.cons_append]
  rw [run, hdata]
  dsimp only
  rw [turn_byte hb, turn_eq]
  rfl

/-- The turns of a scanner in front of characters are those of their pieces, and
it ends behind the last. -/
theorem run_eq (turns : Nat) (cs : List Char) (hturns : (encode cs).length ≤ turns) :
    run turns (before cs pos ds)
      = ((place pos (ofText cs)).map fun s => (s.1, s.2.token? s.1),
          before [] (pos.advanceAll cs)
            (ds ++ (place pos (ofText cs)).flatMap fun s => s.2.diagnostics s.1)) := by
  induction turns generalizing cs pos ds with
  | zero =>
      cases cs with
      | nil => exact run_nil pos ds _
      | cons c cs => exact absurd (encode_length_pos (List.cons_ne_nil c cs)) (by omega)
  | succ turns ih =>
      cases cs with
      | nil => exact run_nil pos ds _
      | cons c cs =>
          have hlength := next_encode_length c cs
          have happend := (next_accounted c cs).2
          rw [run_cons]
          dsimp only [after]
          rw [ih _ _ _ (by omega), ← Position.advanceAll_append, happend, List.append_assoc,
            ofText_cons]
          rfl

end Scan

/-- The scanner loses nothing: its turns over the bytes of a source are at the
segments of it, with the tokens of these, and behind the last no byte is left. -/
theorem scan_segmented (source : String) :
    Segmented source (segmentsOf source)
      ∧ scan source
        = ((segmentsOf source).map fun s => (s.1, s.2.token? s.1),
            ⟨[], Position.start.advanceAll source.toList, (tokenize source).2⟩) := by
  refine ⟨tokenize_segmented source, ?_⟩
  unfold scan
  rw [bytesOf_eq]
  exact Scan.run_eq .start [] _ source.toList (Nat.le_refl _)

end MiniC
