/-
Where the caret stands (`frontend_carets`).

# Reported places

Whatever is reported of a source text is reported at one of its characters: the
first one of a word or of something faulty, or one behind a backslash, so never
at the newline behind a carriage return (`frontend_atCharacter`). That last point
matters because such a newline is on no line that is shown.

# Lines

A text is cut into lines at its newlines, and a carriage return in front of one
goes with it. The line around a place is found by its number, which is how many
newlines are in front of the place, and begins behind the last of them
(`SourceLine.getElem?_sourceLines`, `SourceLine.line_column`).

# Carets

Under the line stands the caret, behind as many characters of the line as it has
bytes in front of the place (`SourceLine.Around.render`). The caret therefore
points at the character reported if no character in front of it on its line has
more than one byte, and else only if it is the line's ending that is reported:
the pad is never longer than the line.
Consumed by no other module.
-/
import MiniC.Proofs.Reporting

namespace MiniC

-- ============================================================ lines of a text

/-- How a line ends, given what is on it and below it: with a newline, with a
carriage return and a newline, or with the text. -/
inductive LineEnding (text : List Char) : List Char → List Char → Prop where
  | newline {below : List Char} : text.getLast? ≠ some '\r' → LineEnding text ['\n'] below
  | returned {below : List Char} : LineEnding text ['\r', '\n'] below
  | last : LineEnding text [] []

/-- What is further on the line ends in the same way. -/
theorem LineEnding.tail {c : Char} {text ending below : List Char}
    (h : LineEnding (c :: text) ending below) : LineEnding text ending below := by
  cases h with
  | newline hlast =>
      refine .newline fun h => hlast ?_
      rw [List.getLast?_cons, h]
      rfl
  | returned => exact .returned
  | last => exact .last

/-- A character that ends no line is the first one of its line. -/
theorem sourceLines_cons {c : Char} {cs : List Char} (hnewline : c ≠ '\n')
    (hreturn : c = '\r' → cs.head? ≠ some '\n') :
    sourceLines (c :: cs) = (c :: (sourceLines cs).headD []) :: (sourceLines cs).tail := by
  rw [sourceLines]
  · cases sourceLines cs <;> rfl
  · exact hnewline
  · rintro ds hc rfl
    exact hreturn hc rfl

/-- A carriage return in front of a newline is on no line. -/
theorem sourceLines_return {cs : List Char} (h : cs.head? = some '\n') :
    sourceLines ('\r' :: cs) = sourceLines cs := by
  obtain ⟨ds, rfl⟩ := List.head?_eq_some_iff.1 h
  rfl

/-- A line comes first, without its ending. -/
theorem sourceLines_line {text ending below : List Char} (htext : '\n' ∉ text)
    (hending : LineEnding text ending below) (hne : text ++ ending ≠ []) :
    sourceLines (text ++ (ending ++ below)) = text :: sourceLines below := by
  induction text with
  | nil =>
      cases hending with
      | newline => rfl
      | returned => rfl
      | last => exact absurd rfl hne
  | cons c text ih =>
      obtain ⟨hc, hrest⟩ := not_or.1 (mt List.mem_cons.2 htext)
      have hreturn : c = '\r' → (text ++ (ending ++ below)).head? ≠ some '\n' := by
        rintro rfl hhead
        cases text with
        | nil =>
            cases hending with
            | newline hlast => exact hlast rfl
            | returned => cases hhead
            | last => cases hhead
        | cons d text =>
            obtain rfl := Option.some.inj hhead
            exact hrest List.mem_cons_self
      rw [List.cons_append, sourceLines_cons (Ne.symm hc) hreturn]
      by_cases hempty : text ++ ending = []
      · obtain ⟨rfl, rfl⟩ := List.append_eq_nil_iff.1 hempty
        cases hending
        rfl
      · rw [ih hrest hending.tail hempty]
        rfl

/-- A line has as many above it as there are newlines. -/
theorem drop_sourceLines (above rest : List Char) :
    (sourceLines (above ++ '\n' :: rest)).drop (above.count '\n' + 1) = sourceLines rest := by
  induction above with
  | nil => rfl
  | cons c above ih =>
      by_cases hc : c = '\n'
      · rw [hc, List.count_cons_self]
        exact ih
      rw [List.count_cons_of_ne hc, List.cons_append]
      by_cases hreturn : c = '\r' ∧ (above ++ '\n' :: rest).head? = some '\n'
      · rw [hreturn.1, sourceLines_return hreturn.2, ih]
      · rw [sourceLines_cons hc (not_and.1 hreturn), List.drop_succ_cons, List.drop_tail, ih]

-- ============================================================= around a place

/-- A line of a text, cut at a place on it: what is above it, on it in front of the
place, on it from the place on, its ending, and what is below it. -/
structure SourceLine where
  above : List Char
  lead : List Char
  trail : List Char
  ending : List Char
  below : List Char

namespace SourceLine

/-- The line without its ending. -/
def text (l : SourceLine) : List Char := l.lead ++ l.trail

/-- Whether it is the line that contains a byte of a source text, and is cut there. -/
structure Around (source : String) (offset : Nat) (l : SourceLine) : Prop where
  whole : source.toList = l.above ++ (l.text ++ (l.ending ++ l.below))
  starts : l.above = [] ∨ l.above.getLast? = some '\n'
  single : '\n' ∉ l.text
  ends : LineEnding l.text l.ending l.below
  place : offset = (encode (l.above ++ l.lead)).length
  inside : l.trail ++ l.ending ≠ []

end SourceLine

namespace Position

/-- Behind characters the line is further on by their newlines. -/
theorem advanceAll_line (p : Position) (cs : List Char) :
    (p.advanceAll cs).line = p.line + cs.count '\n' := by
  induction cs generalizing p with
  | nil => rfl
  | cons c cs ih =>
      rw [advanceAll_cons, ih]
      by_cases hc : c = '\n'
      · rw [hc, List.count_cons_self]
        exact Nat.succ_add_eq_add_succ _ _
      · rw [List.count_cons_of_ne hc, advance, if_neg hc]

/-- Behind characters without a newline the column is further on by their bytes. -/
theorem advanceAll_of_not_mem {cs : List Char} (h : '\n' ∉ cs) (p : Position) :
    p.advanceAll cs
      = ⟨p.line, p.column + (encode cs).length, p.offset + (encode cs).length⟩ := by
  rw [← advanceBytes_encode]
  refine advanceBytes_of_not_mem (fun hmem => ?_) p
  obtain ⟨c, hc, hbyte⟩ := List.mem_flatMap.1 hmem
  exact newlineByte_not_mem (ne_of_mem_of_not_mem hc h) hbyte

/-- An exact position is known by its offset. -/
theorem Exact.eq_of_offset {source : String} {p q : Position} (hp : p.Exact source)
    (hq : q.Exact source) (h : p.offset = q.offset) : p = q := by
  have hline : p.line = q.line := by rw [hp.line, hq.line, h]
  have hcolumn : p.column = q.column := by rw [hp.column, hq.column, h]
  cases p
  cases q
  cases hline
  cases hcolumn
  cases h
  rfl

end Position

namespace SourceLine.Around

variable {source : String} {l : SourceLine} {p : Position}

/-- An exact position has the number of its line, and in its column the bytes in
front of it there. -/
theorem line_column (h : l.Around source p.offset) (hexact : p.Exact source) :
    p.line = l.above.count '\n' + 1 ∧ p.column = (encode l.lead).length + 1 := by
  have hfront : source.toList = (l.above ++ l.lead) ++ (l.trail ++ (l.ending ++ l.below)) := by
    rw [h.whole, text, List.append_assoc, List.append_assoc]
  have hlead : '\n' ∉ l.lead := fun hmem => h.single (List.mem_append_left _ hmem)
  have hcolumn : (Position.start.advanceAll l.above).column = 1 := by
    obtain hnil | hlast := h.starts
    · rw [hnil]
      rfl
    · obtain ⟨lines, hlines⟩ := List.getLast?_eq_some_iff.1 hlast
      rw [hlines, Position.advanceAll_append]
      rfl
  have hp : p = Position.start.advanceAll (l.above ++ l.lead) := by
    refine hexact.eq_of_offset (Position.exact_of_front hfront) ?_
    rw [Position.offset_of_front, ← encode_length]
    exact h.place
  rw [hp, Position.advanceAll_append, Position.advanceAll_of_not_mem hlead]
  dsimp only
  rw [Position.advanceAll_line, hcolumn]
  exact ⟨Nat.add_comm _ _, Nat.add_comm _ _⟩

/-- It is the line with that number. -/
theorem getElem?_sourceLines (h : l.Around source p.offset) :
    (sourceLines source.toList)[l.above.count '\n']? = some l.text := by
  have hne : l.text ++ l.ending ≠ [] := by
    rw [text, List.append_assoc]
    exact List.append_ne_nil_of_right_ne_nil _ h.inside
  have hline := sourceLines_line h.single h.ends hne
  rw [h.whole]
  obtain hnil | hlast := h.starts
  · rw [hnil, List.nil_append, hline]
    rfl
  · obtain ⟨lines, hlines⟩ := List.getLast?_eq_some_iff.1 hlast
    have hdrop := drop_sourceLines lines (l.text ++ (l.ending ++ l.below))
    rw [hlines, List.append_assoc, List.singleton_append, List.count_append,
      List.count_singleton_self, ← Nat.add_zero (_ + 1), ← List.getElem?_drop, hdrop, hline]
    rfl

end SourceLine.Around

-- ================================================================== rendering

/-- Blanks in the place of characters, tabs in that of tabs. -/
def blanked (cs : List Char) : List Char := cs.map fun c => if c = '\t' then '\t' else ' '

namespace Diagnostic

variable {d : Diagnostic}

/-- File, place, severity and message, a source line, and a caret behind a pad. -/
def shown (d : Diagnostic) (file : String) (line pad : List Char) : String :=
  s!"{file}:{d.pos.line}:{d.pos.column}: {d.severity.word}: {d.message}\n"
    ++ String.ofList line ++ "\n" ++ String.ofList pad ++ "^\n"

/-- Whether what is shown is a line, and the caret under it is behind as many
characters as the line has in front of the place it is cut at. -/
def PointsAt (d : Diagnostic) (source : String) (l : SourceLine) : Prop :=
  ∀ file, d.render file source false = d.shown file l.text (blanked l.lead)

/-- The pad is all that tells what is shown apart. -/
theorem shown_inj {file : String} {line pad pad' : List Char}
    (h : d.shown file line pad = d.shown file line pad') : pad = pad' := by
  unfold shown at h
  simpa [String.ofList_inj] using h

end Diagnostic

/-- The caret is behind as many characters of the line, if it has so many, as there
are bytes on it in front of the place. -/
theorem SourceLine.Around.render {source : String} {d : Diagnostic} {l : SourceLine}
    (h : l.Around source d.pos.offset) (hexact : d.pos.Exact source) (file : String) :
    d.render file source false
      = d.shown file l.text (blanked (l.text.take (encode l.lead).length)) := by
  obtain ⟨hline, hcolumn⟩ := h.line_column hexact
  have hsource : d.sourceLine? source.toList = some l.text := by
    unfold Diagnostic.sourceLine?
    rw [hline, if_neg (Nat.succ_ne_zero _), Nat.add_sub_cancel]
    exact h.getElem?_sourceLines
  have hpad : Diagnostic.caretPad l.text d.pos.column
      = blanked (l.text.take (encode l.lead).length) := by
    unfold Diagnostic.caretPad
    rw [hcolumn, Nat.add_sub_cancel]
    rfl
  unfold Diagnostic.render Diagnostic.shown
  rw [hsource, ← hpad]
  refine String.toList_inj.1 ?_
  simp [toString, String.toList_append]

-- =========================================================== reported places

/-- Whether a place is at a character of a text, which is no newline behind a
carriage return. -/
inductive AtCharacter (source : String) : Position → Prop where
  | intro {front behind : List Char} {c : Char} : source.toList = front ++ c :: behind →
    (c = '\n' → front.getLast? ≠ some '\r') → AtCharacter source (Position.start.advanceAll front)

namespace Piece

/-- Whether the character behind so many others is escaped. -/
def Escaped (cs : List Char) (i : Nat) : Prop :=
  ∃ front c behind, cs = front ++ '\\' :: c :: behind ∧ i = front.length + 1

variable {cs : List Char} {faults : List (Nat × LexicalFault)}

/-- Further characters in front change nothing about what is escaped. -/
theorem Escaped.behind {i : Nat} (h : Escaped cs i) (front : List Char) :
    Escaped (front ++ cs) (i + front.length) := by
  obtain ⟨between, c, behind, rfl, rfl⟩ := h
  refine ⟨front ++ between, c, behind, (List.append_assoc _ _ _).symm, ?_⟩
  rw [List.length_append]
  omega

/-- Faults move along with the characters they are found at. -/
theorem escaped_shifted (h : ∀ f ∈ faults, Escaped cs f.1) (front : List Char) :
    ∀ f ∈ shifted front.length faults, Escaped (front ++ cs) f.1 := by
  intro f hf
  obtain ⟨g, hg, rfl⟩ := List.mem_map.1 hf
  exact (h g hg).behind front

/-- The faults in a quoted text are found at escaped characters. -/
theorem readQuoted_escaped (quote : Char) (cs : List Char) :
    ∀ f ∈ (readQuoted quote cs).faults, Escaped (readQuoted quote cs).consumed f.1 := by
  fun_induction readQuoted quote cs with
  | case1 => exact List.forall_mem_nil _
  | case2 => exact List.forall_mem_nil _
  | case3 c cs v hescape ih => exact escaped_shifted ih ['\\', c]
  | case4 c cs hescape ih =>
      exact List.forall_mem_cons.2 ⟨⟨[], c, _, rfl, rfl⟩, escaped_shifted ih ['\\', c]⟩
  | case5 cs => exact List.forall_mem_nil _
  | case6 cs hline => exact List.forall_mem_nil _
  | case7 c cs halone hescaped hline hquote ih => exact escaped_shifted ih [c]

/-- Whether the faults of a piece are found at its first character and at escaped
ones. -/
def Locates (p : Piece) : Prop := ∀ f ∈ p.faults, f.1 = 0 ∨ Escaped p.chars f.1

/-- A piece without faults has none anywhere. -/
theorem locates_of_faultless {p : Piece} (h : p.faults = []) : p.Locates := by
  unfold Locates
  rw [h]
  exact List.forall_mem_nil _

/-- A quoted text is faulty at its quote or at what is escaped. -/
theorem ofQuoted_locates (quote : Char) (cs : List Char) (unterminated : LexicalFault)
    (read : List Char → Except LexicalFault Lexeme) :
    (ofQuoted quote (readQuoted quote cs) unterminated read).Locates := by
  have hinner : ∀ f ∈ shifted 1 (readQuoted quote cs).faults,
      f.1 = 0 ∨ Escaped (quote :: (readQuoted quote cs).consumed) f.1 :=
    fun f hf => .inr (escaped_shifted (readQuoted_escaped quote cs) [quote] f hf)
  unfold ofQuoted
  dsimp only
  split
  · exact hinner
  · exact List.forall_mem_append.2 ⟨hinner, List.forall_mem_singleton.2 (.inl rfl)⟩

/-- A number is faulty as a whole. -/
theorem readNumber_locates (cs : List Char) : (readNumber cs).1.Locates := by
  refine locates_of_faultless ?_
  unfold readNumber
  dsimp only
  split <;> rfl

/-- A character that starts nothing is faulty itself. -/
theorem readSymbol_locates (c : Char) (cs : List Char) : (readSymbol c cs).1.Locates := by
  obtain ⟨_, _, _, -, -, hread⟩ | ⟨_, -, hread⟩ | hread := readSymbol_cases c cs
  · rw [hread]
    exact locates_of_faultless rfl
  · rw [hread]
    exact locates_of_faultless rfl
  · rw [hread]
    exact List.forall_mem_singleton.2 (.inl rfl)

/-- Whatever a text starts with. -/
theorem next_locates (c : Char) (cs : List Char) : (next c cs).1.Locates := by
  unfold next
  split
  · exact locates_of_faultless rfl
  split
  · exact locates_of_faultless rfl
  split
  · exact readNumber_locates _
  split
  · exact ofQuoted_locates c cs .unterminatedCharacter readCharacter
  split
  · exact ofQuoted_locates c cs .unterminatedString readString
  split
  · exact locates_of_faultless rfl
  · exact readSymbol_locates c cs

/-- A newline is neither a word nor faulty. -/
theorem next_newline (cs : List Char) : next '\n' cs = (blank ['\n'], cs) := rfl

end Piece

variable {source : String}

/-- What is at a character is at an exact position. -/
theorem AtCharacter.exact {p : Position} (h : AtCharacter source p) : p.Exact source := by
  obtain ⟨htext, -⟩ := h
  exact Position.exact_of_front htext

/-- Where a segment is that is a word or has a fault. -/
theorem segment_atCharacter {s : Position × Piece} (h : s ∈ segmentsOf source)
    (hmeant : s.2.lexeme ≠ none ∨ s.2.faults ≠ []) : AtCharacter source s.1 := by
  obtain ⟨front, c, cs, htext, hplace, hnext⟩ := segment_split h
  rw [hplace]
  refine .intro htext ?_
  rintro rfl
  rw [Piece.next_newline] at hnext
  rw [← hnext] at hmeant
  obtain hlexeme | hfaults := hmeant
  · exact absurd rfl hlexeme
  · exact absurd rfl hfaults

/-- A token is at its first character. -/
theorem tokens_atCharacter {token : Token} (h : token ∈ (tokenize source).1) :
    AtCharacter source token.pos := by
  obtain ⟨s, hs, hpos, hlexeme⟩ := mem_tokens h
  rw [hpos]
  refine segment_atCharacter hs (.inl ?_)
  rw [hlexeme]
  exact nofun

/-- A lexical error is at a character. -/
theorem faults_atCharacter {d : Diagnostic} (h : d ∈ (tokenize source).2) :
    AtCharacter source d.pos := by
  obtain ⟨s, hs, hd⟩ := List.mem_flatMap.1 h
  obtain ⟨f, hf, rfl⟩ := List.mem_map.1 hd
  obtain ⟨front, c, cs, htext, hplace, hnext⟩ := segment_split hs
  have hlocates := Piece.next_locates c cs
  have happend := (Piece.next_accounted c cs).2
  rw [hnext] at hlocates happend
  show AtCharacter source (s.1.advanceAll (s.2.chars.take f.1))
  obtain hzero | ⟨between, e, behind, hchars, hbetween⟩ := hlocates f hf
  · rw [hzero]
    exact segment_atCharacter hs (.inr (List.ne_nil_of_mem hf))
  · have htake : s.2.chars.take f.1 = between ++ ['\\'] := by
      rw [hchars, hbetween, List.take_length_add_append]
      rfl
    have htext : source.toList
        = (front ++ (between ++ ['\\'])) ++ e :: (behind ++ (Piece.next c cs).2) := by
      rw [htext, ← happend, hchars]
      simp
    rw [htake, hplace, ← Position.advanceAll_append]
    refine .intro htext fun _ => ?_
    rw [← List.append_assoc, List.getLast?_concat]
    decide

/-- Whatever the front end reports of a text is at one of its characters. -/
theorem frontend_atCharacter {strict : Bool} {d : Diagnostic}
    (h : d ∈ (frontend source (.empty strict)).2.entries) : AtCharacter source d.pos := by
  obtain ⟨parsed, hentries, hplaces⟩ := frontend_entries source (.empty strict)
  rw [hentries] at h
  obtain h | h := List.mem_append.1 h
  · exact faults_atCharacter h
  · obtain ⟨token, htoken, hpos⟩ := hplaces d h
    rw [hpos]
    exact tokens_atCharacter htoken

-- ==================================================================== carets

namespace SourceLine

/-- Text in front of a place is whole lines and the front of one. -/
theorem exists_lead (front : List Char) :
    ∃ above lead, front = above ++ lead ∧ (above = [] ∨ above.getLast? = some '\n')
      ∧ '\n' ∉ lead := by
  induction front with
  | nil => exact ⟨[], [], rfl, .inl rfl, List.not_mem_nil⟩
  | cons c front ih =>
      obtain ⟨above, lead, rfl, hstarts, hlead⟩ := ih
      obtain rfl | hlast := hstarts
      · by_cases hc : c = '\n'
        · exact ⟨[c], lead, rfl, .inr (congrArg some hc), hlead⟩
        · refine ⟨[], c :: lead, rfl, .inl rfl, ?_⟩
          exact List.not_mem_cons_of_ne_of_not_mem (Ne.symm hc) hlead
      · refine ⟨c :: above, lead, rfl, .inr ?_, hlead⟩
        rw [List.getLast?_cons, hlast]
        rfl

/-- Text from a place on is the rest of a line, its ending, and what is below. -/
theorem exists_trail (lead rest : List Char)
    (h : rest.head? = some '\n' → lead.getLast? ≠ some '\r') :
    ∃ trail ending below, rest = trail ++ (ending ++ below) ∧ '\n' ∉ trail
      ∧ LineEnding (lead ++ trail) ending below := by
  -- the cases are those in which lines are told apart
  induction rest generalizing lead with
  | nil => exact ⟨[], [], [], rfl, List.not_mem_nil, .last⟩
  | cons c rest ih =>
      by_cases hc : c = '\n'
      · refine ⟨[], ['\n'], rest, congrArg (· :: rest) hc, List.not_mem_nil, .newline ?_⟩
        rw [List.append_nil]
        exact h (congrArg some hc)
      by_cases hreturn : c = '\r' ∧ rest.head? = some '\n'
      · obtain ⟨below, rfl⟩ := List.head?_eq_some_iff.1 hreturn.2
        exact ⟨[], ['\r', '\n'], below, congrArg (· :: _) hreturn.1, List.not_mem_nil, .returned⟩
      · have hlast : rest.head? = some '\n' → (lead ++ [c]).getLast? ≠ some '\r' := by
          intro hhead hlast
          rw [List.getLast?_concat] at hlast
          exact hreturn ⟨Option.some.inj hlast, hhead⟩
        obtain ⟨trail, ending, below, rfl, htrail, hending⟩ := ih (lead ++ [c]) hlast
        refine ⟨c :: trail, ending, below, rfl, ?_, ?_⟩
        · exact List.not_mem_cons_of_ne_of_not_mem (Ne.symm hc) htrail
        · rwa [List.append_cons]

end SourceLine

/-- A character has a line around it. -/
theorem AtCharacter.around {p : Position} (h : AtCharacter source p) :
    ∃ l : SourceLine, l.Around source p.offset := by
  obtain ⟨htext, hnewline⟩ := h
  rename_i front behind c
  obtain ⟨above, lead, rfl, hstarts, hlead⟩ := SourceLine.exists_lead front
  have hlast : (c :: behind).head? = some '\n' → lead.getLast? ≠ some '\r' := by
    intro hhead hlast
    refine hnewline (Option.some.inj hhead) ?_
    rw [List.getLast?_append, hlast]
    rfl
  obtain ⟨trail, ending, below, hrest, htrail, hends⟩ := SourceLine.exists_trail lead _ hlast
  refine ⟨⟨above, lead, trail, ending, below⟩, ?_, hstarts, ?_, hends, ?_, fun hnil => ?_⟩
  · rw [htext, hrest, SourceLine.text, List.append_assoc, List.append_assoc]
  · exact fun hmem => (List.mem_append.1 hmem).elim hlead htrail
  · rw [Position.offset_of_front, ← encode_length]
  · obtain ⟨rfl, rfl⟩ := List.append_eq_nil_iff.1 hnil
    cases hends
    cases hrest

/-- Characters are as many as their bytes if each has one, and else fewer. -/
theorem length_encode (cs : List Char) :
    cs.length ≤ (encode cs).length
      ∧ ((encode cs).length = cs.length ↔ ∀ c ∈ cs, c.utf8Size = 1) := by
  induction cs with
  | nil => exact ⟨Nat.le_refl _, fun _ => nofun, fun _ => rfl⟩
  | cons c cs ih =>
      obtain ⟨hle, hiff⟩ := ih
      have hpos := c.utf8Size_pos
      rw [encode_cons, List.length_append, String.length_utf8EncodeChar, List.length_cons,
        List.forall_mem_cons, ← hiff]
      constructor <;> omega

/-- As many characters of a line as it has bytes in front of a place are those in
front of it if each has one byte, and else only if there are no others. -/
theorem SourceLine.blanked_take (l : SourceLine) :
    blanked (l.text.take (encode l.lead).length) = blanked l.lead
      ↔ l.trail = [] ∨ ∀ c ∈ l.lead, c.utf8Size = 1 := by
  obtain ⟨hle, hnarrow⟩ := length_encode l.lead
  rw [← hnarrow, SourceLine.text]
  constructor
  · intro h
    have hlength := congrArg List.length h
    rw [blanked, blanked, List.length_map, List.length_map, List.length_take,
      List.length_append] at hlength
    rw [← List.length_eq_zero_iff]
    omega
  · rintro (hnil | hlength)
    · rw [hnil, List.append_nil, List.take_of_length_le hle]
    · rw [hlength, List.take_left]

/-- Whatever is reported of a source text is reported with the line around its
place, and with a caret that points at it if nothing in front of it on the line is
a character of more than one byte, and otherwise only if it is the line's ending. -/
theorem frontend_carets {source : String} {strict : Bool} {d : Diagnostic}
    (h : d ∈ (frontend source (.empty strict)).2.entries) :
    (∃ l : SourceLine, l.Around source d.pos.offset)
      ∧ ∀ l : SourceLine, l.Around source d.pos.offset →
        (∀ file, d.render file source false
          = d.shown file l.text (blanked (l.text.take (encode l.lead).length)))
        ∧ (d.PointsAt source l ↔ l.trail = [] ∨ ∀ c ∈ l.lead, c.utf8Size = 1) := by
  have hat := frontend_atCharacter h
  refine ⟨hat.around, fun l hl => ⟨hl.render hat.exact, ?_⟩⟩
  rw [← l.blanked_take]
  constructor
  · intro hpoints
    have hshown := hpoints ""
    rw [hl.render hat.exact] at hshown
    exact Diagnostic.shown_inj hshown
  · intro htake file
    rw [hl.render hat.exact, htake]

/-- A text with a tab in front of a mistake, and a character of two bytes behind it. -/
def misspelled : String := "int a;\r\nint main() \x7b\r\n\treturn b; // né\r\n\x7d"

/-- What is reported of it. -/
def misspelling : Diagnostic := ⟨.error, "use of undeclared identifier 'b'", ⟨3, 9, 30⟩⟩

/-- The line around the mistake. -/
def misspelledLine : SourceLine where
  above := "int a;\r\nint main() \x7b\r\n".toList
  lead := "\treturn ".toList
  trail := "b; // né".toList
  ending := ['\r', '\n']
  below := ['\x7d']

/-- The caret under it is behind a tab and seven blanks. -/
theorem misspelling_pointsAt :
    misspelling ∈ (frontend misspelled (.empty false)).2.entries
      ∧ misspelledLine.Around misspelled misspelling.pos.offset
      ∧ misspelling.PointsAt misspelled misspelledLine
      ∧ misspelling.render "m.c" misspelled false
        = "m.c:3:9: error: use of undeclared identifier 'b'\n\treturn b; // né\n\t       ^\n" := by
  have hmem : misspelling ∈ (frontend misspelled (.empty false)).2.entries := by decide +kernel
  have haround : misspelledLine.Around misspelled misspelling.pos.offset :=
    ⟨by decide +kernel, by decide +kernel, by decide +kernel, .returned, by decide +kernel,
      by decide +kernel⟩
  have hall : misspelledLine.lead.all (·.utf8Size = 1) = true := by decide +kernel
  have hlead : ∀ c ∈ misspelledLine.lead, c.utf8Size = 1 := fun c hc =>
    of_decide_eq_true (List.all_eq_true.1 hall c hc)
  have hcarets := (frontend_carets hmem).2 misspelledLine haround
  exact ⟨hmem, haround, hcarets.2.2 (.inr hlead), by decide +kernel⟩

/-- A text with a character of two bytes in front of a mistake. -/
def accented : String := "string s = \"é\"; int t = u;"

/-- The caret under it is a character too far to the right. -/
theorem accented_misses : ¬ ∀ d ∈ (frontend accented (.empty false)).2.entries,
    ∀ l : SourceLine, l.Around accented d.pos.offset → d.PointsAt accented l := by
  intro hpoints
  have hmem : (⟨.error, "use of undeclared identifier 'u'", ⟨1, 26, 25⟩⟩ : Diagnostic)
      ∈ (frontend accented (.empty false)).2.entries := by decide +kernel
  have hline : (⟨[], "string s = \"é\"; int t = ".toList, "u;".toList, [], []⟩
      : SourceLine).Around accented 25 :=
    ⟨by decide +kernel, .inl rfl, by decide +kernel, .last, by decide +kernel, by decide +kernel⟩
  exact absurd (hpoints _ hmem _ hline "input.c") (by decide +kernel)

end MiniC
