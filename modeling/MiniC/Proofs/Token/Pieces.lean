/-
A text is its pieces. Cutting loses nothing: the pieces of a text, put one
behind the other, are the text, and each begins and ends between two characters
(`tokenize_segmented`).

# One piece

Each piece is one of a blank, a comment up to the end of its line, a word, or
something that is no word and has an error at its first character (`Accounted`). What
comes behind matters for a comment, which takes all of its line. A character that starts
nothing is a piece of its own, and the error names it; no other fault says that a
character is unexpected, so from the message the piece is known.

# All pieces

No piece is empty, so cutting a text ends within as many pieces as it has characters
(`ofText_cuts`). Placing the pieces gives each the position where it begins; and since
the bytes of a text are those of its characters, the bytes of the pieces are the bytes
of the source.

`tokenize_segmented` says this of the bytes of a source text, its tokens and
its diagnostics. Consumed by the account of the positions in a source.
-/
import MiniC.Proofs.Position
import MiniC.Proofs.Token.Spelling
import Mathlib.Data.List.TakeWhile

namespace MiniC

namespace Piece

-- ============================================================== one piece

/-- What a piece is, given the text behind it. -/
inductive Accounted (rest : List Char) : Piece → Prop where
  | blank {c : Char} : isBlank c = true → Accounted rest (blank [c])
  | comment {cs : List Char} : (∀ c ∈ cs, c ≠ '\n') → (∀ c ∈ rest.head?, c = '\n') →
    Accounted rest (blank ('/' :: '/' :: cs))
  | word {p : Piece} : IsWord p → Accounted rest p
  | skipped {p : Piece} : IsSkipped p → Accounted rest p
  | unexpected (c : Char) : Accounted rest ⟨[c], none, [(0, .unexpected c)]⟩

/-- A comment ends where its line does. -/
theorem comment_accounted (cs : List Char) :
    Accounted (cs.dropWhile (· ≠ '\n')) (Piece.blank ('/' :: '/' :: cs.takeWhile (· ≠ '\n'))) := by
  refine .comment (fun c hc => ?_) fun c hc => ?_
  · have htaken := List.mem_takeWhile_imp hc
    exact of_decide_eq_true htaken
  · have hhead := List.head?_dropWhile_not (· ≠ '\n') cs
    rw [Option.mem_def.1 hc] at hhead
    simpa using hhead

/-- The first piece of a text, and that it is in front of the rest. -/
theorem next_accounted (c : Char) (cs : List Char) :
    Accounted (next c cs).2 (next c cs).1 ∧ (next c cs).1.chars ++ (next c cs).2 = c :: cs := by
  unfold next
  split
  · rename_i hblank
    exact ⟨.blank hblank, rfl⟩
  split
  · rename_i hc
    refine ⟨.word ⟨_, rfl, ?_⟩, ?_⟩
    · exact word_spelled hc fun d hd => List.mem_takeWhile_imp hd
    · exact congrArg (c :: ·) List.takeWhile_append_dropWhile
  split
  · rename_i hnumber
    have hstarts : StartsNumeral (c :: cs) := by
      obtain hdigit | hpoint := Bool.or_eq_true_iff.1 hnumber
      · exact Or.inl hdigit
      · obtain ⟨hc, hcs⟩ := Bool.and_eq_true_iff.1 hpoint
        rw [of_decide_eq_true hc]
        exact Or.inr ⟨cs, rfl, hcs⟩
    obtain ⟨hword, happend⟩ := number_spelled hstarts
    exact ⟨.word hword, happend⟩
  split
  · rename_i hquote
    subst hquote
    have hfault (c : Char) : LexicalFault.unterminatedCharacter ≠ .unexpected c := nofun
    obtain ⟨hpiece, happend⟩ := quoted_spelled cs hfault readCharacter_ok readCharacter_error
    exact ⟨hpiece.elim .word .skipped, happend⟩
  split
  · rename_i hquote
    subst hquote
    have hfault (c : Char) : LexicalFault.unterminatedString ≠ .unexpected c := nofun
    obtain ⟨hpiece, happend⟩ := quoted_spelled cs hfault readString_ok nofun
    exact ⟨hpiece.elim .word .skipped, happend⟩
  split
  · rename_i hcomment
    obtain ⟨hc, hslash⟩ := Bool.and_eq_true_iff.1 hcomment
    obtain rfl := of_decide_eq_true hc
    replace hslash := of_decide_eq_true hslash
    obtain ⟨cs, rfl⟩ := List.head?_eq_some_iff.1 hslash
    exact ⟨comment_accounted cs, congrArg ('/' :: '/' :: ·) List.takeWhile_append_dropWhile⟩
  · obtain ⟨hpiece, happend⟩ := symbol_spelled c cs
    refine ⟨hpiece.elim .word fun h => ?_, happend⟩
    rw [h]
    exact .unexpected c

/-- No piece is empty. -/
theorem Accounted.ne_nil {rest : List Char} {p : Piece} (h : p.Accounted rest) : p.chars ≠ [] := by
  cases h with
  | blank => exact List.cons_ne_nil _ _
  | comment => exact List.cons_ne_nil _ _
  | word h =>
      obtain ⟨l, -, hspells⟩ := h
      exact hspells.ne_nil
  | skipped h => exact h.2.1
  | unexpected => exact List.cons_ne_nil _ _

-- ============================================================= all pieces

/-- What comes behind a piece is shorter. -/
theorem next_length (c : Char) (cs : List Char) : (next c cs).2.length ≤ cs.length := by
  obtain ⟨haccounted, happend⟩ := next_accounted c cs
  have hlength := congrArg List.length happend
  have hpos := List.length_pos_iff.2 haccounted.ne_nil
  rw [List.length_append, List.length_cons] at hlength
  omega

/-- More steps than characters change nothing. -/
theorem cut_fuel (fuel : Nat) {more : Nat} {cs : List Char} (h : cs.length ≤ fuel)
    (hmore : cs.length ≤ more) : cut fuel cs = cut more cs := by
  induction fuel generalizing more cs with
  | zero =>
      obtain rfl := List.eq_nil_of_length_eq_zero (Nat.le_zero.1 h)
      cases more <;> rfl
  | succ fuel ih =>
      cases cs with
      | nil => cases more <;> rfl
      | cons c cs =>
          have hlength := next_length c cs
          cases more with
          | zero => cases hmore
          | succ more =>
              rw [List.length_cons] at h hmore
              have hrest : cut fuel (next c cs).2 = cut more (next c cs).2 :=
                ih (by omega) (by omega)
              exact congrArg ((next c cs).1 :: ·) hrest

/-- A text is its first piece and what comes behind it. -/
theorem ofText_cons (c : Char) (cs : List Char) :
    ofText (c :: cs) = (next c cs).1 :: ofText (next c cs).2 :=
  congrArg ((next c cs).1 :: ·) (cut_fuel cs.length (next_length c cs) (Nat.le_refl _))

/-- Whether a text is cut into these pieces. -/
inductive Cuts : List Char → List Piece → Prop where
  | nil : Cuts [] []
  | cons {rest : List Char} {p : Piece} {ps : List Piece} : p.Accounted rest → Cuts rest ps →
    Cuts (p.chars ++ rest) (p :: ps)

theorem cut_cuts (fuel : Nat) (cs : List Char) (h : cs.length ≤ fuel) : Cuts cs (cut fuel cs) := by
  induction fuel generalizing cs with
  | zero =>
      obtain rfl := List.eq_nil_of_length_eq_zero (Nat.le_zero.1 h)
      exact .nil
  | succ fuel ih =>
      cases cs with
      | nil => exact .nil
      | cons c cs =>
          obtain ⟨haccounted, happend⟩ := next_accounted c cs
          have hrest := Nat.le_trans (next_length c cs) (Nat.le_of_succ_le_succ h)
          have hcuts := Cuts.cons haccounted (ih (next c cs).2 hrest)
          rw [happend] at hcuts
          exact hcuts

/-- Every text is cut into accounted pieces. -/
theorem ofText_cuts (cs : List Char) : Cuts cs (ofText cs) := cut_cuts _ cs (Nat.le_refl _)

variable {cs : List Char} {ps : List Piece}

/-- The pieces of a text make up the text. -/
theorem Cuts.chars (h : Cuts cs ps) (pos : Position) :
    (place pos ps).flatMap (·.2.chars) = cs := by
  induction h generalizing pos with
  | nil => rfl
  | cons _ _ ih =>
      rw [place, List.flatMap_cons, ih]

/-- Each piece is accounted for by what is placed behind it, and stands behind
what is placed in front of it. -/
theorem Cuts.placed (h : Cuts cs ps) {pos : Position} {before after : List (Position × Piece)}
    {s : Position × Piece} (hplace : place pos ps = before ++ s :: after) :
    s.1 = pos.advanceAll (before.flatMap (·.2.chars))
      ∧ s.2.Accounted (after.flatMap (·.2.chars)) := by
  induction h generalizing pos before with
  | nil =>
      have hlength := congrArg List.length hplace
      simp [place] at hlength
  | @cons rest p ps haccounted hcuts ih =>
      rw [place] at hplace
      cases before with
      | nil =>
          obtain ⟨rfl, rfl⟩ := List.cons.inj hplace
          rw [hcuts.chars]
          exact ⟨rfl, haccounted⟩
      | cons first before =>
          rw [List.cons_append] at hplace
          obtain ⟨hfirst, hplace⟩ := List.cons.inj hplace
          rw [List.flatMap_cons, Position.advanceAll_append, ← hfirst]
          exact ih hplace

/-- A placed piece splits the text that it was cut from. -/
theorem Cuts.split (h : Cuts cs ps) {pos : Position} {s : Position × Piece}
    (hs : s ∈ place pos ps) :
    ∃ front behind, cs = front ++ (s.2.chars ++ behind) ∧ s.1 = pos.advanceAll front := by
  obtain ⟨before, after, hplace⟩ := List.append_of_mem hs
  refine ⟨_, after.flatMap (·.2.chars), ?_, (h.placed hplace).1⟩
  rw [← h.chars pos, hplace, List.flatMap_append, List.flatMap_cons]

/-- A piece that is placed is the first one of the text from there on. -/
theorem place_next {text : List Char} {pos : Position} {s : Position × Piece}
    {before after : List (Position × Piece)} (h : place pos (ofText text) = before ++ s :: after) :
    ∃ c cs, text = before.flatMap (·.2.chars) ++ c :: cs ∧ (next c cs).1 = s.2 := by
  induction before generalizing text pos with
  | nil =>
      cases text with
      | nil => cases h
      | cons c cs =>
          rw [ofText_cons] at h
          obtain ⟨rfl, -⟩ := List.cons.inj h
          exact ⟨c, cs, rfl, rfl⟩
  | cons first before ih =>
      cases text with
      | nil => cases h
      | cons c cs =>
          rw [ofText_cons] at h
          obtain ⟨rfl, hrest⟩ := List.cons.inj h
          obtain ⟨d, ds, hbehind, hnext⟩ := ih hrest
          refine ⟨d, ds, ?_, hnext⟩
          rw [List.flatMap_cons, List.append_assoc, ← hbehind]
          exact (next_accounted c cs).2.symm

end Piece

-- =============================================================== segments

theorem LexicalFault.unexpected_of_message {fault : LexicalFault} {rest : String}
    (h : fault.message = "unexpected character" ++ rest) : ∃ c, fault = .unexpected c := by
  -- the third letter tells the messages apart
  have hthird := congrArg (·.toList[2]?) h
  rw [String.toList_append, List.getElem?_append_left (by decide)] at hthird
  cases fault with
  | unexpected c => exact ⟨c, rfl⟩
  | unknownEscape c =>
      have hmessage : (LexicalFault.unknownEscape c).message
          = "unknown escape sequence '\\" ++ (String.singleton (firstByte c) ++ "'") :=
        String.append_assoc
      rw [hmessage, String.toList_append, List.getElem?_append_left (by decide)] at hthird
      exact absurd hthird (by decide)
  | characterLength => exact absurd hthird (by decide)
  | unterminatedCharacter => exact absurd hthird (by decide)
  | unterminatedString => exact absurd hthird (by decide)

/-- A source text in segments: stretches of it that follow one another from its
first byte to its last, what is made of them, and what is reported of them. -/
structure Segmented (source : String) (segments : List (Position × Piece)) : Prop where
  /-- No byte is left out. -/
  whole : segments.flatMap (fun s => bytesOf (String.ofList s.2.chars)) = bytesOf source
  /-- A segment is placed behind the bytes of those before it. -/
  places : ∀ before s after, segments = before ++ s :: after →
    s.1.offset = (before.flatMap fun s => bytesOf (String.ofList s.2.chars)).length
  /-- It begins and ends between two characters. -/
  bounds : ∀ s ∈ segments, String.Pos.Raw.IsValid source ⟨s.1.offset⟩
    ∧ String.Pos.Raw.IsValid source ⟨s.1.offset + (bytesOf (String.ofList s.2.chars)).length⟩
  /-- It is a blank, a comment, a word or faulty. -/
  accounted : ∀ before s after, segments = before ++ s :: after →
    s.2.Accounted (after.flatMap (·.2.chars))
  /-- The tokens are the words, in order. -/
  tokens : (tokenize source).1 = segments.filterMap fun s => s.2.lexeme.map fun l => ⟨l, s.1⟩
  /-- A fault at the first character of a segment is reported there. -/
  reported : ∀ s ∈ segments, ∀ fault, (0, fault) ∈ s.2.faults →
    ⟨.error, fault.message, s.1⟩ ∈ (tokenize source).2
  /-- An unexpected character is a segment, and is named. -/
  unexpected : ∀ d ∈ (tokenize source).2, (∃ rest, d.message = "unexpected character" ++ rest) →
    ∃ s ∈ segments, ∃ c, s.2 = ⟨[c], none, [(0, .unexpected c)]⟩
      ∧ d = ⟨.error, "unexpected character '" ++ String.singleton c ++ "'", s.1⟩

/-- The segments of a source text. -/
def segmentsOf (source : String) : List (Position × Piece) :=
  Piece.place .start (Piece.ofText source.toList)

/-- A piece with an unexpected character is that character. -/
theorem Piece.Accounted.unexpected_fault {rest : List Char} {p : Piece} {k : Nat} {c : Char}
    (h : p.Accounted rest) (hfault : (k, .unexpected c) ∈ p.faults) :
    p = ⟨[c], none, [(0, .unexpected c)]⟩ ∧ k = 0 := by
  cases h with
  | blank => cases hfault
  | comment => cases hfault
  | word h =>
      obtain ⟨l, -, hspells⟩ := h
      obtain ⟨d, hd⟩ := hspells.escapes _ hfault
      cases hd
  | skipped h => exact absurd rfl (h.2.2.2 _ hfault c)
  | unexpected d =>
      obtain ⟨rfl, hc⟩ := Prod.mk.inj (List.mem_singleton.1 hfault)
      cases hc
      exact ⟨rfl, rfl⟩

/-- A segment is the first piece of the text from its place on. -/
theorem segment_split {source : String} {s : Position × Piece} (h : s ∈ segmentsOf source) :
    ∃ front c cs, source.toList = front ++ c :: cs ∧ s.1 = Position.start.advanceAll front
      ∧ (Piece.next c cs).1 = s.2 := by
  obtain ⟨before, after, hsegments⟩ := List.append_of_mem h
  obtain ⟨c, cs, htext, hnext⟩ := Piece.place_next hsegments
  exact ⟨_, c, cs, htext, ((Piece.ofText_cuts source.toList).placed hsegments).1, hnext⟩

/-- A token is a segment's word. -/
theorem mem_tokens {source : String} {token : Token} (h : token ∈ (tokenize source).1) :
    ∃ s ∈ segmentsOf source, token.pos = s.1 ∧ s.2.lexeme = some token.lexeme := by
  obtain ⟨s, hs, htoken⟩ := List.mem_filterMap.1 h
  obtain ⟨l, hl, rfl⟩ := Option.map_eq_some_iff.1 htoken
  exact ⟨s, hs, rfl, hl⟩

/-- Only words have a lexeme, and their characters spell it. -/
theorem Piece.Accounted.spells {rest : List Char} {p : Piece} {l : Lexeme}
    (h : p.Accounted rest) (hl : p.lexeme = some l) : Spells p.chars l p.faults := by
  cases h with
  | blank => cases hl
  | comment => cases hl
  | word h =>
      obtain ⟨m, hm, hspells⟩ := h
      rw [hm] at hl
      rwa [← Option.some.inj hl]
  | skipped h =>
      rw [h.1] at hl
      cases hl
  | unexpected => cases hl

/-- What a token stands for is spelled in the source. -/
theorem token_spelled {source : String} {token : Token} (h : token ∈ (tokenize source).1) :
    ∃ chars faults, Piece.Spells chars token.lexeme faults := by
  obtain ⟨s, hs, -, hlexeme⟩ := mem_tokens h
  obtain ⟨before, after, hsegments⟩ := List.append_of_mem hs
  have haccounted := ((Piece.ofText_cuts source.toList).placed hsegments).2
  exact ⟨_, _, haccounted.spells hlexeme⟩

theorem piece_bytes (p : Piece) :
    bytesOf (String.ofList p.chars) = encode p.chars := by
  rw [bytesOf_eq, String.toList_ofList]

theorem segment_bytes (segments : List (Position × Piece)) :
    segments.flatMap (fun s => bytesOf (String.ofList s.2.chars))
      = encode (segments.flatMap (·.2.chars)) := by
  unfold encode
  rw [List.flatMap_assoc, funext fun s : Position × Piece => piece_bytes s.2]
  rfl

/-- The lexer loses nothing: it goes through its source in segments. -/
theorem tokenize_segmented (source : String) : Segmented source (segmentsOf source) := by
  have hcuts := Piece.ofText_cuts source.toList
  have hchars : (segmentsOf source).flatMap (·.2.chars) = source.toList := hcuts.chars _
  refine ⟨?_, fun before s after hs => ?_, fun s hs => ?_,
    fun before s after hs => (hcuts.placed hs).2, rfl, fun s hs fault hfault => ?_,
    fun d hd hmessage => ?_⟩
  · rw [segment_bytes, hchars, bytesOf_eq]
  · rw [(hcuts.placed hs).1, segment_bytes, Position.offset_of_front, encode_length]
  · obtain ⟨front, behind, hsplit, hplace⟩ := hcuts.split hs
    rw [hplace]
    refine ⟨Position.boundary_of_front hsplit, ?_⟩
    have hend : (Position.start.advanceAll (front ++ s.2.chars)).offset
        = (Position.start.advanceAll front).offset
          + (bytesOf (String.ofList s.2.chars)).length := by
      rw [Position.offset_of_front, Position.offset_of_front, piece_bytes, encode_length,
        String.ofList_append, String.utf8ByteSize_append]
    rw [← hend]
    exact Position.boundary_of_front (hsplit.trans (List.append_assoc _ _ _).symm)
  · exact List.mem_flatMap.2 ⟨s, hs, List.mem_map.2 ⟨(0, fault), hfault, rfl⟩⟩
  · obtain ⟨s, hs, hd⟩ := List.mem_flatMap.1 hd
    obtain ⟨⟨k, fault⟩, hfault, rfl⟩ := List.mem_map.1 hd
    obtain ⟨rest, hmessage⟩ := hmessage
    obtain ⟨c, rfl⟩ := LexicalFault.unexpected_of_message hmessage
    obtain ⟨before, after, hsegments⟩ := List.append_of_mem hs
    obtain ⟨hpiece, rfl⟩ := (hcuts.placed hsegments).2.unexpected_fault hfault
    exact ⟨s, hs, c, hpiece, rfl⟩

end MiniC
