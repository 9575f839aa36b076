/-
What a position says about the bytes in front of it. A position that has been
moved over the first characters of a text is exact: its offset is the number of
their bytes, its line one more than the newlines among these and its column one
more than the bytes behind the last of them (`exact_of_front`).

Positions are moved over characters, and what they say is about bytes, so the two
have to agree: characters other than the newline have no byte in them that looks like
one (`newlineByte_not_mem`), and a newline has no other byte. `Behind` is the
invariant that a position keeps while it is moved. A scanner that moves a position
byte by byte comes to the same place (`advanceBytes_char`), and an offset in front of
a character is never inside of one (`boundary_of_front`).

Consumed by the accounts of the positions that are reported.
-/
import MiniC.Position
import MiniC.Proofs.Encoding

namespace MiniC

-- ================================================================== bytes

/-- The byte that ends a line. -/
def newlineByte : UInt8 := 10

theorem newline_encoded : String.utf8EncodeChar '\n' = [newlineByte] := rfl

/-- No other character has a newline's byte in it. -/
theorem newlineByte_not_mem {c : Char} (h : c ≠ '\n') : newlineByte ∉ String.utf8EncodeChar c :=
  fun hmem => h ((charOfByte_eq_iff (by decide) hmem).1 rfl)

-- ============================================================== positions

namespace Position

/-- A position that is moved goes on. -/
theorem lt_advance (p : Position) (c : Char) : p.offset < (p.advance c).offset := by
  unfold Position.advance
  split
  · exact Nat.lt_succ_self _
  · exact Nat.lt_add_of_pos_right c.utf8Size_pos

theorem le_advanceAll (p : Position) (cs : List Char) : p.offset ≤ (p.advanceAll cs).offset := by
  induction cs generalizing p with
  | nil => exact Nat.le_refl _
  | cons c cs ih => exact Nat.le_trans (Nat.le_of_lt (p.lt_advance c)) (ih _)

/-- Whether a position is the one behind these bytes. -/
structure Behind (bytes : List UInt8) (p : Position) : Prop where
  offset : p.offset = bytes.length
  line : p.line = 1 + bytes.count newlineByte
  column : p.column = 1 + (bytes.reverse.takeWhile (· ≠ newlineByte)).length

theorem start_behind : start.Behind [] := ⟨rfl, rfl, rfl⟩

/-- A position is moved over the bytes of a character. -/
theorem Behind.advance {bytes : List UInt8} {p : Position} (h : p.Behind bytes) (c : Char) :
    (p.advance c).Behind (bytes ++ String.utf8EncodeChar c) := by
  unfold Position.advance
  by_cases hc : c = '\n'
  · rw [if_pos hc, hc, newline_encoded]
    refine ⟨?_, ?_, ?_⟩
    · rw [List.length_append, h.offset]
      rfl
    · rw [List.count_append, h.line]
      rfl
    · rw [List.reverse_append]
      rfl
  · have hnone := newlineByte_not_mem hc
    rw [if_neg hc]
    refine ⟨?_, ?_, ?_⟩
    · rw [List.length_append, h.offset, String.length_utf8EncodeChar]
    · rw [List.count_append, h.line, List.count_eq_zero.2 hnone]
      rfl
    · rw [List.reverse_append, List.takeWhile_append_of_pos, List.length_append, h.column,
        List.length_reverse, String.length_utf8EncodeChar]
      · dsimp only
        omega
      · intro b hb
        refine decide_eq_true fun heq => hnone ?_
        rw [← heq]
        exact List.mem_reverse.1 hb

/-- A position is moved over the bytes of a text. -/
theorem Behind.advanceAll {bytes : List UInt8} {p : Position} (h : p.Behind bytes)
    (cs : List Char) : (p.advanceAll cs).Behind (bytes ++ encode cs) := by
  induction cs generalizing bytes p with
  | nil => rwa [encode_nil, List.append_nil]
  | cons c cs ih =>
      rw [encode_cons, ← List.append_assoc]
      exact ih (h.advance c)

/-- Whether a position is a place in a text: within its bytes, on the line that
the newlines in front of it make, and in the column that the bytes behind the
last of them make. -/
structure Exact (source : String) (p : Position) : Prop where
  inside : p.offset ≤ source.utf8ByteSize
  line : p.line = 1 + ((bytesOf source).take p.offset).count newlineByte
  column : p.column
    = 1 + (((bytesOf source).take p.offset).reverse.takeWhile (· ≠ newlineByte)).length

-- --------------------------------------------------------- byte by byte

/-- The place after one byte. -/
def advanceByte (p : Position) (b : UInt8) : Position :=
  if b = newlineByte then ⟨p.line + 1, 1, p.offset + 1⟩
  else ⟨p.line, p.column + 1, p.offset + 1⟩

/-- The place after several bytes. -/
def advanceBytes (p : Position) (bytes : List UInt8) : Position := bytes.foldl advanceByte p

theorem advanceBytes_append (p : Position) (bs es : List UInt8) :
    p.advanceBytes (bs ++ es) = (p.advanceBytes bs).advanceBytes es := List.foldl_append

/-- Bytes without a newline among them stay in their line. -/
theorem advanceBytes_of_not_mem {bytes : List UInt8} (h : newlineByte ∉ bytes) (p : Position) :
    p.advanceBytes bytes = ⟨p.line, p.column + bytes.length, p.offset + bytes.length⟩ := by
  induction bytes generalizing p with
  | nil => rfl
  | cons b bs ih =>
      obtain ⟨hb, hbs⟩ := not_or.1 (mt List.mem_cons.2 h)
      have hstep : p.advanceByte b = ⟨p.line, p.column + 1, p.offset + 1⟩ := if_neg (Ne.symm hb)
      show (p.advanceByte b).advanceBytes bs = _
      rw [ih hbs, hstep, List.length_cons]
      congr 1 <;> dsimp only <;> omega

/-- A character moves a position as its bytes do, one after the other. -/
theorem advanceBytes_char (p : Position) (c : Char) :
    p.advanceBytes (String.utf8EncodeChar c) = p.advance c := by
  unfold advance
  split
  · rename_i hc
    rw [hc]
    rfl
  · rename_i hc
    rw [advanceBytes_of_not_mem (newlineByte_not_mem hc), String.length_utf8EncodeChar]

theorem advanceByte_char {c : Char} {b : UInt8} {bs : List UInt8}
    (h : String.utf8EncodeChar c = b :: bs) (p : Position) :
    (p.advanceByte b).advanceBytes bs = p.advance c := by
  rw [← advanceBytes_char, h]
  rfl

/-- Byte by byte or character by character, a position comes to the same place. -/
theorem advanceBytes_encode (p : Position) (cs : List Char) :
    p.advanceBytes (encode cs) = p.advanceAll cs := by
  induction cs generalizing p with
  | nil => rfl
  | cons c cs ih => rw [encode_cons, advanceBytes_append, advanceBytes_char, ih, advanceAll_cons]

-- ------------------------------------------------------------ in a text

variable {source : String} {front behind : List Char}

/-- The position behind the first characters of a text is that of their
bytes. -/
theorem offset_of_front (cs : List Char) :
    (start.advanceAll cs).offset = (String.ofList cs).utf8ByteSize := by
  rw [(start_behind.advanceAll cs).offset, List.nil_append, encode_length]

/-- A position behind the first characters of a source is exact. -/
theorem exact_of_front (h : source.toList = front ++ behind) :
    (start.advanceAll front).Exact source := by
  have hbehind := start_behind.advanceAll front
  rw [List.nil_append] at hbehind
  have hbytes : (bytesOf source).take (start.advanceAll front).offset
      = encode front := by
    rw [bytesOf_eq, h, encode_append, hbehind.offset, List.take_left']
    rfl
  refine ⟨?_, ?_, ?_⟩
  · rw [offset_of_front, ← String.ofList_toList (s := source), h, String.ofList_append,
      String.utf8ByteSize_append]
    exact Nat.le_add_right _ _
  · rw [hbytes, hbehind.line]
  · rw [hbytes, hbehind.column]

/-- It is a boundary between characters. -/
theorem boundary_of_front (h : source.toList = front ++ behind) :
    String.Pos.Raw.IsValid source ⟨(start.advanceAll front).offset⟩ := by
  refine String.Pos.Raw.isValid_iff_exists_append.2
    ⟨String.ofList front, String.ofList behind, ?_, ?_⟩
  · rw [← String.ofList_append, ← h, String.ofList_toList]
  · rw [offset_of_front]
    rfl

end Position

end MiniC
