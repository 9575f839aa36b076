/-
The bytes of characters. A character below 128 has one byte, which is its code;
the bytes of any other are all above.

# Reading bytes as characters

The program looks at bytes one at a time and asks of each what it would ask of a
character: whether it is a digit, a letter, a quote. A question to which all
characters of more than one byte get the same answer (`Bytewise`) can be put to a
byte, read as a character of its own, and is answered as for the character that the
byte is of (`Bytewise.byte`). So a run of bytes with some property is the encoding of
the run of characters that have it (`Bytewise.takeWhile`), and what is ahead of a
list of bytes is what is ahead of the characters (`Bytewise.head`). All questions
that are asked while a source is scanned are of this kind.

# Decoding

Decoding undoes encoding, also where what is decoded is cut off behind a character;
the text of an encoding is the text it came from (`textOfBytes_encode`).

Consumed by the accounts of positions and of reading a source byte by byte.
-/
import Mathlib.Data.List.Basic

namespace MiniC

-- ================================================================ encoding

/-- The bytes of a text. -/
def bytesOf (source : String) : List UInt8 := source.toByteArray.data.toList

/-- The bytes of characters. -/
def encode (cs : List Char) : List UInt8 := cs.flatMap String.utf8EncodeChar

/-- The character that has a byte for its code. -/
def charOfByte (b : UInt8) : Char := Char.ofNat b.toNat

/-- The character that bytes start with. -/
def charOfBytes? (bytes : List UInt8) : Option Char := bytes.toByteArray.utf8DecodeChar? 0

/-- The characters of bytes. A byte that starts none is replaced. -/
def decode : Nat → List UInt8 → List Char
  | 0, _ => []
  | _, [] => []
  | fuel + 1, b :: bs =>
    match charOfBytes? (b :: bs) with
    | some c => c :: decode fuel ((b :: bs).drop c.utf8Size)
    | none => Char.ofNat 0xfffd :: decode fuel bs

/-- The text of bytes. -/
def textOfBytes (bytes : List UInt8) : String := String.ofList (decode bytes.length bytes)

theorem encode_nil : encode [] = [] := rfl

theorem encode_cons (c : Char) (cs : List Char) :
    encode (c :: cs) = String.utf8EncodeChar c ++ encode cs := List.flatMap_cons

/-- Texts that follow each other are encoded one behind the other. -/
theorem encode_append (cs ds : List Char) : encode (cs ++ ds) = encode cs ++ encode ds :=
  List.flatMap_append

theorem encode_singleton (c : Char) : encode [c] = String.utf8EncodeChar c :=
  List.flatMap_singleton _ _

/-- The bytes of a source are those of its characters. -/
theorem bytesOf_eq (source : String) : bytesOf source = encode source.toList := by
  unfold bytesOf
  rw [← String.utf8Encode_toList]
  exact congrArg Array.toList List.data_toByteArray

/-- A text is encoded in as many bytes as it counts. -/
theorem encode_length (cs : List Char) : (encode cs).length = (String.ofList cs).utf8ByteSize := by
  rw [← String.size_toByteArray, String.toByteArray_ofList]
  exact List.size_toByteArray.symm

theorem encode_length_pos {cs : List Char} (h : cs ≠ []) : 0 < (encode cs).length := by
  obtain ⟨c, cs, rfl⟩ := List.exists_cons_of_ne_nil h
  rw [encode_cons, List.length_append, String.length_utf8EncodeChar]
  exact Nat.add_pos_left c.utf8Size_pos _

-- ========================================================= single bytes

theorem charOfByte_toNat (b : UInt8) : (charOfByte b).toNat = b.toNat := by
  have hvalid : b.toNat.isValidChar := Or.inl (Nat.lt_trans b.toNat_lt (by decide))
  unfold charOfByte Char.ofNat
  rw [dif_pos hvalid]
  rfl

/-- A character below 128 is its only byte. -/
theorem encoded_narrow {c : Char} (hc : c.toNat < 128) :
    ∃ b, String.utf8EncodeChar c = [b] ∧ charOfByte b = c := by
  have hval : c.val.toNat < 256 := Nat.lt_trans hc (by decide)
  have hsize : c.utf8Size = 1 := by
    rw [Char.utf8Size_eq_one_iff, UInt32.le_iff_toNat_le]
    exact Nat.le_of_lt_succ hc
  refine ⟨_, String.utf8EncodeChar_eq_singleton hsize, Char.toNat_inj.1 ?_⟩
  rw [charOfByte_toNat, UInt32.toNat_toUInt8, Nat.mod_eq_of_lt hval]
  rfl

theorem le_toNat_ofNat {n : Nat} (h : 128 ≤ n) (hn : n < 256) : 128 ≤ (UInt8.ofNat n).toNat := by
  rwa [UInt8.toNat_ofNat_of_lt' hn]

/-- The bytes of any other character are not below 128. -/
theorem encoded_wide {c : Char} (hc : 128 ≤ c.toNat) :
    ∀ b ∈ String.utf8EncodeChar c, 128 ≤ b.toNat := by
  have hval : ¬ c.val.toNat ≤ 127 := Nat.not_le_of_lt hc
  have htail (n : Nat) : 128 ≤ (UInt8.ofNat (n % 64 + 128)).toNat :=
    le_toNat_ofNat (by omega) (by omega)
  unfold String.utf8EncodeChar
  dsimp only
  rw [if_neg hval]
  split
  · simp only [List.forall_mem_cons, List.not_mem_nil, false_imp_iff, implies_true, and_true]
    exact ⟨le_toNat_ofNat (by omega) (by omega), htail _⟩
  split
  · simp only [List.forall_mem_cons, List.not_mem_nil, false_imp_iff, implies_true, and_true]
    exact ⟨le_toNat_ofNat (by omega) (by omega), htail _, htail _⟩
  · simp only [List.forall_mem_cons, List.not_mem_nil, false_imp_iff, implies_true, and_true]
    exact ⟨le_toNat_ofNat (by omega) (by omega), htail _, htail _, htail _⟩

/-- Every character has a first byte, and those behind it are all above 127. -/
theorem encoded_cons (c : Char) :
    ∃ b bs, String.utf8EncodeChar c = b :: bs ∧ ∀ d ∈ bs, 128 ≤ d.toNat := by
  obtain hc | hc := Nat.lt_or_ge c.toNat 128
  · obtain ⟨b, hb, -⟩ := encoded_narrow hc
    exact ⟨b, [], hb, nofun⟩
  · obtain ⟨b, bs, hbs⟩ := List.exists_cons_of_length_pos
      (Nat.lt_of_lt_of_eq c.utf8Size_pos (String.length_utf8EncodeChar c).symm)
    exact ⟨b, bs, hbs, fun d hd => encoded_wide hc d (hbs ▸ List.mem_cons_of_mem b hd)⟩

theorem encode_length_narrow {c : Char} (hc : c.toNat < 128) : (encode [c]).length = 1 := by
  obtain ⟨b, hb, -⟩ := encoded_narrow hc
  rw [encode_singleton, hb]
  rfl

theorem encode_length_cons {c : Char} (hc : c.toNat < 128) (cs : List Char) :
    (encode (c :: cs)).length = (encode cs).length + 1 := by
  rw [← List.singleton_append, encode_append, List.length_append, encode_length_narrow hc,
    Nat.add_comm]

-- ======================================================== plain questions

/-- Whether all characters of more than one byte are answered alike. -/
def Bytewise {α : Type} (f : Char → α) (a : α) : Prop := ∀ c : Char, 128 ≤ c.toNat → f c = a

/-- What is asked of a byte is then answered as for its character. -/
theorem Bytewise.byte {α : Type} {f : Char → α} {a : α} (h : Bytewise f a) {c : Char} {b : UInt8}
    (hb : b ∈ String.utf8EncodeChar c) : f (charOfByte b) = f c := by
  obtain hc | hc := Nat.lt_or_ge c.toNat 128
  · obtain ⟨e, hbytes, he⟩ := encoded_narrow hc
    rw [hbytes] at hb
    rw [List.mem_singleton.1 hb, he]
  · rw [h c hc]
    refine h _ ?_
    rw [charOfByte_toNat]
    exact encoded_wide hc b hb

/-- A character that is answered differently has one byte. -/
theorem Bytewise.narrow {α : Type} {f : Char → α} {a : α} (h : Bytewise f a) {c : Char}
    (hc : f c ≠ a) : c.toNat < 128 := by
  by_contra hwide
  exact hc (h c (by omega))

/-- What is asked of the first byte is answered as for the first character. -/
theorem Bytewise.head {α : Type} {f : Char → α} {a : α} (h : Bytewise f a) (cs : List Char) :
    (encode cs).head?.map (fun b => f (charOfByte b)) = cs.head?.map f := by
  cases cs with
  | nil => rfl
  | cons c cs =>
      obtain ⟨b, bs, hbytes, -⟩ := encoded_cons c
      rw [encode_cons, hbytes]
      exact congrArg some (h.byte (hbytes ▸ List.mem_cons_self))

theorem Bytewise.head_any {f : Char → Bool} (h : Bytewise f false) (cs : List Char) :
    ((encode cs).head?.any fun b => f (charOfByte b)) = cs.head?.any f := by
  have hhead := congrArg (·.any id) (h.head cs)
  simpa [Option.any_map] using hhead

theorem Bytewise.head_bind {α : Type} {f : Char → Option α} {a : Option α} (h : Bytewise f a)
    (cs : List Char) : ((encode cs).head?.bind fun b => f (charOfByte b)) = cs.head?.bind f := by
  have hjoin {β : Type} (o : Option β) (g : β → Option α) : o.bind g = (o.map g).join := by
    cases o <;> rfl
  rw [hjoin, hjoin, h.head]

/-- A run of bytes is the run of characters it encodes. -/
theorem Bytewise.takeWhile {f : Char → Bool} {a : Bool} (h : Bytewise f a) (cs : List Char) :
    (encode cs).takeWhile (fun b => f (charOfByte b)) = encode (cs.takeWhile f) := by
  induction cs with
  | nil => rfl
  | cons c cs ih =>
      obtain ⟨b, bs, hbytes, -⟩ := encoded_cons c
      rw [encode_cons]
      by_cases hc : f c = true
      · rw [List.takeWhile_append_of_pos fun d hd => (h.byte hd).trans hc, ih,
          List.takeWhile_cons_of_pos hc, encode_cons]
      · rw [List.takeWhile_cons_of_neg hc, hbytes, List.cons_append,
          List.takeWhile_cons_of_neg]
        · rfl
        · rwa [h.byte (hbytes ▸ List.mem_cons_self)]

theorem ne_of_wide {c a : Char} (hc : 128 ≤ c.toNat) (ha : a.toNat < 128) : c ≠ a := by
  rintro rfl
  omega

theorem bytewise_eq {a : Char} (ha : a.toNat < 128) : Bytewise (fun c => decide (c = a)) false :=
  fun _ hc => decide_eq_false (ne_of_wide hc ha)

theorem bytewise_ne {a : Char} (ha : a.toNat < 128) : Bytewise (fun c => decide (c ≠ a)) true :=
  fun _ hc => decide_eq_true (ne_of_wide hc ha)

/-- A byte of a character is a plain character only where that one is. -/
theorem charOfByte_eq_iff {a c : Char} {b : UInt8} (ha : a.toNat < 128)
    (hb : b ∈ String.utf8EncodeChar c) : charOfByte b = a ↔ c = a :=
  decide_eq_decide.1 ((bytewise_eq ha).byte hb)

/-- A plain character is the first if its byte is. -/
theorem head_eq_iff {a : Char} (ha : a.toNat < 128) (cs : List Char) :
    (encode cs).head?.map charOfByte = some a ↔ cs.head? = some a := by
  cases cs with
  | nil => exact ⟨nofun, nofun⟩
  | cons c cs =>
      obtain ⟨b, bs, hbytes, -⟩ := encoded_cons c
      have hb := charOfByte_eq_iff ha (hbytes ▸ List.mem_cons_self : b ∈ String.utf8EncodeChar c)
      rw [encode_cons, hbytes]
      exact Option.some_inj.trans (hb.trans Option.some_inj.symm)

theorem bytewise_isDigit : Bytewise Char.isDigit false := by
  intro c hc
  have hval : c.val.toNat = c.toNat := rfl
  simp only [Char.isDigit, Bool.and_eq_false_iff, decide_eq_false_iff_not, UInt32.le_iff_toNat_le]
  right
  show ¬ c.val.toNat ≤ 57
  omega

/-- Which characters are letters. -/
theorem isAlpha_iff (c : Char) : c.isAlpha = true
    ↔ (65 ≤ c.toNat ∧ c.toNat ≤ 90) ∨ (97 ≤ c.toNat ∧ c.toNat ≤ 122) := by
  show (decide (_ ∧ _) || (decide _ && decide _)) = true ↔ _
  rw [Bool.or_eq_true, Bool.and_eq_true, decide_eq_true_eq, decide_eq_true_eq, decide_eq_true_eq]
  exact Iff.rfl

theorem bytewise_isAlpha : Bytewise Char.isAlpha false := by
  intro c hc
  rw [Bool.eq_false_iff, ne_eq, isAlpha_iff]
  omega

-- ================================================================ decoding

/-- The first character of an encoding is decoded, whatever follows. -/
theorem charOfBytes?_encode (c : Char) (bytes : List UInt8) :
    charOfBytes? (String.utf8EncodeChar c ++ bytes) = some c := by
  unfold charOfBytes?
  rw [List.toByteArray_append]
  exact ByteArray.utf8DecodeChar?_utf8EncodeChar_append

/-- Decoding undoes encoding, if it is given a step for each byte. -/
theorem decode_encode (fuel : Nat) (cs : List Char) (h : (encode cs).length ≤ fuel) :
    decode fuel (encode cs) = cs := by
  induction fuel generalizing cs with
  | zero =>
      cases cs with
      | nil => rfl
      | cons c cs => exact absurd (encode_length_pos (List.cons_ne_nil c cs)) (by omega)
  | succ fuel ih =>
      cases cs with
      | nil => rfl
      | cons c cs =>
          have hdecoded := charOfBytes?_encode c (encode cs)
          have hdrop : (String.utf8EncodeChar c ++ encode cs).drop c.utf8Size = encode cs :=
            List.drop_left' (String.length_utf8EncodeChar c)
          have hlength := c.utf8Size_pos
          rw [encode_cons, List.length_append, String.length_utf8EncodeChar] at h
          obtain ⟨b, bs, hbytes, -⟩ := encoded_cons c
          rw [encode_cons]
          rw [hbytes, List.cons_append] at hdecoded hdrop ⊢
          rw [decode, hdecoded]
          dsimp only
          rw [hdrop, ih cs (by omega)]

/-- The text of an encoding is the text that was encoded. -/
theorem textOfBytes_encode (cs : List Char) : textOfBytes (encode cs) = String.ofList cs :=
  congrArg String.ofList (decode_encode _ cs (Nat.le_refl _))

end MiniC
