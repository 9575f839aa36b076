/-
Data lines read back.

# The reader

A reader of assembly sees a line of bytes as a label and a list of numbers,
hexadecimal behind `0x` and decimal otherwise, with a comma between any two; it
knows nothing of how the line was written. A number that it cannot read spoils
the whole line, so that what is read is all that stands there.

# What is read

Every string of the data is read by it as the bytes it was written from and the
zero that ends them (`lineNumbers?_render`), under its own label only
(`lineNumbers?_render_ne`): a line starts with the name it defines and a colon,
and a name has no colon in it.
Consumed by the proof that string literals reach the data.
-/
import MiniC.Asm.Listing

namespace MiniC.Asm

-- =============================================================== numbers

/-- The value of a digit in a base up to sixteen. -/
def digit? (base : Nat) (c : Char) : Option Nat :=
  let value :=
    if '0' ≤ c ∧ c ≤ '9' then some (c.toNat - '0'.toNat)
    else if 'a' ≤ c ∧ c ≤ 'f' then some (c.toNat - 'a'.toNat + 10)
    else none
  value.filter (· < base)

/-- The value of digits, the highest first. -/
def digits? (base : Nat) (ds : List Char) : Option Nat :=
  if ds.isEmpty then none else ds.foldlM (fun n c => (digit? base c).map (base * n + ·)) 0

/-- A number as it stands in a line, with blanks in front of it. -/
def number? (text : List Char) : Option Nat :=
  match text.dropWhile (· = ' ') with
  | '0' :: 'x' :: ds => digits? 16 ds
  | ds => digits? 10 ds

/-- The numbers of a list, with commas between them. -/
def numbers? (text : List Char) : Option (List Nat) := (text.splitOn ',').mapM number?

/-- What stands behind a given front of a text. -/
def behind? : List Char → List Char → Option (List Char)
  | [], text => some text
  | c :: front, d :: text => if c = d then behind? front text else none
  | _ :: _, [] => none

/-- The numbers of the bytes that a line defines under a label. -/
def lineNumbers? (label line : String) : Option (List Nat) :=
  (behind? (label ++ ": db ").toList line.toList).bind numbers?

-- =============================================================== reading

/-- A byte as it is written among others. -/
def byteText (b : UInt8) : List Char := '0' :: 'x' :: (Text.hex 2 b.toNat).toList

/-- Two digits are written for a byte, and they are its value. -/
theorem hex_byte : ∀ n < 256,
    number? ('0' :: 'x' :: (Text.hex 2 n).toList) = some n ∧ ',' ∉ (Text.hex 2 n).toList := by
  decide +kernel

/-- A blank in front of a number is passed over. -/
theorem number?_blank (text : List Char) : number? (' ' :: text) = number? text := rfl

/-- A blank in front of a list is in front of its first number. -/
theorem numbers?_blank (text : List Char) : numbers? (' ' :: text) = numbers? text := by
  unfold numbers?
  rw [List.splitOn_cons_eq_if_modifyHead, if_neg (by decide)]
  cases hparts : text.splitOn ',' with
  | nil => rfl
  | cons first rest =>
    rw [List.modifyHead_cons, List.mapM_cons, List.mapM_cons, number?_blank]

/-- A list is its first number and the numbers behind the comma. -/
theorem numbers?_cons {first : List Char} {n : Nat} (hfirst : number? first = some n)
    (hcomma : ',' ∉ first) (rest : List Char) :
    numbers? (first ++ ',' :: rest) = (numbers? rest).map (n :: ·) := by
  unfold numbers?
  rw [List.splitOn_append_cons_self_of_not_mem hcomma, List.mapM_cons, hfirst]
  cases (rest.splitOn ',').mapM number? <;> rfl

/-- Bytes in a row and a zero are read back. -/
theorem numbers?_bytes (bytes : List UInt8) :
    numbers? (bytes.flatMap (fun b => byteText b ++ [',', ' ']) ++ ['0'])
      = some (bytes.map UInt8.toNat ++ [0]) := by
  induction bytes with
  | nil => rfl
  | cons b bytes ih =>
    obtain ⟨hnumber, hcomma⟩ := hex_byte b.toNat b.toNat_lt
    have hnumber : number? (byteText b) = some b.toNat := hnumber
    have hfirst : ',' ∉ byteText b := by
      unfold byteText
      simp [hcomma]
    rw [List.flatMap_cons, List.append_assoc, List.append_assoc]
    show numbers? (byteText b ++ ',' :: ' ' :: _) = _
    rw [numbers?_cons hnumber hfirst, numbers?_blank]
    exact congrArg (Option.map (b.toNat :: ·)) ih

/-- What has something behind a front starts with it. -/
theorem eq_append_of_behind? {front text rest : List Char} (h : behind? front text = some rest) :
    text = front ++ rest := by
  induction front generalizing text with
  | nil => exact Option.some.inj h
  | cons c front ih =>
    cases text with
    | nil => cases h
    | cons d text =>
      unfold behind? at h
      split at h
      · next hc => rw [ih h, hc, List.cons_append]
      · cases h

/-- What stands behind a front is found. -/
theorem behind?_append (front text : List Char) : behind? front (front ++ text) = some text := by
  induction front with
  | nil => rfl
  | cons c front ih => rw [List.cons_append, behind?, if_pos rfl, ih]

/-- The characters of a line of bytes. -/
theorem render_string_toList (label : String) (bytes : List UInt8) :
    (Datum.string label bytes).render.toList
      = (label ++ ": db ").toList
        ++ (bytes.flatMap (fun b => byteText b ++ [',', ' ']) ++ ['0']) := by
  have hbyte (b : UInt8) :
      ("0x" ++ Text.hex 2 b.toNat ++ ", ").toList = byteText b ++ [',', ' '] := by
    rw [String.toList_append, String.toList_append]
    rfl
  show (label ++ ": db " ++ String.join (bytes.map fun b => "0x" ++ Text.hex 2 b.toNat ++ ", ")
    ++ "0").toList = _
  rw [String.toList_append, String.toList_append, String.toList_join, List.flatMap_map,
    List.append_assoc]
  simp only [hbyte]
  rfl

/-- A string of the data is read back as its bytes and the zero behind. -/
theorem lineNumbers?_render (label : String) (bytes : List UInt8) :
    lineNumbers? label (Datum.string label bytes).render
      = some (bytes.map UInt8.toNat ++ [0]) := by
  unfold lineNumbers?
  rw [render_string_toList, behind?_append]
  exact numbers?_bytes bytes

example : lineNumbers? "__str0" "__str0: db 0x68, 0x0a, 0" = some [104, 10, 0] := by decide

/-- Every line of the data starts with the name it defines and a colon. -/
theorem name_render (d : Datum) : d.name.toList ++ [':'] <+: d.render.toList := by
  cases d <;> simp [Datum.render, Datum.name]

/-- A line that defines another name is not read. -/
theorem lineNumbers?_render_ne {label : String} {d : Datum} (hlabel : ':' ∉ label.toList)
    (hname : ':' ∉ d.name.toList) (h : d.name ≠ label) : lineNumbers? label d.render = none := by
  obtain ⟨text, hrender⟩ := name_render d
  unfold lineNumbers?
  cases hbehind : behind? (label ++ ": db ").toList d.render.toList with
  | none => rfl
  | some rest =>
    have hsame : d.name.toList ++ ':' :: text
        = label.toList ++ ':' :: (" db ".toList ++ rest) := by
      rw [eq_append_of_behind? hbehind, String.toList_append] at hrender
      simpa using hrender
    have hparts := congrArg (List.splitOn ':') hsame
    rw [List.splitOn_append_cons_self_of_not_mem hname,
      List.splitOn_append_cons_self_of_not_mem hlabel] at hparts
    exact absurd (String.toList_inj.mp (List.cons.inj hparts).1) h

end MiniC.Asm
