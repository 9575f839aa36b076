/-
Numbers in lower-case hexadecimal. Consumed by the printing of instructions
and by quoting.
-/

namespace MiniC.Text

/-- Lower-case hexadecimal digits, at least the given number of them. -/
def hex (places n : Nat) : String :=
  let digits := Nat.toDigits 16 n
  String.ofList (List.replicate (places - digits.length) '0' ++ digits)

end MiniC.Text
