/-
Texts in double quotes. Quotes, backslashes and the usual controls get a
backslash; any other character without a visible form is written by its
code point. Consumed by the outline of a program and by the warnings of the
command line.
-/
import MiniC.Text.Hex
import MiniC.Text.Invisible

namespace MiniC.Text

/-- A character as it stands between quotes. -/
def escape (c : Char) : String :=
  match c with
  | '\x00' => "\\0"
  | '\t' => "\\t"
  | '\n' => "\\n"
  | '\r' => "\\r"
  | '"' => "\\\""
  | '\\' => "\\\\"
  | c => if isInvisible c then "\\u\x7b" ++ hex 1 c.toNat ++ "\x7d" else c.toString

/-- A text between quotes. -/
def quote (text : String) : String :=
  "\"" ++ String.join (text.toList.map escape) ++ "\""

end MiniC.Text
