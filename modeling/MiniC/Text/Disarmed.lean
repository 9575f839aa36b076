/-
Texts that a terminal only shows. The characters by which a text could
command it are written by their code points: the bell, backspace, form
feed, escape and delete as two digits, the second block of controls in
braces. Tabs, line ends and the other controls stay. Consumed by the
warnings of the command line.
-/
import MiniC.Text.Hex

namespace MiniC.Text

/-- The characters below the second block of controls that can command a
terminal: bell, backspace, form feed, escape, delete. -/
def commanding : List Char := ['\x07', '\x08', '\x0c', '\x1b', '\x7f']

/-- Whether a character is in the second block of controls. -/
def isHighControl (c : Char) : Bool := 0x80 ≤ c.toNat && c.toNat ≤ 0x9f

/-- A character as it is shown. -/
def disarmChar (c : Char) : String :=
  if commanding.contains c then "\\x" ++ hex 2 c.toNat
  else if isHighControl c then "\\u\x7b" ++ hex 1 c.toNat ++ "\x7d"
  else c.toString

/-- A text as it is shown. -/
def disarm (text : String) : String := String.join (text.toList.map disarmChar)

end MiniC.Text
