/-
A directory of text files as a value, and the paths into it. A directory
exists while a file is in it; around the outermost one lie others, of which
nothing is known but that they are there. Reading and writing fail the way
a file system fails: a missing part of the path, a file where a directory
should be or the reverse, a path that ends in a dot, a path or a part that
is too long. A written file replaces the old one at once or not at all.
Consumed by the run of the command.
-/

namespace MiniC

/-- Why a file cannot be read or written. -/
inductive FileError where
  | notFound
  | busy
  | notDirectory
  | isDirectory
  | nameTooLong
  | notText
  | other (reason : String)
deriving DecidableEq, Repr

/-- The failure in words, with the system's number for it. -/
def FileError.message : FileError → String
  | .notFound => "No such file or directory (os error 2)"
  | .busy => "Device or resource busy (os error 16)"
  | .notDirectory => "Not a directory (os error 20)"
  | .isDirectory => "Is a directory (os error 21)"
  | .nameTooLong => "File name too long (os error 36)"
  | .notText => "stream did not contain valid UTF-8"
  | .other reason => reason

-- ================================================================= paths

namespace Path

/-- A path has fewer bytes than this. -/
def limit : Nat := 4096

/-- A part of a path has at most this many bytes. -/
def partLimit : Nat := 255

/-- The pieces of a text between the places where a character stands in it. -/
def pieces (separator : Char) (text : String) : List String :=
  (text.toList.splitOn separator).map String.ofList

/-- The parts of a path between its slashes; some may be empty. -/
def parts (path : String) : List String := pieces '/' path

/-- The parts of a path without the slashes it ends in. -/
def trimmed (path : String) : List String :=
  ((parts path).reverse.dropWhile (· == "")).reverse

/-- Whether a part names an entry of a directory; nothing and one or two
dots stand for directories that the path has reached already. -/
def isName (part : String) : Bool := part ≠ "" && part ≠ "." && part ≠ ".."

/-- A file name without its extension, which is what the last dot and the
text behind it are, unless nothing stands before the dot. -/
def stem (name : String) : String :=
  let before := String.intercalate "." (pieces '.' name).dropLast
  if before.isEmpty then name else before

/-- The name with its extension replaced. The extension is cut off behind
its dot first: where two dots alone are left there is no name any more, and
it stays like that. -/
def replaceExtension (extension name : String) : String :=
  if !isName name then name
  else if stem name = "." then ".."
  else stem name ++ "." ++ extension

/-- The path with the extension of its last part replaced. -/
def withExtension (path extension : String) : String :=
  let ps := parts path
  String.intercalate "/" (ps.dropLast ++ [replaceExtension extension (ps.getLastD "")])

/-- The path of a file in the directory that the path's last name is in. -/
def sibling (path name : String) : String :=
  String.intercalate "/" ((trimmed path).dropLast ++ [name])

end Path

-- ================================================================= files

/-- Where a path leads: to a place under the outermost directory, by the
names on the way to it; to one of the directories around that one; or to
any other place. -/
inductive Location where
  | under (names : List String)
  | around
  | elsewhere
deriving DecidableEq, Repr

namespace Location

/-- The directory that a place is in; the root of all is in itself. -/
def parent : Location → Location
  | .under [] => .around
  | .under names => .under names.dropLast
  | .around => .around
  | .elsewhere => .around

/-- The place of a name in a directory. -/
def child (place : Location) (name : String) : Location :=
  match place with
  | .under names => .under (names ++ [name])
  | .around => .elsewhere
  | .elsewhere => .elsewhere

/-- Where a path starts: at the root if it starts with a slash, otherwise
in the outermost directory. The empty path starts nowhere. -/
def start (path : String) : Except FileError Location :=
  if Path.limit ≤ path.utf8ByteSize then .error .nameTooLong
  else if path.isEmpty then .error .notFound
  else if (Path.parts path).head? = some "" then .ok .around
  else .ok (.under [])

end Location

/-- Files by the names of the directories they are in and their own. -/
structure Files where
  entries : List (List String × String)
deriving DecidableEq, Repr

/-- What is found at a place. -/
inductive Node where
  | file (text : String)
  | directory
  | missing
deriving DecidableEq, Repr

namespace Files

/-- What is found by the names on the way from the outermost directory. -/
def entry (f : Files) (names : List String) : Node :=
  match f.entries.lookup names with
  | some text => .file text
  | none =>
    if names.isEmpty || f.entries.any fun e => names.isPrefixOf e.1 then .directory else .missing

/-- What is found at a place. -/
def node (f : Files) : Location → Node
  | .under names => f.entry names
  | .around => .directory
  | .elsewhere => .missing

/-- Fails unless the place is a directory. -/
def requireDirectory (f : Files) (place : Location) : Except FileError Unit :=
  match f.node place with
  | .directory => .ok ()
  | .file _ => .error .notDirectory
  | .missing => .error .notFound

/-- The place that one part of a path leads to from a directory. -/
def step (f : Files) (place : Location) (part : String) : Except FileError Location := do
  f.requireDirectory place
  if part = "" || part = "." then return place
  else if part = ".." then return place.parent
  else if Path.partLimit < part.utf8ByteSize then throw .nameTooLong
  else return place.child part

/-- The place that the parts of a path lead to from a directory. -/
def walk (f : Files) (place : Location) : List String → Except FileError Location
  | [] => .ok place
  | part :: rest => do
    let next ← f.step place part
    f.walk next rest

/-- The text of the file at a path. -/
def read (f : Files) (path : String) : Except FileError String := do
  let place ← f.walk (← Location.start path) (Path.parts path)
  match f.node place with
  | .file text => return text
  | .directory => throw .isDirectory
  | .missing => throw .notFound

/-- Puts a text at a place, in front of the other files. What is put
outside is not among them. -/
def insert (f : Files) (place : Location) (text : String) : Files :=
  match place with
  | .under names => ⟨(names, text) :: f.entries.filter (·.1 != names)⟩
  | .around => f
  | .elsewhere => f

/-- Writes the file at a path. Its directory must exist, and the path must
end in a name that is not a directory's. -/
def write (f : Files) (path text : String) : Except FileError Files := do
  let named := Path.trimmed path
  let name := named.getLastD ""
  let directory ← f.walk (← Location.start path) named.dropLast
  f.requireDirectory directory
  if !Path.isName name then throw .busy
  let place ← f.step directory name
  if named.length < (Path.parts path).length then throw .notDirectory
  match f.node place with
  | .directory => throw .isDirectory
  | _ => return f.insert place text

/-- Files by their paths. -/
def ofList (files : List (String × String)) : Files :=
  ⟨files.map fun (path, text) => ((Path.parts path).filter (fun p => p ≠ "" && p ≠ "."), text)⟩

/-- The files that `later` has and `f` has not, or with another text, by
their paths. -/
def changes (f later : Files) : List (String × String) :=
  later.entries.filterMap fun (place, text) =>
    if f.entries.lookup place = some text then none else some (String.intercalate "/" place, text)

end Files

end MiniC
