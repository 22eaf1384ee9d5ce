import Parley.Text.Blank

/-! Source files: a directory of named texts, and what becomes of a path in it. -/

namespace Parley.Command

/-- Why a file cannot be read. -/
inductive FileError where
  | missing
  | isDirectory
  | notDirectory
  | denied
  | nameTooLong
  deriving DecidableEq, Repr

def FileError.message : FileError → String
  | missing => "No such file or directory"
  | isDirectory => "Is a directory"
  | notDirectory => "Not a directory"
  | denied => "Permission denied"
  | nameTooLong => "File name too long"

/-- Line ends of all sorts as line feeds. -/
def plainLines : List Char → List Char
  | [] => []
  | '\r' :: '\n' :: cs => '\n' :: plainLines cs
  | '\r' :: cs => '\n' :: plainLines cs
  | c :: cs => c :: plainLines cs

/-- The working directory: the names of its files with their texts. -/
structure Directory where
  files : List (String × String)
  deriving Repr, Inhabited

/-- The steps of a path, without those that stay where they are. -/
def steps (path : String) : List String :=
  ((Text.pieces (· == '/') path.toList).map String.ofList).filter fun s => s ≠ "" && s ≠ "."

/-- The longest name of a file, in bytes. -/
def nameLimit : Nat := 255

/-- The longest path, in bytes. -/
def pathLimit : Nat := 4095

/-- The directories that every system has at its root. -/
def rootDirectories : List String :=
  ["bin", "boot", "dev", "etc", "home", "lib", "media", "mnt", "opt", "proc", "root", "run", "sbin",
    "srv", "sys", "tmp", "usr", "var"]

/-- Where a walk along a path stands. -/
inductive Place where
  /-- in the working directory, or further down -/
  | inside (names : List String)
  /-- at the root of all directories -/
  | root
  /-- in a directory of which nothing is known -/
  | outside
  deriving DecidableEq, Repr

/-- The directory around a place. -/
def Place.up : Place → Place
  | inside [] => outside
  | inside names => inside names.dropLast
  | root => root
  | outside => outside

namespace Directory

/-- The text of the file that lies at the end of some steps. -/
def text? (d : Directory) (names : List String) : Option String :=
  (d.files.find? (·.1 = "/".intercalate names)).map (·.2)

/-- Whether some file lies further down than some steps. -/
def isDirectory (d : Directory) (names : List String) : Bool :=
  d.files.any fun f => (steps f.1).length ≠ names.length && names.isPrefixOf (steps f.1)

/-- Goes from a place to the text at the end of some steps. -/
def walk (d : Directory) (here : Place) : List String → Except FileError String
  | [] => .error .isDirectory
  | name :: rest =>
    if name = ".." then d.walk here.up rest
    else if nameLimit < name.utf8ByteSize then .error .nameTooLong
    else match here with
      | .inside names =>
        let there := names ++ [name]
        match d.text? there with
        | some text => if rest = [] then .ok text else .error .notDirectory
        | none => if d.isDirectory there then d.walk (.inside there) rest else .error .missing
      | .root => if rootDirectories.contains name then d.walk .outside rest else .error .missing
      | .outside => .error .missing

def read (d : Directory) (path : String) : Except FileError String :=
  let names := steps path
  let isAbsolute := path.toList.head? = some '/'
  let plain := (if isAbsolute then "/" else "") ++ "/".intercalate names
  if pathLimit < plain.utf8ByteSize then .error .nameTooLong
  else d.walk (if isAbsolute then .root else .inside []) names

end Directory

end Parley.Command
