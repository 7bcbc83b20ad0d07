import SExpression.Fault
import SExpression.Text.Byte

/-! # Files by name

A directory here is what a program sees of the file system: the files it works with, each at its
place seen from the directory it works in.  Other directories are known by name only: those above
the working directory, and the root.

A path is walked component by component.  The walk fails at a component that does not exist, at one
that is a file and should be a directory, and at a name beyond 255 bytes; a path beyond 4095 bytes
or with a NUL in it is refused before.  A path that ends in a slash asks for a directory, which
reading and writing refuse, each with a fault of its own. -/
set_option autoImplicit false
namespace SExpression

/-- The components that lead to a place from the working directory, last one first; the first one
is `/` for a place below the root. -/
abbrev Place := List String

structure Directory where
  files : List (Place × Bytes)
  deriving DecidableEq, Repr

namespace Directory

def empty : Directory := ⟨[]⟩

/-- What a path leads to. -/
inductive Node where
  | directory (place : Place)
  | file (place : Place) (content : Bytes)
  /-- A name that its directory does not hold. -/
  | absent (place : Place)
  deriving DecidableEq, Repr

section Paths
variable (path : String)

def components : List String :=
  (path.toList.splitOn '/').filterMap fun cs => if cs = [] then none else some (String.ofList cs)

def origin : Node := .directory (if path.toList.head? = some '/' then ["/"] else [])

/-- Whether a path ends in a slash and so asks for a directory. -/
def asksDirectory : Bool := path.toList.getLast? == some '/'

/-- The fault of a path that is found before it is walked. -/
def pathFault? : Option Fault :=
  if path.toList.contains '\x00' then some .nulInPath
  else if path.isEmpty then some .notFound
  else if 4096 ≤ path.utf8ByteSize then some .nameTooLong
  else none

end Paths

section Walking
variable (d : Directory)

def step (n : Node) (component : String) : Except Fault Node :=
  match n with
  | .file _ _ => .error .notDirectory
  | .absent _ => .error .notFound
  | .directory place =>
    if component = "." then .ok n
    else if component = ".." then .ok (.directory (if place = ["/"] then place else ".." :: place))
    else if 255 < component.utf8ByteSize then .error .nameTooLong
    else
      match d.files.lookup (component :: place) with
      | some content => .ok (.file (component :: place) content)
      | none => .ok (.absent (component :: place))

/-- Where some components of a path lead. -/
def walk (path : String) (along : List String) : Except Fault Node :=
  match pathFault? path with
  | some fault => .error fault
  | none => along.foldlM d.step (origin path)

def read (path : String) : Except Fault Bytes := do
  match ← d.walk path (components path) with
  | .directory _ => throw .isDirectory
  | .absent _ => throw .notFound
  | .file _ content => if asksDirectory path then throw .notDirectory else return content

/-- The directory after a file was written; an older file at that place is replaced. -/
def write (path : String) (content : Bytes) : Except Fault Directory := do
  let along := components path
  let parent ← d.walk path along.dropLast
  match along.getLast?, parent, asksDirectory path with
  | none, _, _ => throw .isDirectory
  | some _, .directory _, true => throw .isDirectory
  | some name, parent, _ =>
    match ← d.step parent name with
    | .directory _ => throw .isDirectory
    | .absent place => return ⟨(place, content) :: d.files⟩
    | .file place _ => return ⟨(place, content) :: d.files⟩

end Walking

end Directory

end SExpression
