import Sm83.Console.FileProblem
import Sm83.Word

/-!
Files for a conversation that is to come out the same on every system. They are no part of the program, which
takes whatever its system says of a path; here a tree stands in for the system, so that a command line can be
rehearsed together with the cause that a bad path prints. A path is walked one name at a time, and the first name
that leads nowhere decides what is wrong with it: also an empty name, as behind a slash at the end, needs a folder.
-/

set_option autoImplicit false

namespace Sm83

inductive Tree where
  | file (bytes : List Byte)
  | folder (entries : List (String × Tree))

/-- A location in a tree with the folders above it, the nearest first. -/
structure Location where
  here : Tree
  above : List Tree := []

namespace Location

def longestName : Nat := 255

def longestPath : Nat := 4095

def root (p : Location) : Location := ⟨p.above.getLastD p.here, []⟩

/-- The folder above the root is the root. -/
def leave (p : Location) : Location :=
  match p.above with
  | [] => p
  | t :: above => ⟨t, above⟩

def enter (p : Location) (name : String) : Except FileProblem Location :=
  match p.here with
  | .file _ => .error .notFolder
  | .folder entries =>
    if name = "" ∨ name = "." then .ok p
    else if name = ".." then .ok p.leave
    else if longestName < name.utf8ByteSize then .error .longName
    else match entries.lookup name with
      | some t => .ok ⟨t, p.here :: p.above⟩
      | none => .error .missing

/-- A path that begins with a slash is walked from the root. -/
def find (p : Location) (path : String) : Except FileProblem Location :=
  if path = "" then .error .missing
  else if longestPath < path.utf8ByteSize then .error .longName
  else (path.splitOn "/").foldlM enter (if path.toList.head? = some '/' then p.root else p)

def read (p : Location) (path : String) : Except FileProblem (List Byte) :=
  match p.find path with
  | .error problem => .error problem
  | .ok found =>
    match found.here with
    | .file bytes => .ok bytes
    | .folder _ => .error .folder

end Location

end Sm83
