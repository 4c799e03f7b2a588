/-!
Why an image cannot be read. The cause that a failure prints is the system's own text for it, so these are the
reasons a system gives for a path, each with its number and text. A program that learns only the number has the text
from here.
-/

set_option autoImplicit false

namespace Sm83

inductive FileProblem where
  | missing
  | denied
  | notFolder
  | folder
  | longName
  | linkLoop
  deriving DecidableEq, Repr

namespace FileProblem

def all : List FileProblem := [.missing, .denied, .notFolder, .folder, .longName, .linkLoop]

def code : FileProblem → Nat
  | .missing => 2
  | .denied => 13
  | .notFolder => 20
  | .folder => 21
  | .longName => 36
  | .linkLoop => 40

def text : FileProblem → String
  | .missing => "No such file or directory"
  | .denied => "Permission denied"
  | .notFolder => "Not a directory"
  | .folder => "Is a directory"
  | .longName => "File name too long"
  | .linkLoop => "Too many levels of symbolic links"

def message (p : FileProblem) : String := s!"{p.text} (os error {p.code})"

def ofCode? (n : Nat) : Option FileProblem := all.find? (·.code == n)

end FileProblem

end Sm83
