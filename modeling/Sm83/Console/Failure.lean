import Sm83.Console.Address

/-!
What can go wrong between a person and the program. A failure prints as a chain of texts, outermost first.
-/

set_option autoImplicit false

namespace Sm83

inductive Failure where
  | address (text : String) (problem : Address.Problem)
  | optionLacksAddress
  | unknownOption (text : String)
  | unexpectedArgument (text : String)
  | noImage
  | commandLacksAddress
  | unknownCommand (word : String)
  | emptyCommand
  | unreadableImage (path reason : String)
  | unreadableInput (reason : String)
  deriving DecidableEq, Repr

namespace Failure

def usage : String := "usage: dmgboy <rom> [--debug] [--fast] [--break ADDR]..."

def chain : Failure → List String
  | .address text problem => [s!"invalid address '{text}'", problem.message]
  | .optionLacksAddress => ["--break needs an address"]
  | .unknownOption text => [s!"unknown option '{text}'\n{usage}"]
  | .unexpectedArgument text => [s!"unexpected argument '{text}'\n{usage}"]
  | .noImage => [s!"no ROM path provided\n{usage}"]
  | .commandLacksAddress => ["b needs an address"]
  | .unknownCommand word => [s!"unknown command '{word}'"]
  | .emptyCommand => ["empty command"]
  | .unreadableImage path reason => [s!"failed to read ROM '{path}'", reason]
  | .unreadableInput reason => ["failed to read console input", reason]

def message (f : Failure) : String := ": ".intercalate f.chain

/-- The text a failed program ends with: the outermost text, then the cause on a line of its own. -/
def report (f : Failure) : String :=
  match f.chain with
  | [] => "Error: "
  | outer :: causes =>
    "Error: " ++ outer ++
      (if causes.isEmpty then "" else "\n\nCaused by:" ++ String.join (causes.map fun c => "\n    " ++ c))

end Failure

def readAddress (text : String) : Except Failure Word :=
  (Address.read text).mapError (.address text)

end Sm83
