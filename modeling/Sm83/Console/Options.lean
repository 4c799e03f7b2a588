import Sm83.Console.Failure

/-!
The command line: one path and any number of options, in any order. The leftmost argument that does not fit
is the one reported; that the path is missing shows only at the end.
-/

set_option autoImplicit false

namespace Sm83

structure Options where
  debug : Bool := false
  fast : Bool := false
  breakpoints : List Word := []
  deriving DecidableEq, Repr

inductive Argument where
  | debug
  | fast
  | breakpoint
  | unknown
  | path
  deriving DecidableEq, Repr

/-- Two dashes begin an option. -/
def Argument.kind (text : String) : Argument :=
  if text = "--debug" then .debug
  else if text = "--fast" then .fast
  else if text = "--break" then .breakpoint
  else if ['-', '-'].isPrefixOf text.toList then .unknown
  else .path

structure Invocation where
  path : String
  options : Options
  deriving DecidableEq, Repr

namespace Invocation

/-- Continues with what was seen so far. The argument behind a breakpoint option is always its address. -/
def readFrom (path : Option String) (o : Options) : List String → Except Failure Invocation
  | [] =>
    match path with
    | some path => .ok ⟨path, o⟩
    | none => .error .noImage
  | text :: rest =>
    match Argument.kind text with
    | .debug => readFrom path { o with debug := true } rest
    | .fast => readFrom path { o with fast := true } rest
    | .breakpoint =>
      match rest with
      | [] => .error .optionLacksAddress
      | a :: rest =>
        match readAddress a with
        | .error f => .error f
        | .ok a => readFrom path { o with breakpoints := o.breakpoints ++ [a] } rest
    | .unknown => .error (.unknownOption text)
    | .path =>
      match path with
      | none => readFrom (some text) o rest
      | some _ => .error (.unexpectedArgument text)

def read (arguments : List String) : Except Failure Invocation := readFrom none {} arguments

end Invocation

end Sm83
