import Sm83.Console.Blank
import Sm83.Console.Failure

/-!
One line of console input. Its first word decides; `b` also takes the second, and no other word counts.
-/

set_option autoImplicit false

namespace Sm83

inductive Command where
  | step
  | proceed
  | pause
  | resume
  | toggle (address : Word)
  | info
  | start
  | stop
  | reset
  | quit
  deriving DecidableEq, Repr

namespace Command

def ofWord? : String → Option Command
  | "s" | "step" => some .step
  | "c" | "continue" => some .proceed
  | "p" | "pause" => some .pause
  | "r" | "resume" => some .resume
  | "i" | "info" => some .info
  | "start" => some .start
  | "stop" => some .stop
  | "reset" => some .reset
  | "q" | "quit" => some .quit
  | _ => none

def ofWords : List String → Except Failure Command
  | [] => .error .emptyCommand
  | w :: rest =>
    if w = "b" ∨ w = "break" then
      match rest with
      | [] => .error .commandLacksAddress
      | a :: _ => (readAddress a).map .toggle
    else
      match ofWord? w with
      | some c => .ok c
      | none => .error (.unknownCommand w)

def read (line : String) : Except Failure Command := ofWords (words line)

end Command

end Sm83
