/-!
# Diagnostics

What a failure tells its reader: a stable code, one message, and sometimes a line of advice. Every
error type of the library has one function into `Diagnostic`; `Diagnostic.report` lays one out for
a terminal.
-/

namespace MonkeyMachine

structure Diagnostic where
  code : String
  message : String
  help : Option String
  deriving DecidableEq

namespace Diagnostic

/-- A diagnostic without advice. -/
def plain (code message : String) : Diagnostic :=
  { code, message, help := none }

/-! ## Reports -/

/-- Terminal colours used by reports. -/
inductive Colour
  | red
  | cyan
  deriving DecidableEq

def Colour.digits : Colour → String
  | .red => "31"
  | .cyan => "36"

/-- Wrap `text` in the escape sequences of `colour`, or leave it alone in a plain report. -/
def paint (coloured : Bool) (colour : Colour) (text : String) : String :=
  if coloured then "\x1b[" ++ colour.digits ++ "m" ++ text ++ "\x1b[0m" else text

/-- A line of a report ends with its last character that is not a space. -/
def trimLine (line : String) : String :=
  String.ofList (line.toList.reverse.dropWhile (· == ' ')).reverse

/-- The message block: a cross marks its first line, a bar every further one. -/
def messageLines (coloured : Bool) (message : String) : List String :=
  match message.splitOn "\n" with
  | [] => []
  | first :: rest =>
      ("  " ++ paint coloured .red "×" ++ " " ++ trimLine first) ::
        rest.map fun line => "  " ++ paint coloured .red "│" ++ " " ++ trimLine line

/-- The advice line of a report. -/
def helpLines (coloured : Bool) : Option String → List String
  | none => []
  | some help => [paint coloured .cyan "  help: " ++ help]

/-- The report: the code, a blank line, the message and the advice, each line ended by a newline. -/
def report (coloured : Bool) (d : Diagnostic) : String :=
  let lines := paint coloured .red d.code :: "" ::
    (messageLines coloured d.message ++ helpLines coloured d.help)
  String.join (lines.map (· ++ "\n"))

end Diagnostic

end MonkeyMachine
