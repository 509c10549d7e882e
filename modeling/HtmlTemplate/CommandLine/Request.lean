import HtmlTemplate.CommandLine.Form
import HtmlTemplate.Path
import HtmlTemplate.Text.Cut

/-! # What arguments ask for

Arguments are read from the left. A call for help counts where it stands: what is wrong before it comes
first, what follows it is not looked at.
-/

namespace HtmlTemplate.CommandLine

inductive Command where
  | compile (dirs : List Path) (lead : Option String) (config : Option Path)
  | check (file : Path) (lead : Option String)
  deriving DecidableEq, Repr

inductive Request where
  | command (command : Command)
  /-- To print a text on the program itself. -/
  | inform (text : String)
  /-- The arguments are not of any form. -/
  | misuse
  deriving DecidableEq, Repr

/-! ## The arguments of one command -/

/-- Arguments sorted into options with their values and the rest. -/
structure Arguments where
  options : List (String × String)
  operands : List String
  deriving DecidableEq, Repr

inductive Reading where
  | complete (arguments : Arguments)
  | help
  | misuse
  deriving DecidableEq, Repr

/-- Whether an argument cannot be a value because it looks like an option. -/
def isOption (argument : String) : Bool :=
  match argument.toList with
  | '-' :: _ :: _ => true
  | _ => false

/-- Whether an argument is an option by a name of many letters, or by one, whatever follows that
letter. -/
def isCall (name : String) (letter : Char) (argument : String) : Bool :=
  argument = "--" ++ name || ['-', letter].isPrefixOf argument.toList

/-- An option with its name, and its value if that is written behind `=`. -/
def splitOption (argument : String) : Option (String × Option String) :=
  match argument.toList with
  | '-' :: '-' :: s =>
    match Chars.cut ['='] s with
    | some (name, value) => some (String.ofList name, some (String.ofList value))
    | none => some (String.ofList s, none)
  | _ => none

/-- Takes one more operand. -/
def Form.take (f : Form) (a : Arguments) (operand : String) : Option Arguments :=
  if operand ≠ "" && (f.many || a.operands.isEmpty) then
    some { a with operands := a.operands ++ [operand] }
  else none

/-- Takes the value of an option, which can be given once. -/
def Form.give (f : Form) (a : Arguments) (name value : String) : Option Arguments :=
  match f.flags.find? (·.name = name) with
  | none => none
  | some flag =>
    if (flag.isPath && value = "") || a.options.any (·.1 = name) then none
    else some { a with options := a.options ++ [(name, value)] }

/-- Reads arguments after those in `a`. Each option has a value, its own or the next argument; after
`--` nothing is an option. -/
def Form.read (f : Form) (a : Arguments) : List String → Reading
  | [] => .complete a
  | argument :: rest =>
    if argument = "--" then
      match rest.foldlM f.take a with
      | some a => .complete a
      | none => .misuse
    else if isCall "help" 'h' argument then .help
    else if isOption argument then
      match splitOption argument, rest with
      | some (name, some value), rest =>
        match f.give a name value with
        | some a => f.read a rest
        | none => .misuse
      | some (name, none), value :: rest =>
        if isOption value then .misuse
        else match f.give a name value with
          | some a => f.read a rest
          | none => .misuse
      | _, _ => .misuse
    else
      match f.take a argument with
      | some a => f.read a rest
      | none => .misuse

/-! ## All arguments -/

/-- The command of a verb with its arguments. -/
def Verb.command? (a : Arguments) : Verb → Option Command
  | .compile =>
    if a.operands = [] then none
    else some (.compile (a.operands.map Path.mk) (a.options.lookup "prefix")
      ((a.options.lookup "config").map Path.mk))
  | .check =>
    match a.operands with
    | [file] => some (.check ⟨file⟩ (a.options.lookup "prefix"))
    | _ => none

/-- The help that is asked for by name. -/
def helpOn : List String → Request
  | [] => .inform programHelp
  | [name] =>
    match Verb.ofName? name with
    | some v => .inform v.form.help
    | none => if name = "help" then .inform helpHelp else .misuse
  | _ => .misuse

/-- What the arguments behind a verb ask for. -/
def Verb.request (v : Verb) (arguments : List String) : Request :=
  match v.form.read ⟨[], []⟩ arguments with
  | .help => .inform v.form.help
  | .misuse => .misuse
  | .complete a =>
    match v.command? a with
    | some c => .command c
    | none => .misuse

/-- What arguments ask for. -/
def Request.ofArguments : List String → Request
  | [] => .misuse
  | first :: rest =>
    match Verb.ofName? first with
    | some v => v.request rest
    | none =>
      if first = "help" then helpOn rest
      else if isCall "help" 'h' first then .inform programHelp
      else if isCall "version" 'V' first then .inform versionText
      else .misuse

end HtmlTemplate.CommandLine
