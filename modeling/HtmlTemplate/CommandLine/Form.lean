/-! # The forms of commands

    compile <dirs>... [--prefix <lead>] [--config <file>]
    check <file> [--prefix <lead>]

A form says what a command takes, and its help is written from it.
-/

namespace HtmlTemplate.CommandLine

/-- An option. It has a value. -/
structure Flag where
  name : String
  about : String := ""
  /-- Whether the value is a path. A path cannot be empty. -/
  isPath : Bool := false
  deriving DecidableEq, Repr

/-- What a command takes: options, and paths, one or any number of them. -/
structure Form where
  name : String
  about : String
  operand : String
  many : Bool
  flags : List Flag
  deriving DecidableEq, Repr

/-- The commands. -/
inductive Verb where
  | compile
  | check
  deriving DecidableEq, Repr

namespace Verb

def form : Verb → Form
  | compile =>
    { name := "compile"
      about := "编译模板目录下的所有 .html 模板"
      operand := "DIRS"
      many := true
      flags := [{ name := "prefix", about := "Macro attribute prefix" },
        { name := "config", about := "XML configuration file", isPath := true }] }
  | check =>
    { name := "check"
      about := "编译单个模板并输出到 stdout"
      operand := "FILE"
      many := false
      flags := [{ name := "prefix" }] }

def all : List Verb := [compile, check]

/-- The command of a name. -/
def ofName? (name : String) : Option Verb :=
  all.find? (·.form.name = name)

end Verb

/-! ## Help -/

def programName : String := "uview"

/-- What the program says when it is asked for its version. -/
def versionText : String := programName ++ " 0.1.0\n"

/-- A part of a help text: a heading, and lines whose right halves stand below each other. -/
def helpPart (heading : String) (lines : List (String × String)) : String :=
  let width := lines.foldl (fun w l => max w l.1.length) 0
  let line (l : String × String) : String :=
    "  " ++ l.1 ++ String.ofList (List.replicate (width - l.1.length) ' ') ++ "  " ++ l.2 ++ "\n"
  "\n" ++ heading ++ ":\n" ++ String.join (lines.map line)

/-- The head of a help text. -/
def helpHead (about usage : String) : String :=
  about ++ "\n\nUsage: " ++ programName ++ " " ++ usage ++ "\n"

def helpFlag : String × String := ("-h, --help", "Print help")

/-- The line on an option. -/
def Flag.line (f : Flag) : String × String :=
  ("    --" ++ f.name ++ " <" ++ String.ofList (f.name.toList.map Char.toUpper) ++ ">", f.about)

/-- How the operands of a command are shown. -/
def Form.operands (f : Form) : String :=
  "<" ++ f.operand ++ ">" ++ if f.many then "..." else ""

/-- The help on a command. -/
def Form.help (f : Form) : String :=
  helpHead f.about (f.name ++ " [OPTIONS] " ++ f.operands) ++
    helpPart "Arguments" [(f.operands, "")] ++
    helpPart "Options" (f.flags.map Flag.line ++ [helpFlag])

def helpAbout : String := "Print this message or the help of the given subcommand(s)"

/-- The help on the program. -/
def programHelp : String :=
  helpHead "HTML 视图模板编译器" "<COMMAND>" ++
    helpPart "Commands" (Verb.all.map (fun v => (v.form.name, v.form.about)) ++ [("help", helpAbout)]) ++
    helpPart "Options" [helpFlag, ("-V, --version", "Print version")]

/-- The help on asking for help. -/
def helpHelp : String :=
  helpHead helpAbout "help [COMMAND]..." ++
    helpPart "Arguments" [("[COMMAND]...", "Print help for the subcommand(s)")]

end HtmlTemplate.CommandLine
