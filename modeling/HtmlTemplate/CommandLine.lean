import HtmlTemplate.CommandLine.Request
import HtmlTemplate.Dialect.Php
import HtmlTemplate.View

/-! # Running commands

One command compiles the templates of directories, another prints one template compiled. A command is
run on a disk and leaves a disk behind.
-/

namespace HtmlTemplate.CommandLine

/-- What a command failed at, with the causes, the nearest first. -/
structure Failure where
  context : String
  causes : List String
  deriving DecidableEq, Repr

/-- The causes behind an error of a view. -/
def causesOf : ViewError → List String
  | .disk path cause => [(ViewError.disk path cause).message, cause.message]
  | e => [e.message]

/-- Lines after the first begin with `margin`. -/
def hang (margin text : String) : String :=
  String.ofList (text.toList.flatMap fun c => if c = '\n' then c :: margin.toList else [c])

/-- Causes with their numbers, from `n` on. -/
def numbered (n : Nat) : List String → List String
  | [] => []
  | cause :: causes =>
    ("    " ++ Nat.repr n ++ ": " ++ hang "       " cause ++ "\n") :: numbered (n + 1) causes

/-- How a failure is reported. A single cause has no number. -/
def Failure.report (f : Failure) : String :=
  let causes := match f.causes with
    | [cause] => ["    " ++ hang "    " cause ++ "\n"]
    | causes => numbered 0 causes
  "Error: " ++ f.context ++ "\n\nCaused by:\n" ++ String.join causes

/-- What a command prints, or what it failed at, and the disk it leaves. -/
structure Outcome where
  result : Except Failure String
  disk : Disk

/-- The options of a compile command. -/
def compileOptions (disk : Disk) (dirs : List Path) (lead : Option String) (config : Option Path) :
    Except Failure Options :=
  let base : Except Failure Options := match config with
    | none => .ok {}
    | some file =>
      (Options.ofFile disk file).mapError fun e => ⟨"加载配置失败: " ++ file.spelling, causesOf e⟩
  base.map fun o =>
    { o with lead := lead.getD o.lead, dirs := o.dirs ++ dirs.map fun d => (d, 0) }

def run (disk : Disk) : Command → Outcome
  | .compile dirs lead config =>
    match compileOptions disk dirs lead config with
    | .error f => ⟨.error f, disk⟩
    | .ok options =>
      let r := Workspace.compileAll ⟨View.ofOptions Dialect.php options, disk⟩
      match r.1 with
      | .ok _ => ⟨.ok "", r.2.disk⟩
      | .error e => ⟨.error ⟨"模板编译失败", causesOf e⟩, r.2.disk⟩
  | .check file lead =>
    match disk.read file with
    | .error e => ⟨.error ⟨"读取文件失败: " ++ file.spelling, [e.message]⟩, disk⟩
    | .ok source =>
      let compiler := Compiler.standard Dialect.php (lead.getD Registry.standardLead)
      match compiler.compile source with
      | .ok output => ⟨.ok (output ++ "\n"), disk⟩
      | .error e =>
        ⟨.error ⟨"模板编译失败: " ++ file.spelling, causesOf (.template e)⟩, disk⟩

end HtmlTemplate.CommandLine
