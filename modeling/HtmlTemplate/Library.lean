import HtmlTemplate.Disk

/-! # Embedded templates

A library holds template sources by name, backslashes in a name counting as slashes. The first source
registered under a name stays: a name cannot be registered twice. Loading stops at the first source
that cannot be registered and keeps those before it.
-/

namespace HtmlTemplate

structure Library where
  sources : List (String × String)
  deriving DecidableEq, Repr

/-- Where a source comes from. -/
inductive Origin where
  | embedded
  | memory
  | file (path : Path)
  deriving DecidableEq, Repr

def Origin.label : Origin → String
  | embedded => "embedded"
  | memory => "memory"
  | file path => path.spelling

inductive LoadError where
  | duplicate (name : String) (origin : Origin)
  | notText (name : String)
  | unreadable (path : Path)
  deriving DecidableEq, Repr

def LoadError.message : LoadError → String
  | duplicate name origin => "发现重复的模板名: '" ++ name ++ "' (来源: " ++ origin.label ++ ")"
  | notText name => "模板内容不是有效的 UTF-8: " ++ name
  | unreadable path => "读取文件失败: " ++ path.spelling

/-- A text with its backslashes turned into slashes. -/
def slashed (name : String) : String :=
  String.ofList (name.toList.map fun c => if c = '\\' then '/' else c)

/-- The extension of template sources. -/
def sourceExtension : String := "html"

namespace Library

def empty : Library := ⟨[]⟩

/-- The source registered under a name. -/
def find? (l : Library) (name : String) : Option String :=
  l.sources.lookup name

/-- A source to be loaded. -/
structure Asset where
  name : String
  content : Content
  origin : Origin

/-- Registers a source under its name, unless the name is taken. -/
def register (l : Library) (name source : String) (origin : Origin) : Except LoadError Library :=
  match l.find? (slashed name) with
  | some _ => .error (.duplicate (slashed name) origin)
  | none => .ok ⟨l.sources ++ [(slashed name, source)]⟩

/-- Registers one asset. -/
def add (l : Library) (a : Asset) : Except LoadError Library :=
  match a.content, a.origin with
  | .text source, origin => l.register a.name source origin
  | .binary _, .file path => .error (.unreadable path)
  | .binary _, _ => .error (.notText a.name)

/-- Registers assets in order up to the first that fails. -/
def load (l : Library) : List Asset → Option LoadError × Library
  | [] => (none, l)
  | a :: as =>
    match l.add a with
    | .ok l => l.load as
    | .error e => (some e, l)

/-- Registers sources that are part of the program. -/
def loadEmbedded (l : Library) (assets : List (String × String)) : Option LoadError × Library :=
  l.load (assets.map fun a => ⟨a.1, .text a.2, .embedded⟩)

/-- Registers sources that are given by their bytes. -/
def loadMemory (l : Library) (assets : List (String × List UInt8)) : Option LoadError × Library :=
  l.load (assets.map fun a => ⟨a.1, Content.ofBytes a.2, .memory⟩)

/-- The template sources in a directory, named from there. -/
def assetsIn (d : Disk) (dir : Path) : List Asset :=
  match d.resolve dir with
  | .error _ => []
  | .ok place =>
    (d.below place).filterMap fun e =>
      match e.2 with
      | .directory => none
      | .file content =>
        let name := joinSlashes e.1
        if (Path.mk name).extension? = some sourceExtension then
          some ⟨name, content, .file (dir.join name)⟩
        else none

/-- Registers the template sources in a directory. -/
def loadFrom (l : Library) (d : Disk) (dir : Path) : Option LoadError × Library :=
  l.load (assetsIn d dir)

end Library

end HtmlTemplate
