import HtmlTemplate.Cache
import HtmlTemplate.Library
import HtmlTemplate.Options

/-! # Views

A view looks templates up in its directories, the directory of highest priority first. The source of
a template is compiled into the compiled directory, at most once in the life of a view; a template
may also be found ready, compiled before or written by hand.
-/

namespace HtmlTemplate

inductive ViewError where
  | template (cause : TemplateError)
  | disk (path : Path) (cause : DiskError)
  | config (cause : ConfigError)
  | notFound (name : String)
  deriving DecidableEq, Repr

def ViewError.message : ViewError → String
  | template cause => "Invalid template: " ++ cause.message
  | disk path cause => "I/O error on " ++ path.spelling ++ ": " ++ cause.message
  | config cause => "Configuration error: " ++ cause.message
  | notFound name => "Template not found: " ++ name

/-- The options of a configuration file. Relative template directories start from the file's
directory. -/
def Options.ofFile (d : Disk) (file : Path) : Except ViewError Options :=
  match d.read file with
  | .error e => .error (.disk file e)
  | .ok xml =>
    match Options.ofXml xml (file.parent?.getD ⟨""⟩) with
    | .error e => .error (.config e)
    | .ok options => .ok options

structure TemplateDir where
  path : Path
  priority : Int
  /-- Whether the init file of the directory has been asked for. -/
  started : Bool
  deriving DecidableEq, Repr

/-- Where a template was found. -/
structure Location where
  /-- The template directory; an absolute name has none. -/
  dir : Option Path
  priority : Int
  name : String
  file : Path
  compiled : Bool
  deriving DecidableEq, Repr

structure View where
  compiler : Compiler
  autoCompile : Bool
  compiledDir : String
  dirs : List TemplateDir
  /-- The sources compiled so far, with what they were compiled to. -/
  targets : List (Path × Path)
  cache : Cache

namespace View

/-- Puts a directory behind those of the same or a higher priority. -/
def insertDir (d : TemplateDir) : List TemplateDir → List TemplateDir
  | [] => [d]
  | e :: es => if e.priority < d.priority then d :: e :: es else e :: insertDir d es

/-- Adds a template directory, in place of one with the same path. -/
def addDir (v : View) (path : Path) (priority : Int) : View :=
  { v with dirs := insertDir ⟨path, priority, false⟩ (v.dirs.filter (!·.path.same path)) }

def ofOptions (d : Dialect) (o : Options) : View :=
  let bare : View :=
    ⟨Compiler.standard d o.lead, o.autoCompile, o.compiledDir, [], [], Cache.empty⟩
  o.dirs.foldl (fun v p => v.addDir p.1 p.2) bare

/-- The extension of compiled files. -/
def extension (v : View) : String :=
  v.compiler.dialect.extension

/-- Where the compiled file of a template goes. -/
def compiledPath (v : View) (dir : Path) (name : String) : Path :=
  (dir.join v.compiledDir).join (name ++ "." ++ v.extension)

/-- What a source has been compiled to. -/
def target? (v : View) (source : Path) : Option Path :=
  (v.targets.find? (·.1.same source)).map Prod.snd

/-- The text of an embedded template, compiled. -/
def compileEmbedded (v : View) (library : Library) (name : String) :
    Except ViewError String × View :=
  match library.find? name with
  | none => (.error (.notFound name), v)
  | some source =>
    let r := v.cache.compile v.compiler name source
    (r.1.mapError .template, { v with cache := r.2 })

end View

/-- A view and the disk it works on. -/
structure Workspace where
  view : View
  disk : Disk

namespace Workspace

/-- The init file of a template directory, the first time it is asked for. -/
def initFile (w : Workspace) (dir : Path) : Option Path × Workspace :=
  match w.view.dirs.find? (·.path.same dir) with
  | none => (none, w)
  | some d =>
    if d.started then (none, w)
    else
      let dirs := w.view.dirs.map fun d => if d.path.same dir then { d with started := true } else d
      let file := dir.join ("init." ++ w.view.extension)
      (if w.disk.isFile file then some file else none, { w with view := { w.view with dirs } })

/-! ## Compiling -/

/-- Writes a compiled file into a directory. -/
def writeOutput (d : Disk) (target : Path) (output : String) : Option ViewError × Disk :=
  match d.write target output with
  | .ok written => (none, written)
  | .error e => (some (.disk target e), d)

/-- Writes a compiled file, with the directories above it. -/
def writeTarget (d : Disk) (target : Path) (output : String) : Option ViewError × Disk :=
  match target.parent? with
  | none => writeOutput d target output
  | some parent =>
    match d.ensureDirectories parent with
    | (none, d) => writeOutput d target output
    | (some e, d) => (some (.disk parent e), d)

/-- What comes of a source that was read: what it compiles to is written to its target, which is
remembered. -/
def store (w : Workspace) (source target : Path) :
    Except TemplateError String → Except ViewError Path × Workspace
  | .error e => (.error (.template e), w)
  | .ok output =>
    match writeTarget w.disk target output with
    | (some e, disk) => (.error e, { w with disk })
    | (none, disk) =>
      (.ok target, ⟨{ w.view with targets := (source, target) :: w.view.targets }, disk⟩)

/-- Compiles a template and writes the result. A source that has been compiled before is left
alone. -/
def compile (w : Workspace) (dir : Path) (name : String) : Except ViewError Path × Workspace :=
  match w.view.target? (dir.join name) with
  | some target => (.ok target, w)
  | none =>
    match w.disk.read (dir.join name) with
    | .error e => (.error (.disk (dir.join name) e), w)
    | .ok text =>
      w.store (dir.join name) (w.view.compiledPath dir name) (w.view.compiler.compile text)

/-- The names of the template sources in a directory, in the order of their names, without those in
the compiled directory. -/
def sources (w : Workspace) (dir : Path) : List String :=
  let skipped := (dir.join w.view.compiledDir).components
  let isSkipped (names : Place) : Bool :=
    skipped.length ≥ dir.components.length && skipped.isPrefixOf (dir.components ++ names)
  match w.disk.get dir, w.disk.resolve dir with
  | .ok .directory, .ok place =>
    (w.disk.below place).filterMap fun e =>
      match e.2 with
      | .directory => none
      | .file _ =>
        let name := joinSlashes e.1
        if (Path.mk name).extension? = some sourceExtension && !isSkipped e.1 then
          some (slashed name)
        else none
  | .ok (.file _), _ =>
    if dir.extension? = some sourceExtension && !isSkipped [] then [""] else []
  | _, _ => []

/-- Compiles templates of one directory in order, up to the first that fails. -/
def compileNames (w : Workspace) (dir : Path) : List String → Except ViewError (List Path) × Workspace
  | [] => (.ok [], w)
  | name :: names =>
    match w.compile dir name with
    | (.error e, w) => (.error e, w)
    | (.ok target, w) =>
      let r := w.compileNames dir names
      (r.1.map (target :: ·), r.2)

/-- Compiles the templates of directories in order, up to the first that fails. -/
def compileDirs (w : Workspace) : List TemplateDir → Except ViewError (List Path) × Workspace
  | [] => (.ok [], w)
  | d :: ds =>
    match w.compileNames d.path (w.sources d.path) with
    | (.error e, w) => (.error e, w)
    | (.ok targets, w) =>
      let r := w.compileDirs ds
      (r.1.map (targets ++ ·), r.2)

/-- Compiles all templates of the view. -/
def compileAll (w : Workspace) : Except ViewError (List Path) × Workspace :=
  w.compileDirs w.view.dirs

/-! ## Finding -/

/-- Whether looking up `name` in `dir` compiles a source. -/
def hasSource (w : Workspace) (dir : Path) (name : String) : Bool :=
  let source := dir.join name
  w.view.autoCompile && w.disk.isFile source && source.extension? = some sourceExtension

/-- The files that may hold a template ready to run, and whether they were compiled. -/
def candidates (v : View) (dir : Path) (name : String) : List (Path × Bool) :=
  [(v.compiledPath dir name, true),
    (dir.join (name ++ "." ++ v.extension), false),
    (dir.join ("_" ++ name ++ "." ++ v.extension), false)]

/-- The first file that holds a template ready to run. -/
def findReady (w : Workspace) (dir : Path) (name : String) : Option (Path × Bool) :=
  (candidates w.view dir name).find? fun c => w.disk.isFile c.1

/-- Looks a template up in one directory: its source is compiled if there is one, and if it cannot
be, the template may still be found ready. -/
def findIn (w : Workspace) (dir : Path) (name : String) : Option (Path × Bool) × Workspace :=
  if w.hasSource dir name then
    match w.compile dir name with
    | (.ok file, w) => (some (file, true), w)
    | (.error _, w) => (w.findReady dir name, w)
  else (w.findReady dir name, w)

/-- Looks a template up in directories in order. -/
def findAmong (w : Workspace) (name : String) : List TemplateDir → Option Location × Workspace
  | [] => (none, w)
  | d :: ds =>
    match w.findIn d.path name with
    | (some (file, compiled), w) => (some ⟨some d.path, d.priority, name, file, compiled⟩, w)
    | (none, w) => w.findAmong name ds

/-- Looks a template up. An absolute name stands for itself. -/
def find (w : Workspace) (name : String) : Option Location × Workspace :=
  if (Path.mk name).isAbsolute then (some ⟨none, 0, name, ⟨name⟩, false⟩, w)
  else w.findAmong name w.view.dirs

/-- The name of the layout in a directory. -/
def layoutIn (extension : String) (dir : Path) : String :=
  if dir.spelling = "" then "layout." ++ extension
  else dir.spelling ++ "/layout." ++ extension

/-- The first of some names under which there is a template. -/
def findFirst (w : Workspace) : List String → Option String × Workspace
  | [] => (none, w)
  | name :: names =>
    match w.find name with
    | (some _, w) => (some name, w)
    | (none, w) => w.findFirst names

/-- The layout of a template: the file `layout` of the same extension in the template's directory or
the nearest one above it. -/
def findLayout (w : Workspace) (name : String) : Option String × Workspace :=
  let template : Path := ⟨name⟩
  if template.isAbsolute then (none, w)
  else match template.extension? with
    | none => (none, w)
    | some extension => w.findFirst (template.withAncestors.tail.map (layoutIn extension))

end Workspace

end HtmlTemplate
