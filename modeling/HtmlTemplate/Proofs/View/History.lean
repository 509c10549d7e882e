import HtmlTemplate.View
import HtmlTemplate.Proofs.Disk.Growth

/-! # The history of a view

A view is used over and over, while its disk also changes from outside. Whatever a view does to its disk and to
what it remembers, it does by calls of `compile`: the operations that look templates up and that compile all of
them do nothing beside such calls (`leads_callsOf`). So what every call keeps, a history keeps
(`Leads.along`), and what a call can do is said once, in `Compiled`.
-/

namespace HtmlTemplate

namespace Workspace

/-! ## One call -/

/-- The target of a template whose source was not compiled before. -/
abbrev newTarget (w : Workspace) (dir : Path) (name : String) : Path :=
  w.view.compiledPath dir name

/-- The workspace after a source was compiled and its target written. -/
def remember (w : Workspace) (source target : Path) (disk : Disk) : Workspace :=
  ⟨{ w.view with targets := (source, target) :: w.view.targets }, disk⟩

/-- What compiling a template can come to. -/
inductive Compiled (w : Workspace) (dir : Path) (name : String) : Except ViewError Path × Workspace → Prop
  | remembered {target : Path} (hmemo : w.view.target? (dir.join name) = some target) :
    Compiled w dir name (.ok target, w)
  | unread {e : DiskError} (hmemo : w.view.target? (dir.join name) = none)
      (hread : w.disk.read (dir.join name) = .error e) :
    Compiled w dir name (.error (.disk (dir.join name) e), w)
  | refused {text : String} {e : TemplateError} (hmemo : w.view.target? (dir.join name) = none)
      (hread : w.disk.read (dir.join name) = .ok text) (hcompile : w.view.compiler.compile text = .error e) :
    Compiled w dir name (.error (.template e), w)
  | unwritten {text output : String} {e : ViewError} {disk : Disk}
      (hmemo : w.view.target? (dir.join name) = none) (hread : w.disk.read (dir.join name) = .ok text)
      (hcompile : w.view.compiler.compile text = .ok output)
      (hwrite : writeTarget w.disk (w.newTarget dir name) output = (some e, disk)) :
    Compiled w dir name (.error e, { w with disk })
  | written {text output : String} {disk : Disk}
      (hmemo : w.view.target? (dir.join name) = none) (hread : w.disk.read (dir.join name) = .ok text)
      (hcompile : w.view.compiler.compile text = .ok output)
      (hwrite : writeTarget w.disk (w.newTarget dir name) output = (none, disk)) :
    Compiled w dir name (.ok (w.newTarget dir name), w.remember (dir.join name) (w.newTarget dir name) disk)

theorem compiled (w : Workspace) (dir : Path) (name : String) : Compiled w dir name (w.compile dir name) := by
  unfold compile
  split
  · rename_i hmemo
    exact .remembered hmemo
  · rename_i hmemo
    split
    · rename_i hread
      exact .unread hmemo hread
    · rename_i text hread
      cases hcompile : w.view.compiler.compile text with
      | error e => exact .refused hmemo hread hcompile
      | ok output =>
        rw [store]
        split
        · rename_i hwrite
          exact .unwritten hmemo hread hcompile hwrite
        · rename_i hwrite
          exact .written hmemo hread hcompile hwrite

/-- A source that was compiled before is left alone, whatever is on the disk. -/
theorem compile_remembered {w : Workspace} {dir target : Path} {name : String}
    (h : w.view.target? (dir.join name) = some target) : w.compile dir name = (.ok target, w) := by
  rw [compile, h]

/-- The paths above the target, whose directories are made if they are missing. -/
def directoriesOf (target : Path) : List Path :=
  target.parent?.elim [] Path.withAncestors

theorem writeOutput_cases (d : Disk) (target : Path) (output : String) :
    (∃ written, d.write target output = .ok written ∧ writeOutput d target output = (none, written)) ∨
      ∃ e, writeOutput d target output = (some (.disk target e), d) := by
  unfold writeOutput
  cases d.write target output with
  | ok written => exact Or.inl ⟨written, rfl, rfl⟩
  | error e => exact Or.inr ⟨e, rfl⟩

/-- Directories are made above a target, and then it is written, or one of the two fails for what is on the disk. -/
theorem writeTarget_cases (d : Disk) (target : Path) (output : String) :
    ∃ laid, Disk.Laid (directoriesOf target) d laid ∧
      ((∃ written, laid.write target output = .ok written ∧ writeTarget d target output = (none, written)) ∨
        ∃ p e, writeTarget d target output = (some (.disk p e), laid)) := by
  unfold writeTarget directoriesOf
  cases target.parent? with
  | none => exact ⟨d, Disk.Laid.refl _ d, (writeOutput_cases d target output).imp id fun h => ⟨target, h⟩⟩
  | some parent =>
    have hlaid := Disk.laid_ensureFrom d parent.withAncestors
    refine ⟨_, hlaid, ?_⟩
    rw [← Disk.ensureDirectories]
    dsimp only
    rcases d.ensureDirectories parent with ⟨_ | e, laid⟩
    · exact (writeOutput_cases laid target output).imp id fun h => ⟨target, h⟩
    · exact Or.inr ⟨parent, e, rfl⟩

/-- A target that was written is where its path leads, there are new directories at most above it, and nothing else
has changed. -/
theorem writeTarget_eq_none {d disk : Disk} {target : Path} {output : String}
    (h : writeTarget d target output = (none, disk)) :
    ∃ place, disk.resolve target = .ok place ∧ disk.entry? place = some (.file (.text output)) ∧
      ∀ q, q ≠ place → disk.entry? q = d.entry? q ∨ d.entry? q = none ∧ disk.entry? q = some .directory ∧
        ∃ p ∈ directoriesOf target, disk.resolve p = .ok q := by
  obtain ⟨laid, hlaid, ⟨written, hwrite, hok⟩ | ⟨p, e, herror⟩⟩ := writeTarget_cases d target output
  · cases hok.symm.trans h
    obtain ⟨hgrows, place, hresolve, hentry, hsame⟩ := Disk.write_eq_ok hwrite
    refine ⟨place, hresolve, hentry, fun q hq => ?_⟩
    rw [hsame q hq]
    rcases hlaid.entry q with hold | ⟨hnone, hdir, p, hp, hlead⟩
    · exact Or.inl hold
    · exact Or.inr ⟨hnone, hdir, p, hp, hgrows.resolve hlead⟩
  · cases herror.symm.trans h

/-- Writing a target loses nothing on the disk, also if it fails. -/
theorem grows_writeTarget (d : Disk) (target : Path) (output : String) :
    Disk.Grows d (writeTarget d target output).2 := by
  obtain ⟨laid, hlaid, ⟨written, hwrite, hok⟩ | ⟨p, e, herror⟩⟩ := writeTarget_cases d target output
  · rw [hok]
    exact hlaid.grows.trans (Disk.write_eq_ok hwrite).1
  · rw [herror]
    exact hlaid.grows

/-- Writing fails only for what is on the disk. -/
theorem writeTarget_error {d disk : Disk} {target : Path} {output : String} {e : ViewError}
    (h : writeTarget d target output = (some e, disk)) : ∃ p cause, e = .disk p cause := by
  obtain ⟨laid, hlaid, ⟨written, hwrite, hok⟩ | ⟨p, cause, herror⟩⟩ := writeTarget_cases d target output
  · cases hok.symm.trans h
  · cases herror.symm.trans h
    exact ⟨p, cause, rfl⟩

end Workspace

/-- A call to compile a template, with the workspace in which it is made. -/
structure Compilation where
  before : Workspace
  dir : Path
  name : String

namespace Compilation

def source (c : Compilation) : Path := c.dir.join c.name

def result (c : Compilation) : Except ViewError Path := (c.before.compile c.dir c.name).1

/-- The workspace that the call leaves behind. -/
def after (c : Compilation) : Workspace := (c.before.compile c.dir c.name).2

/-- Whether the call compiles its source and writes the target. -/
def writes (c : Compilation) : Bool := (c.before.view.target? c.source).isNone && c.result.isOk

/-- The call answers from memory: it gives `target` whatever is on the disk, and changes nothing. -/
def Recalls (c : Compilation) (target : Path) : Prop :=
  c.writes = false ∧
    ∀ disk, { c.before with disk }.compile c.dir c.name = (.ok target, { c.before with disk })

end Compilation

/-! ## The calls that an operation makes -/

namespace Workspace

def namesCalls (w : Workspace) (dir : Path) : List String → List Compilation
  | [] => []
  | name :: names =>
    ⟨w, dir, name⟩ :: match w.compile dir name with
      | (.error _, _) => []
      | (.ok _, w) => w.namesCalls dir names

def dirsCalls (w : Workspace) : List TemplateDir → List Compilation
  | [] => []
  | d :: ds =>
    w.namesCalls d.path (w.sources d.path) ++ match w.compileNames d.path (w.sources d.path) with
      | (.error _, _) => []
      | (.ok _, w) => w.dirsCalls ds

def findCalls (w : Workspace) (name : String) : List TemplateDir → List Compilation
  | [] => []
  | d :: ds =>
    (if w.hasSource d.path name then [⟨w, d.path, name⟩] else []) ++ match w.findIn d.path name with
      | (some _, _) => []
      | (none, w) => w.findCalls name ds

end Workspace

/-- What happens to a view in use: calls of its operations, and changes of its disk from outside, which may leave any
disk at all. -/
inductive Event where
  | addDir (path : Path) (priority : Int)
  | compile (dir : Path) (name : String)
  | find (name : String)
  | compileAll
  | outside (disk : Disk)

namespace Workspace

def step (w : Workspace) : Event → Workspace
  | .addDir path priority => { w with view := w.view.addDir path priority }
  | .compile dir name => (w.compile dir name).2
  | .find name => (w.find name).2
  | .compileAll => w.compileAll.2
  | .outside disk => { w with disk }

/-- The workspace after a history. -/
def live (w : Workspace) (history : List Event) : Workspace :=
  history.foldl step w

/-- The calls to compile a template that an event makes, in order. -/
def callsOf (w : Workspace) : Event → List Compilation
  | .compile dir name => [⟨w, dir, name⟩]
  | .find name => if (Path.mk name).isAbsolute then [] else w.findCalls name w.view.dirs
  | .compileAll => w.dirsCalls w.view.dirs
  | .addDir _ _ | .outside _ => []

/-- The calls to compile a template in a history, in order. -/
def calls (w : Workspace) : List Event → List Compilation
  | [] => []
  | e :: es => w.callsOf e ++ (w.step e).calls es

/-! ## Operations are made of calls -/

/-- The calls are made one after the other, the first in `w`, and the last leaves `w'` behind. -/
def Leads : Workspace → List Compilation → Workspace → Prop
  | w, [], w' => w' = w
  | w, c :: cs, w' => c.before = w ∧ Leads c.after cs w'

theorem Leads.single (w : Workspace) (dir : Path) (name : String) :
    Leads w [⟨w, dir, name⟩] (w.compile dir name).2 :=
  ⟨rfl, rfl⟩

theorem Leads.append {w w' w'' : Workspace} {cs cs' : List Compilation} (h : Leads w cs w') (h' : Leads w' cs' w'') :
    Leads w (cs ++ cs') w'' := by
  induction cs generalizing w with
  | nil =>
    cases h
    exact h'
  | cons c cs ih => exact ⟨h.1, ih h.2⟩

theorem leads_namesCalls (w : Workspace) (dir : Path) (names : List String) :
    Leads w (w.namesCalls dir names) (w.compileNames dir names).2 := by
  induction names generalizing w with
  | nil => rfl
  | cons name names ih =>
    rw [namesCalls, compileNames]
    refine ⟨rfl, ?_⟩
    rw [Compilation.after]
    split
    · rename_i h
      rw [h]
      rfl
    · rename_i w' h
      rw [h]
      exact ih w'

theorem leads_dirsCalls (w : Workspace) (ds : List TemplateDir) :
    Leads w (w.dirsCalls ds) (w.compileDirs ds).2 := by
  induction ds generalizing w with
  | nil => rfl
  | cons d ds ih =>
    have hnames := leads_namesCalls w d.path (w.sources d.path)
    rw [dirsCalls, compileDirs]
    refine hnames.append ?_
    split
    · rename_i h
      rw [h]
      rfl
    · rename_i w' h
      rw [h]
      exact ih w'

theorem leads_findIn (w : Workspace) (dir : Path) (name : String) :
    Leads w (if w.hasSource dir name then [⟨w, dir, name⟩] else []) (w.findIn dir name).2 := by
  unfold findIn
  split
  · have hsingle := Leads.single w dir name
    split
    · rename_i h
      rwa [h] at hsingle
    · rename_i h
      rwa [h] at hsingle
  · rfl

theorem leads_findCalls (w : Workspace) (name : String) (ds : List TemplateDir) :
    Leads w (w.findCalls name ds) (w.findAmong name ds).2 := by
  induction ds generalizing w with
  | nil => rfl
  | cons d ds ih =>
    have hin := leads_findIn w d.path name
    rw [findCalls, findAmong]
    refine hin.append ?_
    split
    · rename_i h
      rw [h]
      rfl
    · rename_i w' h
      rw [h]
      exact ih w'

/-- What happens to a view it does by its calls, or nothing is compiled: a directory is added, or the disk changes from
outside. -/
theorem leads_callsOf (w : Workspace) (e : Event) :
    Leads w (w.callsOf e) (w.step e) ∨
      w.callsOf e = [] ∧ (w.step e).view.targets = w.view.targets ∧
        ((w.step e).disk = w.disk ∨ ∃ disk, e = .outside disk) := by
  cases e with
  | addDir path priority => exact Or.inr ⟨rfl, rfl, Or.inl rfl⟩
  | outside disk => exact Or.inr ⟨rfl, rfl, Or.inr ⟨disk, rfl⟩⟩
  | compile dir name => exact Or.inl (Leads.single w dir name)
  | find name =>
    refine Or.inl ?_
    unfold callsOf step find
    dsimp only
    split
    · rfl
    · exact leads_findCalls w name w.view.dirs
  | compileAll => exact Or.inl (leads_dirsCalls w w.view.dirs)

/-- What a single call keeps, a chain of calls keeps, from the beginning to any call and from any call to the end. -/
theorem Leads.along {R : Workspace → Workspace → Prop} (hrefl : ∀ w, R w w)
    (htrans : ∀ {w w' w''}, R w w' → R w' w'' → R w w'') (hcall : ∀ c : Compilation, R c.before c.after)
    {w w' : Workspace} {cs : List Compilation} (h : Leads w cs w') :
    R w w' ∧ (∀ c ∈ cs, R w c.before ∧ R c.after w') ∧ cs.Pairwise fun c c' => R c.after c'.before := by
  induction cs generalizing w with
  | nil =>
    cases h
    exact ⟨hrefl _, List.forall_mem_nil _, List.Pairwise.nil⟩
  | cons c cs ih =>
    obtain ⟨rfl, h⟩ := h
    obtain ⟨hend, hcs, hpairs⟩ := ih h
    refine ⟨htrans (hcall c) hend, List.forall_mem_cons.2 ⟨⟨hrefl _, hend⟩, fun c' hc' => ?_⟩,
      List.pairwise_cons.2 ⟨fun c' hc' => (hcs c' hc').1, hpairs⟩⟩
    exact ⟨htrans (hcall c) (hcs c' hc').1, (hcs c' hc').2⟩

end Workspace

end HtmlTemplate
