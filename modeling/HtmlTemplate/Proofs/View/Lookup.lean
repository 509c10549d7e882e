import HtmlTemplate.Proofs.Disk.Targets
import HtmlTemplate.Proofs.View.DirectoryOrder
import HtmlTemplate.Proofs.View.Location

/-! # Looking a template up twice

A disk refuses to write only where something is in the way, and then it is left as it was (`compile_cases`). So the
directories of a view are asked as things stand before the lookup, and the first that has the template settles where it
is found (`findAmong_eq`). What is then written stands below that directory. A directory whose path does not lead there
has what it had before (`Wrote.hit_eq_none`), and the same lookup finds the same again (`find_again`). A path may lead
there on its way to another place, and then it need not (`find_detour`).
-/

namespace HtmlTemplate

open HtmlTemplate.Path (isIdle Descends isPlain)
open HtmlTemplate.Disk (Rooted Downward downward_names HasRoom entry_of_enter put_entry_of_ne ne_of_isPrefix)

/-! ## Targets -/

namespace View

variable {v : View} {name : String}

/-- The names from a template directory down to the compiled file of a template. -/
def targetNames (v : View) (name : String) : List String :=
  (Path.mk v.compiledDir).names ++ (Path.mk (name ++ "." ++ v.extension)).names

/-- What the lookup of a name may rely on: the compiled directory is given relative to the template directories, neither
it nor the name has components that are dots, and the extension has no slash. -/
structure Plain (v : View) (name : String) : Prop where
  compiledDir : isPlain v.compiledDir = true
  extension : '/' ∉ v.extension.toList
  name : isPlain name = true

namespace Plain

theorem descends (h : v.Plain name) : Descends name :=
  Path.descends_of_isPlain h.name

theorem descends_compiledDir (h : v.Plain name) : Descends v.compiledDir :=
  Path.descends_of_isPlain h.compiledDir

theorem extended (h : v.Plain name) (hnamed : (Path.mk name).isNamed = true) :
    Descends (name ++ "." ++ v.extension) ∧ (Path.mk (name ++ "." ++ v.extension)).isNamed = true :=
  h.descends.extended hnamed h.extension

theorem underscored (h : v.Plain name) (hnamed : (Path.mk name).isNamed = true) :
    Descends ("_" ++ name ++ "." ++ v.extension) := by
  have hlong : "_" ++ name ++ "." ++ v.extension = "_" ++ (name ++ "." ++ v.extension) := by
    simp only [String.append_assoc]
  rw [hlong]
  exact (h.extended hnamed).1.underscore

theorem downward (h : v.Plain name) (hnamed : (Path.mk name).isNamed = true) :
    Downward (v.targetNames name) :=
  List.forall_mem_append.2 ⟨downward_names h.descends_compiledDir, downward_names (h.extended hnamed).1⟩

theorem names_compiledPath (h : v.Plain name) (hnamed : (Path.mk name).isNamed = true) (dir : Path) :
    (v.compiledPath dir name).names = dir.names ++ v.targetNames name := by
  rw [compiledPath, Path.names_join _ (h.extended hnamed).1.1, Path.names_join _ h.descends_compiledDir.1,
    List.append_assoc]
  rfl

theorem isAbsolute_compiledPath (h : v.Plain name) (hnamed : (Path.mk name).isNamed = true) (dir : Path) :
    (v.compiledPath dir name).isAbsolute = dir.isAbsolute := by
  rw [compiledPath, Path.isAbsolute_join_of_descends _ (h.extended hnamed).1,
    Path.isAbsolute_join_of_descends _ h.descends_compiledDir]

theorem isNamed_compiledPath (h : v.Plain name) (hnamed : (Path.mk name).isNamed = true) (dir : Path) :
    (v.compiledPath dir name).isNamed = true := by
  rw [compiledPath, Path.isNamed_join]
  exact (h.extended hnamed).2

theorem exists_targetNames (h : v.Plain name) (hnamed : (Path.mk name).isNamed = true) :
    ∃ dirs file, v.targetNames name = dirs ++ [file] := by
  obtain ⟨r, file, hr, hidle⟩ := Path.exists_last_of_isNamed (h.extended hnamed).2
  refine ⟨(Path.mk v.compiledDir).names ++ r.filter (!isIdle ·), file, ?_⟩
  rw [targetNames, Path.names, Path.names, hr, List.filter_append, List.filter_cons_of_pos (by simp [hidle]),
    List.filter_nil, List.append_assoc]

end Plain

end View

namespace Workspace

section Target

variable {d : Disk} {q : Place} {target : Path} {l names : List String} {file : String}

theorem exists_parent_below (henter : d.enter (d.start target) l = .ok q)
    (htarget : target.names = l ++ (names ++ [file])) :
    ∃ parent, target.parent? = some parent ∧ d.enter (d.start parent) l = .ok q ∧ parent.names = l ++ names ∧
      (names ≠ [] → parent.isNamed = true) ∧ names.length ≤ parent.spelling.length := by
  obtain ⟨parent, hparent, hnames, habs, hnamed⟩ :=
    Path.exists_parent? (p := target) (l := l ++ names) (by rw [htarget, List.append_assoc])
  have hstart : d.start parent = d.start target := by rw [Disk.start, Disk.start, habs]
  have hlength := parent.length_names_le
  rw [hnames, List.length_append] at hlength
  exact ⟨parent, hparent, hstart ▸ henter, hnames, fun hne => hnamed (by simp [hne]), by omega⟩

/-- Behind a file nothing is written, and no directories are made. -/
theorem writeTarget_of_file (hd : d.Rooted) (henter : d.enter (d.start target) l = .ok q)
    (htarget : target.names = l ++ (names ++ [file])) (hnames : Downward (names ++ [file])) {r : List String}
    {c : Content} (hr : r <+: names) (hfile : d.entry? (q ++ r) = some (.file c)) (output : String) :
    ∃ e, writeTarget d target output = (some e, d) := by
  obtain ⟨parent, hparent, henter', hnames', hnamed', -⟩ := exists_parent_below henter htarget
  obtain ⟨e, he⟩ := Disk.ensureFrom_climb_of_file hd (Disk.downward_concat.1 hnames).1 henter' hnames' hnamed'
    parent.spelling.length hr hfile
  refine ⟨.disk parent e, ?_⟩
  rw [writeTarget, hparent]
  dsimp only
  rw [Disk.ensureDirectories, Path.withAncestors, he]

/-- If there is no file on the way, the directories above a target are made and it is written, unless it is one. -/
theorem exists_paved_writeTarget (hd : d.Rooted) (henter : d.enter (d.start target) l = .ok q)
    (htarget : target.names = l ++ (names ++ [file])) (hnamed : target.isNamed = true)
    (hnames : Downward (names ++ [file])) (hway : ∀ r c, r <+: names → d.entry? (q ++ r) ≠ some (.file c))
    (output : String) :
    ∃ laid, Disk.Paved q names d laid ∧ (d.entry? (q ++ names) = some .directory → laid = d) ∧
      writeTarget d target output =
        if d.entry? (q ++ (names ++ [file])) = some .directory then (some (.disk target .isDirectory), laid)
        else (none, laid.put (q ++ (names ++ [file])) (.file (.text output))) := by
  obtain ⟨parent, hparent, henter', hnames', hnamed', hlevels⟩ := exists_parent_below henter htarget
  obtain ⟨laid, hlaid, hpaved, hsame⟩ :=
    Disk.ensureFrom_climb hd (Disk.downward_concat.1 hnames).1 henter' hnames' hnamed' hlevels hway
  refine ⟨laid, hpaved, hsame, ?_⟩
  have hentry : laid.entry? (q ++ (names ++ [file])) = d.entry? (q ++ (names ++ [file])) :=
    hpaved.kept _ fun r hr h => ne_of_isPrefix hr h.symm
  rw [writeTarget, hparent]
  dsimp only
  rw [Disk.ensureDirectories, Path.withAncestors, hlaid]
  dsimp only
  rw [writeOutput, Disk.write_below (hpaved.grows.enter henter) htarget hnamed hnames hpaved.made, hentry]
  split <;> rename_i hplace
  · split at hplace
    · cases hplace
    · rename_i hdir
      cases hplace
      rw [if_neg hdir]
  · split at hplace
    · rename_i hdir
      cases hplace
      rw [if_pos hdir]
    · cases hplace

/-- Where there is no room for a target, everything stays as it is. -/
theorem writeTarget_of_not_hasRoom (hd : d.Rooted) (henter : d.enter (d.start target) l = .ok q)
    (htarget : target.names = l ++ (names ++ [file])) (hnamed : target.isNamed = true)
    (hnames : Downward (names ++ [file])) (hroom : ¬ d.HasRoom q (names ++ [file])) (output : String) :
    ∃ e, writeTarget d target output = (some e, d) := by
  by_cases hway : ∀ r c, r <+: names → d.entry? (q ++ r) ≠ some (.file c)
  · obtain ⟨laid, -, hsame, hwrite⟩ := exists_paved_writeTarget hd henter htarget hnamed hnames hway output
    have hdir : d.entry? (q ++ (names ++ [file])) = some .directory := by
      refine Classical.byContradiction fun hdir => hroom ⟨fun r c hr hne => ?_, hdir⟩
      exact hway r c ((List.prefix_concat_iff.1 hr).resolve_left hne)
    rw [if_pos hdir, hsame (hd.directory (List.cons_ne_nil file []) hdir)] at hwrite
    exact ⟨_, hwrite⟩
  · simp only [not_forall, not_not] at hway
    obtain ⟨r, c, hr, hfile⟩ := hway
    exact writeTarget_of_file hd henter htarget hnames hr hfile output

/-- Where there is room, a target is written, and only what is below the directory changes. -/
theorem writeTarget_of_hasRoom (hd : d.Rooted) (henter : d.enter (d.start target) l = .ok q)
    (htarget : target.names = l ++ (names ++ [file])) (hnamed : target.isNamed = true)
    (hnames : Downward (names ++ [file])) (hroom : d.HasRoom q (names ++ [file])) (output : String) :
    ∃ disk, writeTarget d target output = (none, disk) ∧ disk.Rooted ∧
      ∀ x, (q <+: x → x = q) → disk.entry? x = d.entry? x := by
  have hway : ∀ r c, r <+: names → d.entry? (q ++ r) ≠ some (.file c) := by
    refine fun r c hr => hroom.way r c (hr.trans (List.prefix_append names [file])) ?_
    rintro rfl
    exact ne_of_isPrefix (q := q) hr rfl
  obtain ⟨laid, hpaved, -, hwrite⟩ := exists_paved_writeTarget hd henter htarget hnamed hnames hway output
  rw [if_neg hroom.place] at hwrite
  have hgrows := grows_writeTarget d target output
  rw [hwrite] at hgrows
  have hq : laid.entry? q = d.entry? q := by
    rw [entry_of_enter henter, ← List.append_nil q, hpaved.made [] List.nil_prefix]
  have hdir {r : List String} (hr : r <+: names) :
      Disk.entry? (laid.put (q ++ (names ++ [file])) (.file (.text output))) (q ++ r) = some .directory := by
    rw [put_entry_of_ne laid (ne_of_isPrefix hr), hpaved.made r hr]
  refine ⟨_, hwrite, hd.grow hgrows fun x s => ?_, fun x hx => ?_⟩
  · by_cases htarget : x ++ [s] = q ++ (names ++ [file])
    · rw [← List.append_assoc] at htarget
      obtain ⟨rfl, -⟩ := List.append_singleton_inj.1 htarget
      exact Or.inr (hdir (List.prefix_refl names))
    · rw [put_entry_of_ne laid htarget]
      by_cases hr : ∃ r, r <+: names ∧ x ++ [s] = q ++ r
      · obtain ⟨r, hr, hx⟩ := hr
        rcases List.eq_nil_or_concat r with rfl | ⟨r', s', rfl⟩
        · rw [List.append_nil] at hx
          exact Or.inl (hx ▸ hq)
        · rw [List.concat_eq_append, ← List.append_assoc] at hx
          obtain ⟨rfl, -⟩ := List.append_singleton_inj.1 hx
          rw [List.concat_eq_append] at hr
          exact Or.inr (hdir ((List.prefix_append r' [s']).trans hr))
      · exact Or.inl (hpaved.kept _ fun r hr' h => hr ⟨r, hr', h⟩)
  · have htarget : x ≠ q ++ (names ++ [file]) := by
      rintro rfl
      have hself := hx (List.prefix_append q _)
      simp at hself
    rw [put_entry_of_ne laid htarget]
    by_cases hself : x = q
    · exact hself ▸ hq
    · refine hpaved.kept x fun r hr h => hself (hx ?_)
      exact h ▸ List.prefix_append q r

end Target

/-! ## Compiling on a disk where everything stands in a directory -/

section Compile

variable {w : Workspace} {dir : Path} {name : String}

/-- A source can be compiled: it can be read, the compiler takes it, and there is room for its target. -/
def Compiles (w : Workspace) (dir : Path) (name : String) : Prop :=
  ∃ text output, w.disk.read (dir.join name) = .ok text ∧ w.view.compiler.compile text = .ok output ∧
    w.disk.HasRoom (w.disk.placeOf dir) (w.view.targetNames name)

/-- The disk after a source was compiled: it has grown, and only below the directory of the source. -/
structure Wrote (w : Workspace) (dir : Path) (name : String) (disk : Disk) : Prop where
  compiles : w.Compiles dir name
  grows : Disk.Grows w.disk disk
  rooted : disk.Rooted
  kept : ∀ x, (w.disk.placeOf dir <+: x → x = w.disk.placeOf dir) → disk.entry? x = w.disk.entry? x

/-- The workspace after a template was compiled. -/
abbrev afterwards (w : Workspace) (dir : Path) (name : String) (disk : Disk) : Workspace :=
  w.remember (dir.join name) (w.newTarget dir name) disk

theorem isNamed_of_read {text : String} (hread : w.disk.read (dir.join name) = .ok text) :
    (Path.mk name).isNamed = true :=
  Path.isNamed_join dir name ▸ Disk.isNamed_of_read hread

/-- The output of a source that was read is written if there is room for it, or else everything stays as it is. -/
theorem writeTarget_newTarget (hd : w.disk.Rooted) (hplain : w.view.Plain name) {text : String}
    (hread : w.disk.read (dir.join name) = .ok text) (output : String) :
    (w.disk.HasRoom (w.disk.placeOf dir) (w.view.targetNames name) ∧
      ∃ disk, writeTarget w.disk (w.newTarget dir name) output = (none, disk) ∧ disk.Rooted ∧
        ∀ x, (w.disk.placeOf dir <+: x → x = w.disk.placeOf dir) → disk.entry? x = w.disk.entry? x) ∨
      ¬ w.disk.HasRoom (w.disk.placeOf dir) (w.view.targetNames name) ∧
        ∃ e, writeTarget w.disk (w.newTarget dir name) output = (some e, w.disk) := by
  have hname := isNamed_of_read hread
  have hnames := hplain.names_compiledPath hname dir
  have hnamed := hplain.isNamed_compiledPath hname dir
  have hdownward := hplain.downward hname
  obtain ⟨dirs, file, htarget⟩ := hplain.exists_targetNames hname
  rw [htarget] at hnames hdownward ⊢
  have henter : w.disk.enter (w.disk.start (w.newTarget dir name)) dir.names = .ok (w.disk.placeOf dir) := by
    rw [Disk.start, hplain.isAbsolute_compiledPath hname, ← Disk.start]
    exact Disk.enter_of_isFile hplain.descends (Disk.isFile_of_read hread)
  by_cases hroom : w.disk.HasRoom (w.disk.placeOf dir) (dirs ++ [file])
  · exact Or.inl ⟨hroom, writeTarget_of_hasRoom hd henter hnames hnamed hdownward hroom output⟩
  · exact Or.inr ⟨hroom, writeTarget_of_not_hasRoom hd henter hnames hnamed hdownward hroom output⟩

/-- A source is known, or it can be compiled and its target is written, or nothing happens. -/
theorem compile_cases (hd : w.disk.Rooted) (hplain : w.view.Plain name) (dir : Path) :
    (∃ target, w.view.target? (dir.join name) = some target ∧ w.compile dir name = (.ok target, w)) ∨
      w.view.target? (dir.join name) = none ∧
        ((¬ w.Compiles dir name ∧ ∃ e, w.compile dir name = (.error e, w)) ∨
          ∃ disk, Wrote w dir name disk ∧
            w.compile dir name = (.ok (w.newTarget dir name), w.afterwards dir name disk)) := by
  have hcompiled := Workspace.compiled w dir name
  generalize w.compile dir name = r at hcompiled ⊢
  cases hcompiled with
  | remembered hmemo => exact Or.inl ⟨_, hmemo, rfl⟩
  | unread hmemo hread =>
    refine Or.inr ⟨hmemo, Or.inl ⟨?_, _, rfl⟩⟩
    rintro ⟨text, output, htext, -⟩
    cases hread.symm.trans htext
  | refused hmemo hread hcompile =>
    refine Or.inr ⟨hmemo, Or.inl ⟨?_, _, rfl⟩⟩
    rintro ⟨text, output, htext, houtput, -⟩
    cases hread.symm.trans htext
    cases hcompile.symm.trans houtput
  | @unwritten text output e disk hmemo hread hcompile hwrite =>
    rcases writeTarget_newTarget hd hplain hread output with ⟨-, disk', hdisk, -⟩ | ⟨hroom, e', he⟩
    · cases hdisk.symm.trans hwrite
    · cases he.symm.trans hwrite
      refine Or.inr ⟨hmemo, Or.inl ⟨?_, _, rfl⟩⟩
      rintro ⟨-, -, -, -, hroom'⟩
      exact hroom hroom'
  | @written text output disk hmemo hread hcompile hwrite =>
    rcases writeTarget_newTarget hd hplain hread output with ⟨hroom, disk', hdisk, hrooted, hkept⟩ | ⟨-, e, he⟩
    · cases hdisk.symm.trans hwrite
      have hgrows := grows_writeTarget w.disk (w.newTarget dir name) output
      rw [hwrite] at hgrows
      exact Or.inr ⟨hmemo, Or.inr ⟨disk, ⟨⟨text, output, hread, hcompile, hroom⟩, hgrows, hrooted, hkept⟩, rfl⟩⟩
    · cases he.symm.trans hwrite

end Compile

/-! ## What the directories have -/

section Hit

variable {w : Workspace} {dir : Path} {name : String}

/-- What a directory has under a name: what its source is compiled to, if there is one and it can be compiled, or else
the first file that is ready. -/
def hit (w : Workspace) (dir : Path) (name : String) : Option (Path × Bool) :=
  if w.hasSource dir name then
    match (w.compile dir name).1 with
    | .ok file => some (file, true)
    | .error _ => w.findReady dir name
  else w.findReady dir name

theorem hit_eq_none_iff (hd : w.disk.Rooted) (hplain : w.view.Plain name) :
    w.hit dir name = none ↔
      (w.hasSource dir name = true → w.view.target? (dir.join name) = none ∧ ¬ w.Compiles dir name) ∧
        ∀ c ∈ candidates w.view dir name, w.disk.isFile c.1 = false := by
  have hready : w.findReady dir name = none ↔ ∀ c ∈ candidates w.view dir name, w.disk.isFile c.1 = false := by
    rw [findReady, List.find?_eq_none]
    simp only [Bool.not_eq_true]
  rw [hit]
  split
  · rename_i hsource
    rcases compile_cases hd hplain dir with
      ⟨target, hmemo, hcompile⟩ | ⟨hmemo, ⟨hnot, e, hcompile⟩ | ⟨disk, hwrote, hcompile⟩⟩
    · simp [hcompile, hsource, hmemo]
    · simp only [hcompile, hready, hsource, hmemo, hnot, not_false_eq_true, and_self, implies_true, true_and]
    · simp [hcompile, hsource, hwrote.compiles]
  · rename_i hsource
    simp [hready, hsource]

/-- A lookup in one directory gives what the directory has. It changes nothing, or a source was compiled. -/
theorem findIn_eq (hd : w.disk.Rooted) (hplain : w.view.Plain name) (dir : Path) :
    w.findIn dir name = (w.hit dir name, w) ∨
      ∃ disk, Wrote w dir name disk ∧ w.hasSource dir name = true ∧
        w.hit dir name = some (w.newTarget dir name, true) ∧
        w.findIn dir name = (w.hit dir name, w.afterwards dir name disk) := by
  unfold findIn hit
  split
  · rename_i hsource
    rcases compile_cases hd hplain dir with ⟨target, -, hcompile⟩ | ⟨-, ⟨-, e, hcompile⟩ | ⟨disk, hwrote, hcompile⟩⟩
    · exact Or.inl (by rw [hcompile])
    · exact Or.inl (by rw [hcompile])
    · exact Or.inr ⟨disk, hwrote, hsource, by rw [hcompile], by rw [hcompile]⟩
  · exact Or.inl rfl

/-- The location of what a directory has. -/
def locate (d : TemplateDir) (name : String) (found : Path × Bool) : Location :=
  ⟨some d.path, d.priority, name, found.1, found.2⟩

/-- The location in the first of some directories that has the template. -/
def firstHit (w : Workspace) (name : String) (ds : List TemplateDir) : Option Location :=
  ds.findSome? fun d => (w.hit d.path name).map (locate d name)

theorem findAmong_cons (w : Workspace) (name : String) (d : TemplateDir) (ds : List TemplateDir) :
    w.findAmong name (d :: ds) =
      match (w.findIn d.path name).1 with
      | some found => (some (locate d name found), (w.findIn d.path name).2)
      | none => (w.findIn d.path name).2.findAmong name ds := by
  rw [findAmong]
  rcases w.findIn d.path name with ⟨_ | ⟨file, compiled⟩, w'⟩ <;> rfl

/-- A lookup finds the template in the first directory that has it before the lookup. It changes nothing, or a source in
that directory was compiled. -/
theorem findAmong_eq (hd : w.disk.Rooted) (hplain : w.view.Plain name) (ds : List TemplateDir) :
    w.findAmong name ds = (w.firstHit name ds, w) ∨
      ∃ before d after disk, ds = before ++ d :: after ∧ (∀ b ∈ before, w.hit b.path name = none) ∧
        Wrote w d.path name disk ∧ w.hasSource d.path name = true ∧
        w.hit d.path name = some (w.newTarget d.path name, true) ∧
        w.findAmong name ds = (w.firstHit name ds, w.afterwards d.path name disk) := by
  induction ds with
  | nil => exact Or.inl rfl
  | cons d ds ih =>
    rw [findAmong_cons, firstHit, List.findSome?_cons]
    rcases findIn_eq hd hplain d.path with hfind | ⟨disk, hwrote, hsource, hhit, hfind⟩
    · rw [hfind]
      cases hhit : w.hit d.path name with
      | some found => exact Or.inl rfl
      | none =>
        refine ih.imp_right ?_
        rintro ⟨before, d', after, disk, rfl, hbefore, hrest⟩
        exact ⟨d :: before, d', after, disk, rfl, List.forall_mem_cons.2 ⟨hhit, hbefore⟩, hrest⟩
    · refine Or.inr ⟨[], d, ds, disk, rfl, List.forall_mem_nil _, hwrote, hsource, hhit, ?_⟩
      rw [hfind, hhit]
      rfl

end Hit

/-! ## What the directories have afterwards -/

section Afterwards

variable {w : Workspace} {dir b : Path} {name : String} {disk : Disk}

theorem plain_afterwards (hplain : w.view.Plain name) : (w.afterwards dir name disk).view.Plain name :=
  ⟨hplain.compiledDir, hplain.extension, hplain.name⟩

theorem Wrote.isNamed (h : Wrote w dir name disk) : (Path.mk name).isNamed = true := by
  obtain ⟨text, output, hread, -⟩ := h.compiles
  exact isNamed_of_read hread

theorem candidate_below (hplain : w.view.Plain name) (hnamed : (Path.mk name).isNamed = true) {c : Path × Bool}
    (hc : c ∈ candidates w.view b name) :
    c.1.isAbsolute = b.isAbsolute ∧ ∃ names, c.1.names = b.names ++ names ∧ Downward names := by
  have hjoin {name : String} (hname : Descends name) :
      (b.join name).isAbsolute = b.isAbsolute ∧ ∃ names, (b.join name).names = b.names ++ names ∧ Downward names :=
    ⟨Path.isAbsolute_join_of_descends b hname, _, Path.names_join b hname.1, downward_names hname⟩
  simp only [candidates, List.mem_cons, List.not_mem_nil, or_false] at hc
  rcases hc with rfl | rfl | rfl
  · exact ⟨hplain.isAbsolute_compiledPath hnamed b, _, hplain.names_compiledPath hnamed b, hplain.downward hnamed⟩
  · exact hjoin (hplain.extended hnamed).1
  · exact hjoin (hplain.underscored hnamed)

theorem enter_of_candidate (hplain : w.view.Plain name) (hnamed : (Path.mk name).isNamed = true) {c : Path × Bool}
    (hc : c ∈ candidates w.view b name) {d : Disk} (h : d.isFile c.1 = true) :
    ∃ x, d.enter (d.start b) b.names = .ok x := by
  simp only [candidates, List.mem_cons, List.not_mem_nil, or_false] at hc
  rcases hc with rfl | rfl | rfl
  · exact Disk.enter_of_join hplain.descends_compiledDir (Disk.enter_of_isFile (hplain.extended hnamed).1 h)
  · exact ⟨_, Disk.enter_of_isFile (hplain.extended hnamed).1 h⟩
  · exact ⟨_, Disk.enter_of_isFile (hplain.underscored hnamed) h⟩

/-- A path that keeps apart from the directory of a template that was compiled leads where it led before. -/
theorem Wrote.enter_eq (h : Wrote w dir name disk) (hapart : w.disk.Apart b dir) :
    disk.enter (disk.start b) b.names = w.disk.enter (w.disk.start b) b.names := by
  rw [Path.names, Disk.enter_filter, Disk.enter_filter, Disk.start, h.grows.home, ← Disk.start]
  exact Disk.enter_congr fun x hx => h.kept x (hapart.1 x hx)

/-- Below the place of a directory that keeps apart, and is not the one of the template that was compiled, there is
what was there before. -/
theorem Wrote.entry_below (h : Wrote w dir name disk) (hapart : w.disk.Apart b dir)
    (hne : w.disk.placeOf b ≠ w.disk.placeOf dir) (l : List String) :
    disk.entry? (w.disk.placeOf b ++ l) = w.disk.entry? (w.disk.placeOf b ++ l) := by
  refine h.kept _ fun hbelow => absurd ?_ hne
  rcases List.prefix_or_prefix_of_prefix hbelow (List.prefix_append _ l) with habove | habove
  · exact hapart.1 _ (w.disk.placeOf_mem_way b) habove
  · exact (hapart.2 _ (w.disk.placeOf_mem_way dir) habove).symm

theorem Wrote.get_below (h : Wrote w dir name disk) (hapart : w.disk.Apart b dir)
    (hne : w.disk.placeOf b ≠ w.disk.placeOf dir) {p : Path} (habs : p.isAbsolute = b.isAbsolute) {names : List String}
    (hp : p.names = b.names ++ names) (hnames : Downward names) : disk.get p = w.disk.get p := by
  refine Disk.get_congr h.grows.home fun x hx => ?_
  rcases Disk.mem_way_of_names habs hp hnames hx with hx | ⟨l, -, rfl⟩
  · exact h.kept x (hapart.1 x hx)
  · exact h.entry_below hapart hne l

theorem Wrote.get_source (h : Wrote w dir name disk) (hplain : w.view.Plain name) (hapart : w.disk.Apart b dir)
    (hne : w.disk.placeOf b ≠ w.disk.placeOf dir) : disk.get (b.join name) = w.disk.get (b.join name) :=
  h.get_below hapart hne (Path.isAbsolute_join_of_descends b hplain.descends) (Path.names_join b hplain.descends.1)
    (downward_names hplain.descends)

/-- What can be compiled in another directory could be compiled there before. -/
theorem Wrote.compiles_of_ne (h : Wrote w dir name disk) (hplain : w.view.Plain name) (hapart : w.disk.Apart b dir)
    (hne : w.disk.placeOf b ≠ w.disk.placeOf dir) (hb : (w.afterwards dir name disk).Compiles b name) :
    w.Compiles b name := by
  obtain ⟨text, output, hread, houtput, hroom⟩ := hb
  have hread' : w.disk.read (b.join name) = .ok text := by
    rw [Disk.read, ← h.get_source hplain hapart hne]
    exact hread
  have hplace : disk.placeOf b = w.disk.placeOf b := by rw [Disk.placeOf, Disk.start, h.grows.home]; rfl
  have hroom : disk.HasRoom (w.disk.placeOf b) (w.view.targetNames name) := hplace ▸ hroom
  refine ⟨text, output, hread', houtput, fun l c hl hl' => ?_, ?_⟩
  · rw [← h.entry_below hapart hne]
    exact hroom.way l c hl hl'
  · rw [← h.entry_below hapart hne]
    exact hroom.place

/-- The source in another directory is another one. -/
theorem same_join_of_ne (hplain : w.view.Plain name) (hne : w.disk.placeOf b ≠ w.disk.placeOf dir) :
    (dir.join name).same (b.join name) = false := by
  refine Bool.eq_false_iff.2 fun hsame => hne ?_
  have hplaces := Disk.placeOf_of_components (d := w.disk) (of_decide_eq_true hsame)
  rw [Disk.placeOf_join dir hplain.descends, Disk.placeOf_join b hplain.descends] at hplaces
  exact (List.append_cancel_right hplaces).symm

theorem Wrote.hit_of_ne (h : Wrote w dir name disk) (hd : w.disk.Rooted) (hplain : w.view.Plain name)
    (hapart : w.disk.Apart b dir) (hne : w.disk.placeOf b ≠ w.disk.placeOf dir) (hnone : w.hit b name = none) :
    (w.afterwards dir name disk).hit b name = none := by
  obtain ⟨hsource, hready⟩ := (hit_eq_none_iff hd hplain).1 hnone
  refine (hit_eq_none_iff (w := w.afterwards dir name disk) h.rooted (plain_afterwards hplain)).2
    ⟨fun hsource' => ?_, fun c hc => ?_⟩
  · have hsame : (w.afterwards dir name disk).hasSource b name = w.hasSource b name := by
      rw [hasSource, hasSource, Disk.isFile, Disk.isFile, ← h.get_source hplain hapart hne]
      rfl
    obtain ⟨hmemo, hcompiles⟩ := hsource (hsame ▸ hsource')
    have hmemo' := target?_remember_of_ne w (same_join_of_ne hplain hne) (w.newTarget dir name) disk
    exact ⟨hmemo'.trans hmemo, fun hb => hcompiles (h.compiles_of_ne hplain hapart hne hb)⟩
  · obtain ⟨habs, names, hnames, hdownward⟩ := candidate_below hplain h.isNamed hc
    have hsame : disk.isFile c.1 = w.disk.isFile c.1 := by
      rw [Disk.isFile, Disk.isFile, h.get_below hapart hne habs hnames hdownward]
    exact hsame.trans (hready c hc)

/-- By a path that leads to the same directory, what was compiled would have been found before. -/
theorem Wrote.enter_ne_ok (h : Wrote w dir name disk) (hd : w.disk.Rooted) (hplain : w.view.Plain name)
    (hsource : w.hasSource dir name = true) (hplace : w.disk.placeOf b = w.disk.placeOf dir)
    (hnone : w.hit b name = none) (x : Place) : w.disk.enter (w.disk.start b) b.names ≠ .ok x := by
  intro henter
  obtain rfl := Disk.eq_placeOf_of_enter henter
  obtain ⟨text, output, hread, houtput, hroom⟩ := h.compiles
  have hfile := Disk.isFile_of_read hread
  have hnamed := h.isNamed
  have hget : w.disk.get (b.join name) = w.disk.get (dir.join name) := by
    have hempty : name ≠ "" := Path.spelling_of_isNamed hnamed
    rw [Disk.get, Disk.get, Disk.resolve_join henter hplain.descends hempty, hplace,
      Disk.resolve_join (Disk.enter_of_isFile hplain.descends hfile) hplain.descends hempty]
  have hsource' : w.hasSource b name = true := by
    have hnames : (Path.mk name).names ≠ [] := by
      obtain ⟨l, last, hl, hidle⟩ := Path.exists_last_of_isNamed hnamed
      simp [Path.names, hl, hidle]
    rw [hasSource, Path.extension?_join _ hplain.name hnames, Disk.isFile] at hsource ⊢
    rwa [hget]
  refine (((hit_eq_none_iff hd hplain).1 hnone).1 hsource').2 ⟨text, output, ?_, houtput, hplace ▸ hroom⟩
  rw [Disk.read, hget]
  exact hread

/-- A directory that had nothing before has nothing afterwards. -/
theorem Wrote.hit_eq_none (h : Wrote w dir name disk) (hd : w.disk.Rooted) (hplain : w.view.Plain name)
    (hsource : w.hasSource dir name = true) (hapart : w.disk.Apart b dir) (hnone : w.hit b name = none) :
    (w.afterwards dir name disk).hit b name = none := by
  by_cases hplace : w.disk.placeOf b = w.disk.placeOf dir
  · have hclosed (x : Place) : disk.enter (disk.start b) b.names ≠ .ok x := by
      rw [h.enter_eq hapart]
      exact h.enter_ne_ok hd hplain hsource hplace hnone x
    refine (hit_eq_none_iff (w := w.afterwards dir name disk) h.rooted (plain_afterwards hplain)).2
      ⟨fun hsource' => ?_, fun c hc => ?_⟩
    · have hfile : disk.isFile (b.join name) = true := by
        simp only [hasSource, Bool.and_eq_true] at hsource'
        exact hsource'.1.2
      exact absurd (Disk.enter_of_isFile hplain.descends hfile) (hclosed _)
    · refine Bool.eq_false_iff.2 fun hfile => ?_
      obtain ⟨x, hx⟩ := enter_of_candidate hplain h.isNamed hc hfile
      exact hclosed x hx
  · exact h.hit_of_ne hd hplain hapart hplace hnone

end Afterwards

/-! ## The same lookup again -/

section Again

variable {w : Workspace} {name : String} {disk : Disk} {d : TemplateDir} {before after : List TemplateDir}

/-- Directories that have nothing are passed over. -/
theorem findAmong_append (hd : w.disk.Rooted) (hplain : w.view.Plain name)
    (hbefore : ∀ b ∈ before, w.hit b.path name = none) (ds : List TemplateDir) :
    w.findAmong name (before ++ ds) = w.findAmong name ds := by
  induction before with
  | nil => rfl
  | cons b before ih =>
    obtain ⟨hb, hrest⟩ := List.forall_mem_cons.1 hbefore
    rcases findIn_eq hd hplain b.path with hfind | ⟨-, -, -, hhit, -⟩
    · rw [List.cons_append, findAmong_cons, hfind, hb]
      exact ih hrest
    · cases hb.symm.trans hhit

/-- A source that was compiled is found without another look at it. -/
theorem Wrote.findIn_self (h : Wrote w d.path name disk) (hsource : w.hasSource d.path name = true) :
    (w.afterwards d.path name disk).findIn d.path name =
      (some (w.newTarget d.path name, true), w.afterwards d.path name disk) := by
  have hsource' : (w.afterwards d.path name disk).hasSource d.path name = true := by
    simp only [hasSource, Bool.and_eq_true] at hsource ⊢
    exact ⟨⟨hsource.1.1, h.grows.isFile hsource.1.2⟩, hsource.2⟩
  rw [findIn, if_pos hsource', compile_remembered (target?_remember_self ..)]

theorem firstHit_eq_some {loc : Location} {ds : List TemplateDir} (h : w.firstHit name ds = some loc) :
    ∃ before d after, ds = before ++ d :: after ∧ (∀ b ∈ before, w.hit b.path name = none) ∧
      loc.priority = d.priority := by
  obtain ⟨before, d, after, rfl, hd, hbefore⟩ := List.findSome?_eq_some_iff.1 h
  obtain ⟨found, -, rfl⟩ := Option.map_eq_some_iff.1 hd
  exact ⟨before, d, after, rfl, fun b hb => Option.map_eq_none_iff.1 (hbefore b hb), rfl⟩

theorem firstHit_append (hbefore : ∀ b ∈ before, w.hit b.path name = none) {found : Path × Bool}
    (hd : w.hit d.path name = some found) : w.firstHit name (before ++ d :: after) = some (locate d name found) := by
  refine List.findSome?_eq_some_iff.2 ⟨before, d, after, rfl, by rw [hd]; rfl, fun b hb => ?_⟩
  rw [hbefore b hb]
  rfl

/-- A lookup among directories whose paths keep apart finds the same again. -/
theorem findAmong_again (hd : w.disk.Rooted) (hplain : w.view.Plain name) {ds : List TemplateDir}
    (hds : ds.Pairwise fun b d => w.disk.Apart b.path d.path) :
    (w.findAmong name ds).2.findAmong name ds = w.findAmong name ds := by
  rcases findAmong_eq hd hplain ds with
    hfind | ⟨before, d, after, disk, rfl, hbefore, hwrote, hsource, hhit, hfind⟩
  · rw [hfind, hfind]
  · have hapart (b : TemplateDir) (hb : b ∈ before) : w.disk.Apart b.path d.path :=
      (List.pairwise_append.1 hds).2.2 b hb d List.mem_cons_self
    have hbefore' (b : TemplateDir) (hb : b ∈ before) : (w.afterwards d.path name disk).hit b.path name = none :=
      hwrote.hit_eq_none hd hplain hsource (hapart b hb) (hbefore b hb)
    rw [hfind, findAmong_append hwrote.rooted (plain_afterwards hplain) hbefore', findAmong_cons,
      hwrote.findIn_self hsource, firstHit_append hbefore hhit]

/-- Whatever a view has been used for, a lookup finds a template in the first of its directories that has it, and no
directory of a higher priority has it. If the paths of the directories keep apart, the same lookup finds the same again
and changes nothing more. -/
theorem find_again (dialect : Dialect) (o : Options) (start : Disk) (history : List Event) (name : String)
    (hw : w = live ⟨View.ofOptions dialect o, start⟩ history) (hdisk : w.disk.Rooted) (hplain : w.view.Plain name) :
    (w.find name).1 = w.firstHit name w.view.dirs ∧
      (∀ loc, (w.find name).1 = some loc → ∀ b ∈ w.view.dirs, loc.priority < b.priority → w.hit b.path name = none) ∧
      ((w.view.dirs.Pairwise fun b d => w.disk.Apart b.path d.path) →
        (w.find name).2.find name = w.find name) := by
  have hfind (w : Workspace) : w.find name = w.findAmong name w.view.dirs := by
    rw [find, if_neg (by simp [hplain.descends.1])]
  have hfirst : (w.find name).1 = w.firstHit name w.view.dirs := by
    rw [hfind]
    rcases findAmong_eq hdisk hplain w.view.dirs with h | ⟨_, _, _, _, -, -, -, -, -, h⟩ <;> rw [h]
  refine ⟨hfirst, fun loc hloc b hb hlt => ?_, fun hdirs => ?_⟩
  · have hsorted : Descending TemplateDir.priority w.view.dirs := by
      rw [hw]
      exact (arranged_live (View.arranged_ofOptions dialect o) history).descending
    obtain ⟨before, d, after, hsplit, hbefore, hpriority⟩ := firstHit_eq_some (hfirst.symm.trans hloc)
    rw [hsplit] at hb hsorted
    rcases List.mem_append.1 hb with hb | hb
    · exact hbefore b hb
    · -- From the directory of the location on, no priority is higher.
      have hle : b.priority ≤ d.priority := by
        rcases List.mem_cons.1 hb with rfl | hb
        · exact Int.le_refl _
        · exact (List.pairwise_cons.1 (List.pairwise_append.1 hsorted).2.1).1 b hb
      omega
  · have hdirs' : (w.find name).2.view.dirs = w.view.dirs := by
      rw [hfind]
      rcases findAmong_eq hdisk hplain w.view.dirs with h | ⟨_, _, _, _, -, -, -, -, -, h⟩ <;> rw [h]
      rfl
    rw [hfind, hdirs', hfind]
    exact findAmong_again hdisk hplain hdirs

/-- A template whose source in the first directory is broken is compiled in the second one, and found there again. -/
theorem find_again_fallback :
    let w : Workspace := ⟨View.ofOptions .php { dirs := [(⟨"/b"⟩, 1), (⟨"/a"⟩, 2)] },
      ⟨[(["a"], .directory), (["a", "page.html"], .file (.text "<p j:if>x</p>")),
        (["b"], .directory), (["b", "page.html"], .file (.text "<p>x</p>"))], []⟩⟩
    w.disk.Rooted ∧ w.view.Plain "page.html" ∧ (w.view.dirs.Pairwise fun b d => w.disk.Apart b.path d.path) ∧
      (w.find "page.html").1 = some ⟨some ⟨"/b"⟩, 1, "page.html", ⟨"/b/compiled/page.html.php"⟩, true⟩ ∧
      (w.find "page.html").2.find "page.html" = w.find "page.html" := by
  intro w
  have hdisk : w.disk.Rooted := Disk.rooted_of_all (by decide +kernel)
  have hplain : w.view.Plain "page.html" := ⟨by decide +kernel, by decide +kernel, by decide +kernel⟩
  have hdirs : w.view.dirs.Pairwise fun b d => w.disk.Apart b.path d.path := by
    have hsorted : w.view.dirs = [⟨⟨"/a"⟩, 2, false⟩, ⟨⟨"/b"⟩, 1, false⟩] := by decide +kernel
    rw [hsorted, List.pairwise_pair]
    exact Disk.apart_of_downward (by decide +kernel) (by decide +kernel) (by decide +kernel) (by decide +kernel)
  refine ⟨hdisk, hplain, hdirs, by decide +kernel, ?_⟩
  exact (find_again .php { dirs := [(⟨"/b"⟩, 1), (⟨"/a"⟩, 2)] } w.disk [] "page.html" rfl hdisk hplain).2.2 hdirs

/-- A path that leads through the compiled directory of another leads somewhere once that directory is made. The second
lookup finds another file than the first, though neither directory is in the other. -/
theorem find_detour :
    let w : Workspace := ⟨View.ofOptions .php { dirs := [(⟨"/t/compiled/../../u"⟩, 2), (⟨"/x/../t"⟩, 1)] },
      ⟨[(["t"], .directory), (["t", "a.html"], .file (.text "<p>a</p>")), (["u"], .directory),
        (["u", "a.html.php"], .file (.text "u")), (["x"], .directory)], []⟩⟩
    w.disk.entries.all (fun x => w.disk.entry? x.1.dropLast = some .directory) = true ∧
      Path.isPlain w.view.compiledDir = true ∧ Path.isPlain "a.html" = true ∧
      w.view.dirs.map (w.disk.placeOf ·.path) = [["u"], ["t"]] ∧
      (w.find "a.html").1 = some ⟨some ⟨"/x/../t"⟩, 1, "a.html", ⟨"/x/../t/compiled/a.html.php"⟩, true⟩ ∧
      ((w.find "a.html").2.find "a.html").1 =
        some ⟨some ⟨"/t/compiled/../../u"⟩, 2, "a.html", ⟨"/t/compiled/../../u/a.html.php"⟩, false⟩ := by
  decide +kernel

end Again

end Workspace

end HtmlTemplate
