import HtmlTemplate.Dialect.Php
import HtmlTemplate.Proofs.View.CompileOnce
import Mathlib.Data.List.Induction

/-! # Whether a template that is found is there

A template is found where its file is, or where it was compiled to before. Nothing that a view does takes a file away
(`grows_step`), so the file of a template that was found can only be missing if an earlier call compiled it and the
file was taken away from outside since then (`find_present`). That does happen (`find_missing`): the source of a
template is compiled once, and what it was compiled to is not looked after.
-/

namespace HtmlTemplate

namespace Compilation

open Workspace

variable {c : Compilation} {p target : Path}

/-- Compiling takes no file away. -/
theorem grows (c : Compilation) : Disk.Grows c.before.disk c.after.disk := by
  have hgrows := grows_writeTarget c.before.disk (c.before.newTarget c.dir c.name)
  have h := c.compiled
  generalize c.result = r, c.after = w at h ⊢
  cases h with
  | remembered hmemo => exact Disk.Grows.refl _
  | unread hmemo hread => exact Disk.Grows.refl _
  | refused hmemo hread hcompile => exact Disk.Grows.refl _
  | @unwritten _ output _ _ hmemo hread hcompile hwrite =>
    have hgrows := hgrows output
    rwa [hwrite] at hgrows
  | @written _ output _ hmemo hread hcompile hwrite =>
    have hgrows := hgrows output
    rwa [hwrite] at hgrows

/-- A call that fails leaves the view as it was. -/
theorem view_of_error {e : ViewError} (herror : c.result = .error e) : c.after.view = c.before.view := by
  have h := c.compiled
  generalize c.result = r, c.after = w at h herror ⊢
  cases h with
  | remembered hmemo => cases herror
  | unread hmemo hread => rfl
  | refused hmemo hread hcompile => rfl
  | unwritten hmemo hread hcompile hwrite => rfl
  | written hmemo hread hcompile hwrite => cases herror

/-- A call gives what is remembered, or what it writes. -/
theorem recalls_or_writes (hok : c.result = .ok target) :
    (c.before.view.target? c.source = some target ∧ c.after = c.before) ∨ c.writes = true := by
  cases hmemo : c.before.view.target? c.source with
  | none =>
    rw [writes, hmemo, hok]
    exact Or.inr rfl
  | some t =>
    have hcompile := @compile_remembered c.before c.dir t c.name hmemo
    have hresult : c.result = .ok t := congrArg Prod.fst hcompile
    have hafter : c.after = c.before := congrArg Prod.snd hcompile
    cases hresult.symm.trans hok
    exact Or.inl ⟨rfl, hafter⟩

/-- What is remembered after a call was remembered before it, unless the call wrote it. -/
theorem target?_before (htarget : c.after.view.target? p = some target) :
    c.before.view.target? p = some target ∨
      c.writes = true ∧ c.source.same p = true ∧ c.result = .ok target := by
  have h := c.compiled
  unfold writes
  generalize c.result = r, c.after = w at h htarget ⊢
  cases h with
  | remembered hmemo => exact Or.inl htarget
  | unread hmemo hread => exact Or.inl htarget
  | refused hmemo hread hcompile => exact Or.inl htarget
  | unwritten hmemo hread hcompile hwrite => exact Or.inl htarget
  | @written _ _ disk hmemo hread hcompile hwrite =>
    cases hsame : c.source.same p with
    | false => exact Or.inl ((target?_remember_of_ne c.before hsame _ _).symm.trans htarget)
    | true =>
      have hself := target?_remember_self c.before c.source (c.before.newTarget c.dir c.name) disk
      rw [View.target?_congr hsame] at hself
      cases hself.symm.trans htarget
      exact Or.inr ⟨by rw [source, hmemo]; rfl, rfl, rfl⟩

/-- What a call has written is a file. -/
theorem isFile_of_writes (hwrites : c.writes = true) (hok : c.result = .ok target) :
    c.after.disk.isFile target = true := by
  obtain ⟨t, ht, text, output, place, -, -, hread, -⟩ := delivers_of_writes hwrites
  cases ht.symm.trans hok
  exact Disk.isFile_of_read hread

end Compilation

namespace Workspace

variable {w w' : Workspace} {e : Event} {history : List Event} {cs : List Compilation} {dir p target : Path}
  {name : String} {ds : List TemplateDir}

/-! ## What is remembered was written -/

theorem Leads.target? (h : Leads w cs w') (htarget : w'.view.target? p = some target) :
    w.view.target? p = some target ∨
      ∃ c ∈ cs, c.writes = true ∧ c.source.same p = true ∧ c.result = .ok target := by
  induction cs generalizing w with
  | nil =>
    cases h
    exact Or.inl htarget
  | cons c cs ih =>
    obtain ⟨rfl, h⟩ := h
    rcases ih h with hafter | ⟨c', hc', hwrites⟩
    · rcases Compilation.target?_before hafter with hbefore | hwrites
      · exact Or.inl hbefore
      · exact Or.inr ⟨c, List.mem_cons_self, hwrites⟩
    · exact Or.inr ⟨c', List.mem_cons_of_mem c hc', hwrites⟩

theorem target?_step (htarget : (w.step e).view.target? p = some target) :
    w.view.target? p = some target ∨
      ∃ c ∈ w.callsOf e, c.writes = true ∧ c.source.same p = true ∧ c.result = .ok target := by
  rcases leads_callsOf w e with hleads | ⟨-, htargets, -⟩
  · exact hleads.target? htarget
  · rw [View.target?, htargets] at htarget
    exact Or.inl htarget

/-- What a view remembers, that remembered nothing at first, a call of its history wrote. -/
theorem exists_writes_of_target? (hempty : w.view.targets = []) (htarget : (w.live history).view.target? p = some target) :
    ∃ past e rest, history = past ++ e :: rest ∧
      ∃ c ∈ (w.live past).callsOf e, c.writes = true ∧ c.source.same p = true ∧ c.result = .ok target := by
  induction history using List.reverseRecOn with
  | nil =>
    rw [live, List.foldl_nil, View.target?, hempty] at htarget
    cases htarget
  | append_singleton history e ih =>
    rw [live, List.foldl_append, List.foldl_cons, List.foldl_nil] at htarget
    rcases target?_step htarget with hbefore | hwrites
    · obtain ⟨past, e', rest, rfl, hwrites⟩ := ih hbefore
      exact ⟨past, e', rest ++ [e], by simp, hwrites⟩
    · exact ⟨history, e, [], rfl, hwrites⟩

/-! ## What takes a file away -/

theorem Leads.grows (h : Leads w cs w') :
    Disk.Grows w.disk w'.disk ∧ ∀ c ∈ cs, Disk.Grows c.after.disk w'.disk := by
  obtain ⟨hall, hcalls, -⟩ := h.along (R := fun w w' => Disk.Grows w.disk w'.disk)
    (fun w => Disk.Grows.refl w.disk) Disk.Grows.trans Compilation.grows
  exact ⟨hall, fun c hc => (hcalls c hc).2⟩

/-- No operation of a view takes a file away. -/
theorem grows_step (w : Workspace) (houtside : ∀ disk, e ≠ .outside disk) :
    Disk.Grows w.disk (w.step e).disk ∧ ∀ c ∈ w.callsOf e, Disk.Grows c.after.disk (w.step e).disk := by
  rcases leads_callsOf w e with hleads | ⟨hnone, -, hdisk⟩
  · exact hleads.grows
  · rw [hnone, hdisk.resolve_right fun ⟨disk, he⟩ => houtside disk he]
    exact ⟨Disk.Grows.refl _, List.forall_mem_nil _⟩

/-- A file that is there and later is not was taken away from outside. -/
theorem exists_outside_of_isFile (hfile : w.disk.isFile p = true) (hlost : (w.live history).disk.isFile p = false) :
    ∃ past disk rest, history = past ++ .outside disk :: rest ∧ (w.live past).disk.isFile p = true ∧
      disk.isFile p = false := by
  induction history generalizing w with
  | nil => exact absurd (hfile.symm.trans hlost) nofun
  | cons e es ih =>
    cases hstep : (w.step e).disk.isFile p with
    | true =>
      obtain ⟨past, disk, rest, rfl, hpast, hdisk⟩ := ih hstep hlost
      exact ⟨e :: past, disk, rest, rfl, hpast, hdisk⟩
    | false =>
      by_cases houtside : ∀ disk, e ≠ .outside disk
      · rw [(grows_step w houtside).1.isFile hfile] at hstep
        cases hstep
      · simp only [not_forall, not_not] at houtside
        obtain ⟨disk, rfl⟩ := houtside
        exact ⟨[], disk, es, rfl, hfile, hstep⟩

/-! ## What is found -/

/-- A call of the history compiled `source` to `file`, and since then `file` was taken away from outside. -/
def Lost (w : Workspace) (history : List Event) (source file : Path) : Prop :=
  ∃ past e later disk rest, history = past ++ e :: (later ++ .outside disk :: rest) ∧
    (∃ c ∈ (w.live past).callsOf e, c.writes = true ∧ c.source.same source = true ∧ c.result = .ok file) ∧
    (w.live (past ++ e :: later)).disk.isFile file = true ∧ disk.isFile file = false

/-- What is remembered is a file unless it was taken away. -/
theorem lost_of_target? {source : Path} (hempty : w.view.targets = [])
    (htarget : (w.live history).view.target? source = some target)
    (hmissing : (w.live history).disk.isFile target = false) : w.Lost history source target := by
  obtain ⟨past, e, rest, rfl, c, hc, hwrites, hsame, hok⟩ := exists_writes_of_target? hempty htarget
  have houtside : ∀ disk, e ≠ .outside disk := by
    rintro disk rfl
    exact List.not_mem_nil hc
  have hwritten : (w.live (past ++ [e])).disk.isFile target = true := by
    rw [live, List.foldl_append, List.foldl_cons, List.foldl_nil]
    exact ((grows_step _ houtside).2 c hc).isFile (Compilation.isFile_of_writes hwrites hok)
  have hlost : ((w.live (past ++ [e])).live rest).disk.isFile target = false := by
    rwa [live, live, ← List.foldl_append, List.append_assoc]
  obtain ⟨later, disk, rest, rfl, hthere, hgone⟩ := exists_outside_of_isFile hwritten hlost
  refine ⟨past, e, later, disk, rest, rfl, ⟨c, hc, hwrites, hsame, hok⟩, ?_, hgone⟩
  rwa [live, live, ← List.foldl_append, List.append_assoc] at hthere

theorem isFile_of_findReady {file : Path} {compiled : Bool} (h : w.findReady dir name = some (file, compiled)) :
    w.disk.isFile file = true :=
  List.find?_some (p := fun c : Path × Bool => w.disk.isFile c.1) h

/-- What is found in a directory is a file, or remembered. -/
theorem findIn_eq_some {file : Path} {compiled : Bool} (h : w.findIn dir name = (some (file, compiled), w')) :
    w'.disk.isFile file = true ∨
      w' = w ∧ compiled = true ∧ w.hasSource dir name = true ∧ w.view.target? (dir.join name) = some file := by
  unfold findIn at h
  split at h
  · rename_i hsource
    split at h
    · rename_i target w₁ hcompile
      cases h
      have hok : Compilation.result ⟨w, dir, name⟩ = .ok file := congrArg Prod.fst hcompile
      have hafter : Compilation.after ⟨w, dir, name⟩ = w' := congrArg Prod.snd hcompile
      rcases Compilation.recalls_or_writes hok with ⟨hmemo, hsame⟩ | hwrites
      · exact Or.inr ⟨hafter.symm.trans hsame, rfl, hsource, hmemo⟩
      · exact Or.inl (hafter ▸ Compilation.isFile_of_writes hwrites hok)
    · rename_i w₁ hcompile
      obtain ⟨hready, rfl⟩ := Prod.mk.inj h
      exact Or.inl (isFile_of_findReady hready)
  · obtain ⟨hready, rfl⟩ := Prod.mk.inj h
    exact Or.inl (isFile_of_findReady hready)

/-- Where nothing is found, the view remembers nothing new. -/
theorem findIn_eq_none (h : w.findIn dir name = (none, w')) :
    w'.view = w.view ∧ Disk.Grows w.disk w'.disk := by
  have hgrows : Disk.Grows w.disk w'.disk := by
    have hleads := (leads_findIn w dir name).grows.1
    rwa [h] at hleads
  refine ⟨?_, hgrows⟩
  unfold findIn at h
  split at h
  · split at h
    · cases h
    · rename_i e w₁ hcompile
      obtain ⟨-, rfl⟩ := Prod.mk.inj h
      have herror : Compilation.result ⟨w, dir, name⟩ = .error e := congrArg Prod.fst hcompile
      have hafter : Compilation.after ⟨w, dir, name⟩ = w₁ := congrArg Prod.snd hcompile
      exact hafter ▸ Compilation.view_of_error herror
  · obtain ⟨-, rfl⟩ := Prod.mk.inj h
    rfl

/-- What is found among directories is a file, or was remembered in the beginning. -/
theorem findAmong_eq_some {loc : Location} (h : w.findAmong name ds = (some loc, w')) :
    w'.disk.isFile loc.file = true ∨
      ∃ dir, loc.dir = some dir ∧ loc.compiled = true ∧ w'.hasSource dir name = true ∧
        w.view.target? (dir.join name) = some loc.file ∧ Disk.Grows w.disk w'.disk := by
  induction ds generalizing w with
  | nil => cases h
  | cons d ds ih =>
    rw [findAmong] at h
    split at h
    · rename_i file compiled w₁ hin
      cases h
      rcases findIn_eq_some hin with hfile | ⟨rfl, hcompiled, hsource, hmemo⟩
      · exact Or.inl hfile
      · exact Or.inr ⟨d.path, rfl, hcompiled, hsource, hmemo, Disk.Grows.refl _⟩
    · rename_i w₁ hin
      obtain ⟨hview, hgrows⟩ := findIn_eq_none hin
      rcases ih h with hfile | ⟨dir, hdir, hcompiled, hsource, hmemo, hgrows'⟩
      · exact Or.inl hfile
      · exact Or.inr ⟨dir, hdir, hcompiled, hsource, hview ▸ hmemo, hgrows.trans hgrows'⟩

end Workspace

theorem View.targets_ofOptions (d : Dialect) (o : Options) : (View.ofOptions d o).targets = [] := by
  have hfold (dirs : List (Path × Int)) (v : View) :
      (dirs.foldl (fun v p => v.addDir p.1 p.2) v).targets = v.targets := by
    induction dirs generalizing v with
    | nil => rfl
    | cons p dirs ih => exact ih _
  exact hfold o.dirs _

namespace Workspace

/-- In every history of a view, the file of a template that is found by a relative name is there, unless the view
compiled the template before and the file was taken away from outside since then. -/
theorem find_present (d : Dialect) (o : Options) (disk : Disk) (history : List Event) {name : String} {loc : Location}
    {w' : Workspace} (hname : (Path.mk name).isAbsolute = false)
    (hfind : (live ⟨View.ofOptions d o, disk⟩ history).find name = (some loc, w')) :
    w'.disk.isFile loc.file = true ∨
      ∃ dir, loc.dir = some dir ∧ loc.compiled = true ∧ w'.hasSource dir name = true ∧
        Lost ⟨View.ofOptions d o, disk⟩ history (dir.join name) loc.file := by
  rw [find, if_neg (by simp [hname])] at hfind
  rcases findAmong_eq_some hfind with hfile | ⟨dir, hdir, hcompiled, hsource, hmemo, hgrows⟩
  · exact Or.inl hfile
  · cases hfile : (live ⟨View.ofOptions d o, disk⟩ history).disk.isFile loc.file with
    | true => exact Or.inl (hgrows.isFile hfile)
    | false =>
      exact Or.inr ⟨dir, hdir, hcompiled, hsource, lost_of_target? (View.targets_ofOptions d o) hmemo hfile⟩

/-- A template that was compiled, and whose target was deleted with the directory around it. -/
theorem find_present_deleted :
    let start : Workspace := ⟨View.ofOptions .php { dirs := [(⟨"/t"⟩, 1)] },
      ⟨[(["t"], .directory), (["t", "a.html"], .file (.text "<br>"))], []⟩⟩
    let history : List Event := [.find "a.html", .outside start.disk]
    let loc : Location := ⟨some ⟨"/t"⟩, 1, "a.html", ⟨"/t/compiled/a.html.php"⟩, true⟩
    (Path.mk "a.html").isAbsolute = false ∧ ((start.live history).find "a.html").1 = some loc ∧
      start.Lost history (Path.join ⟨"/t"⟩ "a.html") loc.file := by
  intro start history loc
  have hname : (Path.mk "a.html").isAbsolute = false := by decide +kernel
  have hloc : ((start.live history).find "a.html").1 = some loc := by decide +kernel
  have hmissing : ((start.live history).find "a.html").2.disk.isFile loc.file = false := by decide +kernel
  rcases find_present .php { dirs := [(⟨"/t"⟩, 1)] } start.disk history hname (Prod.ext hloc rfl) with
    hfile | ⟨dir, hdir, -, -, hlost⟩
  · exact absurd (hmissing.symm.trans hfile) nofun
  · cases hdir
    exact ⟨hname, hloc, hlost⟩

/-- A template that was compiled is found at its target after the target was deleted. -/
theorem find_missing :
    let start : Workspace := ⟨View.ofOptions .php { dirs := [(⟨"/t"⟩, 1)] },
      ⟨[(["t"], .directory), (["t", "a.html"], .file (.text "<br>"))], []⟩⟩
    let first := start.find "a.html"
    let deleted : Workspace := first.2.step (.outside (first.2.disk.remove ["t", "compiled", "a.html.php"]))
    let second := deleted.find "a.html"
    (Path.mk "a.html").isAbsolute = false ∧
      first.1 = some ⟨some ⟨"/t"⟩, 1, "a.html", ⟨"/t/compiled/a.html.php"⟩, true⟩ ∧
      first.2.disk.isFile ⟨"/t/compiled/a.html.php"⟩ = true ∧
      second.1 = some ⟨some ⟨"/t"⟩, 1, "a.html", ⟨"/t/compiled/a.html.php"⟩, true⟩ ∧
      second.2.disk.isFile ⟨"/t/compiled/a.html.php"⟩ = false := by
  decide +kernel

end Workspace

end HtmlTemplate
