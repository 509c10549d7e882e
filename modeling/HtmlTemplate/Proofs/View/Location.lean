import HtmlTemplate.Proofs.Path.Components
import HtmlTemplate.Proofs.View.Presence

/-! # Where a view puts what it compiles

A template that is compiled goes into the compiled directory of the template directory that the call names. A view
remembers this by the path of the source, whichever directory and name it was put together from, so that the answer to
a call may be the place that an earlier call has chosen (`calls_location`). This is the place that the call asks for
itself, unless the two calls cut the path of the source apart at different places; then it need not be
(`nested_location`).
-/

namespace HtmlTemplate

/-- What can be read has a path that ends in a name. -/
theorem Disk.isNamed_of_read {d : Disk} {p : Path} {text : String} (h : d.read p = .ok text) : p.isNamed = true := by
  obtain ⟨q, content, hresolve, hfile⟩ := isFile_iff.1 (isFile_of_read h)
  unfold resolve at hresolve
  split at hresolve
  · cases hresolve
  · obtain ⟨l, last, hl⟩ : ∃ l last, p.segments = l ++ [last] :=
      ⟨_, _, (List.dropLast_concat_getLast p.segments_ne_nil).symm⟩
    rw [hl, walk_append] at hresolve
    rw [Path.isNamed, hl, List.getLast?_concat]
    refine Classical.byContradiction fun hidle => ?_
    have hidle : Path.isIdle last = true := by simpa using hidle
    cases hwalk : d.walk (d.start p) l with
    | error e =>
      rw [hwalk] at hresolve
      cases hresolve
    | ok q' =>
      rw [hwalk] at hresolve
      have hresolve : d.walk q' [last] = .ok q := hresolve
      rw [walk] at hresolve
      split at hresolve
      · cases hresolve
      · cases hresolve
      · rename_i hdir
        rw [if_pos hidle, walk, hdir] at hresolve
        cases hresolve
        cases hdir.symm.trans hfile

theorem View.compiledPath_congr (v : View) {dir dir' : Path} {name name' : String}
    (hsource : (dir.join name).components = (dir'.join name').components)
    (habs : (Path.mk name).isAbsolute = (Path.mk name').isAbsolute)
    (hdir : (Path.mk name).isAbsolute = false → dir.components = dir'.components)
    (hname : (Path.mk name).isNamed = true) (hname' : (Path.mk name').isNamed = true) :
    (v.compiledPath dir name).components = (v.compiledPath dir' name').components := by
  have hne {name : String} (h : (Path.mk name).isNamed = true) : name ≠ "" := by
    rintro rfl
    cases h
  rw [compiledPath, compiledPath, String.append_assoc, String.append_assoc, Path.join_append _ (hne hname),
    Path.join_append _ (hne hname')]
  refine Path.suffix_congr ?_ ?_ (Path.join_join_congr hsource habs hdir v.compiledDir) _
  · rwa [Path.isNamed_join]
  · rwa [Path.isNamed_join]

/-- The path leads to a place below the other one. -/
def Path.Inside (p q : Path) : Prop :=
  q.components <+: p.components ∧ p.components ≠ q.components

namespace Compilation

open Workspace

variable {c c' : Compilation} {target : Path}

/-- The two calls put the path of their source together in different ways: only one of them has an absolute name, or
one directory is inside the other, or the name of the call does not end in a name. -/
def CutsApart (c c' : Compilation) : Prop :=
  (Path.mk c.name).isAbsolute ≠ (Path.mk c'.name).isAbsolute ∨
  ((Path.mk c.name).isAbsolute = false ∧ (c.dir.Inside c'.dir ∨ c'.dir.Inside c.dir)) ∨
  (Path.mk c.name).isNamed = false

/-- A call that writes puts its target where its directory and name say, and its name ends in a name. -/
theorem result_of_writes (h : c.writes = true) (hok : c.result = .ok target) :
    target = c.before.newTarget c.dir c.name ∧ (Path.mk c.name).isNamed = true := by
  rw [writes, Bool.and_eq_true] at h
  have hnone := h.1
  have h := c.compiled
  generalize c.result = r, c.after = w at h hok
  cases h with
  | remembered hmemo =>
    have hmemo : c.before.view.target? c.source = some _ := hmemo
    rw [hmemo] at hnone
    cases hnone
  | unread hmemo hread => cases hok
  | refused hmemo hread hcompile => cases hok
  | unwritten hmemo hread hcompile hwrite => cases hok
  | written hmemo hread hcompile hwrite =>
    cases hok
    exact ⟨rfl, Path.isNamed_join c.dir c.name ▸ Disk.isNamed_of_read hread⟩

/-- Calls for one source ask for one place, unless they cut its path apart differently. -/
theorem same_or_cutsApart (v : View) (hsource : c'.source.same c.source = true)
    (hname' : (Path.mk c'.name).isNamed = true) :
    (v.compiledPath c'.dir c'.name).same (v.compiledPath c.dir c.name) = true ∨ c.CutsApart c' := by
  have hsource : (c'.dir.join c'.name).components = (c.dir.join c.name).components := of_decide_eq_true hsource
  by_cases habs : (Path.mk c.name).isAbsolute = (Path.mk c'.name).isAbsolute
  · cases hname : (Path.mk c.name).isNamed with
    | false => exact Or.inr (Or.inr (Or.inr hname))
    | true =>
      by_cases hdir : (Path.mk c'.name).isAbsolute = false → c'.dir.components = c.dir.components
      · exact Or.inl (decide_eq_true (v.compiledPath_congr hsource habs.symm hdir hname' hname))
      · obtain ⟨hrel', hne⟩ := Classical.not_imp.1 hdir
        have hrel := habs.trans hrel'
        -- Both directories are at the front of the source.
        have hfront : c.dir.components <+: (c.dir.join c.name).components := Path.prefix_join hrel
        have hfront' : c'.dir.components <+: (c.dir.join c.name).components := hsource ▸ Path.prefix_join hrel'
        refine Or.inr (Or.inr (Or.inl ⟨hrel, ?_⟩))
        rcases List.prefix_or_prefix_of_prefix hfront hfront' with h | h
        · exact Or.inr ⟨h, hne⟩
        · exact Or.inl ⟨h, Ne.symm hne⟩
  · exact Or.inr (Or.inl habs)

end Compilation

namespace Workspace

variable {w w' : Workspace} {history : List Event} {past rest : List Compilation} {c : Compilation} {p target : Path}

/-! ## What a call finds -/

theorem Leads.before (h : Leads w (past ++ c :: rest) w') : Leads w past c.before := by
  induction past generalizing w with
  | nil => exact h.1
  | cons c' past ih => exact ⟨h.1, ih h.2⟩

/-- What is remembered at a call was remembered at the beginning, or an earlier call wrote it. -/
theorem exists_writes_before (hcalls : w.calls history = past ++ c :: rest)
    (htarget : c.before.view.target? p = some target) :
    w.view.target? p = some target ∨
      ∃ c' ∈ past, c'.writes = true ∧ c'.source.same p = true ∧ c'.result = .ok target := by
  induction history generalizing w past with
  | nil => exact absurd hcalls.symm (by simp [calls])
  | cons e es ih =>
    -- Once the event is over, what is remembered then was remembered before it or written by one of its calls.
    have hlater (past' : List Compilation) (hpast : past = w.callsOf e ++ past')
        (hcalls' : (w.step e).calls es = past' ++ c :: rest) : w.view.target? p = some target ∨
          ∃ c' ∈ past, c'.writes = true ∧ c'.source.same p = true ∧ c'.result = .ok target := by
      rw [hpast]
      rcases ih hcalls' with hstep | ⟨c', hc', hwrites⟩
      · rcases target?_step hstep with hbefore | ⟨c', hc', hwrites⟩
        · exact Or.inl hbefore
        · exact Or.inr ⟨c', List.mem_append_left _ hc', hwrites⟩
      · exact Or.inr ⟨c', List.mem_append_right _ hc', hwrites⟩
    rw [calls] at hcalls
    rcases List.append_eq_append_iff.1 hcalls with ⟨past', hpast, hcalls'⟩ | ⟨own, hown, hrest⟩
    · exact hlater past' hpast hcalls'
    · cases own with
      | nil => exact hlater [] (by simp [hown]) hrest.symm
      | cons c' own =>
        obtain ⟨rfl, -⟩ := List.cons.inj hrest
        rcases leads_callsOf w e with hleads | ⟨hnone, -⟩
        · rw [hown] at hleads
          exact hleads.before.target? htarget
        · rw [hown] at hnone
          exact absurd hnone (by simp)

/-! ## The places for compiled files -/

/-- The one workspace puts compiled files where the other does. -/
def SamePlaces (w w' : Workspace) : Prop :=
  ∀ dir name, w'.newTarget dir name = w.newTarget dir name

theorem samePlaces_call (c : Compilation) : SamePlaces c.before c.after := by
  have h := c.compiled
  generalize c.result = r, c.after = w at h ⊢
  cases h <;> exact fun _ _ => rfl

theorem Leads.samePlaces {cs : List Compilation} (h : Leads w cs w') :
    SamePlaces w w' ∧ ∀ c ∈ cs, SamePlaces w c.before := by
  obtain ⟨hend, hcalls, -⟩ := h.along (fun _ _ _ => rfl) (fun h h' dir name => (h' dir name).trans (h dir name))
    samePlaces_call
  exact ⟨hend, fun c hc => (hcalls c hc).1⟩

theorem samePlaces_event (w : Workspace) (e : Event) :
    SamePlaces w (w.step e) ∧ ∀ c ∈ w.callsOf e, SamePlaces w c.before := by
  cases e with
  | addDir path priority => exact ⟨fun _ _ => rfl, List.forall_mem_nil _⟩
  | outside disk => exact ⟨fun _ _ => rfl, List.forall_mem_nil _⟩
  | compile dir name => exact (Leads.single w dir name).samePlaces
  | find name =>
    unfold callsOf step find
    dsimp only
    split
    · exact ⟨fun _ _ => rfl, List.forall_mem_nil _⟩
    · exact (leads_findCalls w name w.view.dirs).samePlaces
  | compileAll => exact (leads_dirsCalls w w.view.dirs).samePlaces

/-- A view puts compiled files in the same places all its life. -/
theorem samePlaces_calls (w : Workspace) (history : List Event) : ∀ c ∈ w.calls history, SamePlaces w c.before := by
  induction history generalizing w with
  | nil => exact List.forall_mem_nil _
  | cons e es ih =>
    obtain ⟨hstep, hcalls⟩ := samePlaces_event w e
    refine List.forall_mem_append.2 ⟨hcalls, fun c hc dir name => ?_⟩
    exact (ih (w.step e) c hc dir name).trans (hstep dir name)

/-- In every history of a view, a call that succeeds gives the place that its directory and name ask for, if it is the
one that writes. If it answers from memory, it gives the place that the call asked for that compiled the source, and
this is by its components the one that it asks for itself, unless the two calls cut the path of the source apart
differently. -/
theorem calls_location (d : Dialect) (o : Options) (disk : Disk) (history : List Event)
    (hcalls : (Workspace.mk (View.ofOptions d o) disk).calls history = past ++ c :: rest)
    (hok : c.result = .ok target) :
    (c.writes = true ∧ target = (View.ofOptions d o).compiledPath c.dir c.name) ∨
      ∃ c' ∈ past, c'.writes = true ∧ c'.source.same c.source = true ∧
        target = (View.ofOptions d o).compiledPath c'.dir c'.name ∧
        (target.same ((View.ofOptions d o).compiledPath c.dir c.name) = true ∨ c.CutsApart c') := by
  have hplaces := samePlaces_calls ⟨View.ofOptions d o, disk⟩ history
  rw [hcalls] at hplaces
  rcases Compilation.recalls_or_writes hok with ⟨hmemo, -⟩ | hwrites
  · refine Or.inr ?_
    rcases exists_writes_before hcalls hmemo with hfirst | ⟨c', hc', hwrites, hsame, hok'⟩
    · rw [View.target?, View.targets_ofOptions] at hfirst
      cases hfirst
    · obtain ⟨htarget, hname⟩ := Compilation.result_of_writes hwrites hok'
      rw [hplaces c' (List.mem_append_left _ hc')] at htarget
      exact ⟨c', hc', hwrites, hsame, htarget, htarget ▸ Compilation.same_or_cutsApart _ hsame hname⟩
  · obtain ⟨htarget, -⟩ := Compilation.result_of_writes hwrites hok
    rw [hplaces c (by simp)] at htarget
    exact Or.inl ⟨hwrites, htarget⟩

/-- A source that is asked for again in another spelling. -/
theorem calls_location_respelled :
    let start : Workspace := ⟨View.ofOptions .php {},
      ⟨[(["t"], .directory), (["t", "a.html"], .file (.text "<br>"))], []⟩⟩
    let first : Compilation := ⟨start, ⟨"/t"⟩, "a.html"⟩
    let second : Compilation := ⟨first.after, ⟨"/t/"⟩, "./a.html"⟩
    let target : Path := ⟨"/t/compiled/a.html.php"⟩
    start.calls [.compile ⟨"/t"⟩ "a.html", .compile ⟨"/t/"⟩ "./a.html"] = [first] ++ second :: [] ∧
      second.result = .ok target ∧ first.writes = true ∧ first.source.same second.source = true ∧
      (target.same (start.view.compiledPath ⟨"/t/"⟩ "./a.html") = true ∨ second.CutsApart first) := by
  intro start first second target
  have hcalls : start.calls [.compile ⟨"/t"⟩ "a.html", .compile ⟨"/t/"⟩ "./a.html"] = [first] ++ second :: [] := rfl
  have hok : second.result = .ok target := by decide +kernel
  refine ⟨hcalls, hok, ?_⟩
  rcases calls_location .php {} start.disk _ hcalls hok with ⟨hwrites, -⟩ | ⟨c', hc', hwrites, hsame, -, hplace⟩
  · exact absurd hwrites (by decide +kernel)
  · cases List.mem_singleton.1 hc'
    exact ⟨hwrites, hsame, hplace⟩

/-- A source that is compiled from one directory and asked for from another one inside it. -/
theorem nested_location :
    let start : Workspace := ⟨View.ofOptions .php { dirs := [(⟨"/t"⟩, 1), (⟨"/t/sub"⟩, 2)] },
      ⟨[(["t"], .directory), (["t", "sub"], .directory), (["t", "sub", "a.html"], .file (.text "<br>"))], []⟩⟩
    let first : Compilation := ⟨start, ⟨"/t"⟩, "sub/a.html"⟩
    let second : Compilation := ⟨first.after, ⟨"/t/sub"⟩, "a.html"⟩
    start.calls [.compile ⟨"/t"⟩ "sub/a.html", .compile ⟨"/t/sub"⟩ "a.html"] = [first, second] ∧
      second.result = .ok ⟨"/t/compiled/sub/a.html.php"⟩ ∧
      start.view.compiledPath second.dir second.name = ⟨"/t/sub/compiled/a.html.php"⟩ ∧
      Path.same ⟨"/t/compiled/sub/a.html.php"⟩ ⟨"/t/sub/compiled/a.html.php"⟩ = false := by
  intro start first second
  exact ⟨rfl, by decide +kernel⟩

end Workspace

end HtmlTemplate
