import HtmlTemplate.Dialect.Php
import HtmlTemplate.Proofs.Path.Components
import HtmlTemplate.Proofs.View.History

/-! # A view compiles a source once

What a view remembers of a source it remembers for good (`Remembers.call`), so that of all calls in a history that
compile the source of one path at most one writes, and those after it answer from memory. A call that cannot read
its source or finds the template faulty changes nothing, and one that writes leaves behind what its source compiles
to and is seen nowhere else on the disk. All of this is `calls_compile_once`.
-/

/-- Where an entry that satisfies `p` rules out that a later one does, only one does. -/
theorem List.Pairwise.length_filter_le_one {α : Type} {R : α → α → Prop} {p : α → Bool} {l : List α}
    (hl : l.Pairwise R) (h : ∀ a b, R a b → p a = true → p b = false) : (l.filter p).length ≤ 1 := by
  have hpairs := hl.filter p
  have hmem : ∀ a ∈ l.filter p, p a = true := fun a ha => (List.mem_filter.1 ha).2
  match hf : l.filter p with
  | [] => exact Nat.zero_le 1
  | [a] => exact Nat.le_refl 1
  | a :: b :: r =>
    rw [hf] at hpairs hmem
    have hab := (List.pairwise_cons.1 hpairs).1 b List.mem_cons_self
    have hb := h a b hab (hmem a List.mem_cons_self)
    rw [hmem b (List.mem_cons_of_mem a List.mem_cons_self)] at hb
    cases hb

namespace HtmlTemplate

namespace View

variable {v : View} {p q : Path}

/-- Sources are told apart by their components. -/
theorem target?_congr (h : p.same q = true) : v.target? p = v.target? q := by
  have hsame : (fun x : Path × Path => x.1.same p) = fun x => x.1.same q := by
    funext x
    simp only [Path.same, of_decide_eq_true h]
  rw [target?, target?, hsame]

end View

/-- What the one workspace remembers, so does the other. -/
def Workspace.Remembers (w w' : Workspace) : Prop :=
  ∀ p target, w.view.target? p = some target → w'.view.target? p = some target

namespace Workspace

theorem target?_remember_self (w : Workspace) (source target : Path) (disk : Disk) :
    (w.remember source target disk).view.target? source = some target := by
  simp [remember, View.target?, Path.same_self source]

theorem target?_remember_of_ne (w : Workspace) {source p : Path} (h : source.same p = false) (target : Path)
    (disk : Disk) : (w.remember source target disk).view.target? p = w.view.target? p := by
  rw [View.target?, View.target?, remember, List.find?_cons_of_neg (by simp [h])]

theorem remembers_remember {w : Workspace} {source : Path} (h : w.view.target? source = none) (target : Path)
    (disk : Disk) : Remembers w (w.remember source target disk) := by
  intro p t ht
  have hne : source.same p = false := by
    refine Bool.eq_false_iff.2 fun hsame => ?_
    rw [View.target?_congr hsame, ht] at h
    cases h
  rwa [target?_remember_of_ne w hne]

end Workspace

namespace Compilation

open Workspace

variable {c c' : Compilation} {target : Path}

theorem compiled (c : Compilation) : Compiled c.before c.dir c.name (c.result, c.after) :=
  Workspace.compiled c.before c.dir c.name

theorem remembers (c : Compilation) : Remembers c.before c.after := by
  have h := c.compiled
  generalize c.result = r, c.after = w at h ⊢
  cases h with
  | remembered hmemo => exact fun _ _ h => h
  | unread hmemo hread => exact fun _ _ h => h
  | refused hmemo hread hcompile => exact fun _ _ h => h
  | unwritten hmemo hread hcompile hwrite => exact fun _ _ h => h
  | written hmemo hread hcompile hwrite => exact remembers_remember hmemo _ _

/-- A call that gives a target has it remembered. -/
theorem target?_after (hok : c.result = .ok target) : c.after.view.target? c.source = some target := by
  have h := c.compiled
  generalize c.result = r, c.after = w at h hok ⊢
  cases h with
  | remembered hmemo =>
    cases hok
    exact hmemo
  | unread hmemo hread => cases hok
  | refused hmemo hread hcompile => cases hok
  | unwritten hmemo hread hcompile hwrite => cases hok
  | written hmemo hread hcompile hwrite =>
    cases hok
    exact target?_remember_self ..

/-- A call for a source that is remembered answers from memory. -/
theorem recalls_of_target? (h : c.before.view.target? c.source = some target) : c.Recalls target := by
  refine ⟨?_, fun disk => compile_remembered h⟩
  rw [writes, h]
  rfl

/-- A call that cannot read its source, or finds the template faulty, changes nothing. -/
theorem after_eq_before {e : ViewError} (herror : c.result = .error e)
    (hcause : (∃ cause, e = .template cause) ∨ ∃ cause, c.before.disk.read c.source = .error cause) :
    c.before.view.target? c.source = none ∧ c.after = c.before := by
  have h := c.compiled
  generalize c.result = r, c.after = w at h herror ⊢
  cases h with
  | remembered hmemo => cases herror
  | unread hmemo hread => exact ⟨hmemo, rfl⟩
  | refused hmemo hread hcompile => exact ⟨hmemo, rfl⟩
  | unwritten hmemo hread hcompile hwrite =>
    obtain ⟨p, cause, rfl⟩ := writeTarget_error hwrite
    cases herror
    rcases hcause with ⟨cause', hcause⟩ | ⟨cause', hcause⟩
    · cases hcause
    · cases hread.symm.trans hcause
  | written hmemo hread hcompile hwrite => cases herror

/-- The next call finds the source as if none had been made before. -/
theorem result_of_unremembered {text output : String} (hmemo : c.before.view.target? c.source = none)
    (hread : c.before.disk.read c.source = .ok text) (hcompile : c.before.view.compiler.compile text = .ok output)
    (hwrite : (writeTarget c.before.disk (c.before.newTarget c.dir c.name) output).1 = none) :
    c.result = .ok (c.before.newTarget c.dir c.name) := by
  have h := c.compiled
  generalize c.result = r, c.after = w at h ⊢
  cases h with
  | remembered hmemo' => cases hmemo.symm.trans hmemo'
  | unread _ hread' => cases hread.symm.trans hread'
  | refused _ hread' hcompile' =>
    cases hread.symm.trans hread'
    cases hcompile.symm.trans hcompile'
  | unwritten _ hread' hcompile' hwrite' =>
    cases hread.symm.trans hread'
    cases hcompile.symm.trans hcompile'
    rw [hwrite'] at hwrite
    cases hwrite
  | written => rfl

/-- The target holds what the source, as it was read, compiles to. There are new directories at most above the
target, and all else on the disk is as it was. -/
def Delivers (c : Compilation) (target : Path) : Prop :=
  ∃ text output place, c.before.disk.read c.source = .ok text ∧ c.before.view.compiler.compile text = .ok output ∧
    c.after.disk.read target = .ok output ∧ c.after.disk.resolve target = .ok place ∧
    ∀ q, q ≠ place → c.after.disk.entry? q = c.before.disk.entry? q ∨
      c.before.disk.entry? q = none ∧ c.after.disk.entry? q = some .directory ∧
        ∃ p ∈ directoriesOf target, c.after.disk.resolve p = .ok q

theorem delivers_of_writes (h : c.writes = true) : ∃ target, c.result = .ok target ∧ c.Delivers target := by
  rw [writes, Bool.and_eq_true] at h
  obtain ⟨hnone, hok⟩ := h
  have h := c.compiled
  unfold Delivers
  generalize c.result = r, c.after = w at h hok ⊢
  cases h with
  | remembered hmemo =>
    have hmemo : c.before.view.target? c.source = some _ := hmemo
    rw [hmemo] at hnone
    cases hnone
  | unread hmemo hread => cases hok
  | refused hmemo hread hcompile => cases hok
  | unwritten hmemo hread hcompile hwrite => cases hok
  | written hmemo hread hcompile hwrite =>
    obtain ⟨place, hresolve, hentry, hrest⟩ := writeTarget_eq_none hwrite
    exact ⟨_, rfl, _, _, place, hread, hcompile, Disk.read_eq_ok hresolve hentry, hresolve, hrest⟩

end Compilation

namespace Workspace

variable {w : Workspace} {history : List Event}

/-- What is remembered at the beginning of a history is at every call of it, and what is after one call is at every
later one. -/
theorem remembers_calls (w : Workspace) (history : List Event) :
    (∀ c ∈ w.calls history, Remembers w c.before) ∧
      (w.calls history).Pairwise fun c c' => Remembers c.after c'.before := by
  induction history generalizing w with
  | nil => exact ⟨List.forall_mem_nil _, List.Pairwise.nil⟩
  | cons e es ih =>
    obtain ⟨hlater, hpairs⟩ := ih (w.step e)
    have hevent : Remembers w (w.step e) ∧
        (∀ c ∈ w.callsOf e, Remembers w c.before ∧ Remembers c.after (w.step e)) ∧
        (w.callsOf e).Pairwise fun c c' => Remembers c.after c'.before := by
      rcases leads_callsOf w e with hleads | ⟨hnone, htargets, -⟩
      · exact hleads.along (fun _ _ _ h => h) (fun h h' p t ht => h' p t (h p t ht)) Compilation.remembers
      · rw [hnone]
        refine ⟨fun p t ht => ?_, List.forall_mem_nil _, List.Pairwise.nil⟩
        rwa [View.target?, htargets]
    obtain ⟨hstep, hcalls, hpairs'⟩ := hevent
    refine ⟨List.forall_mem_append.2 ⟨fun c hc => (hcalls c hc).1, fun c hc p t ht => ?_⟩,
      List.pairwise_append.2 ⟨hpairs', hpairs, fun c hc c' hc' p t ht => ?_⟩⟩
    · exact hlater c hc p t (hstep p t ht)
    · exact hlater c' hc' p t ((hcalls c hc).2 p t ht)

/-- A call that gives a target is followed by calls that recall it. -/
theorem recalls_calls (w : Workspace) (history : List Event) :
    (w.calls history).Pairwise fun c c' =>
      ∀ target, c.result = .ok target → c.source.same c'.source = true → c'.Recalls target := by
  refine (remembers_calls w history).2.imp fun {c c'} hremembers target hok hsame => ?_
  have hafter := Compilation.target?_after hok
  rw [View.target?_congr hsame] at hafter
  exact Compilation.recalls_of_target? (hremembers _ _ hafter)

/-- In every history of a view: for each source at most one call compiles and writes, and every call after one that
gave a target gives the same, whatever is on the disk, and changes nothing; a call that cannot read its source or
finds the template faulty changes nothing, and the next one succeeds as soon as source and target allow it; a call
that writes leaves behind what its source compiles to, with at most new directories above the target. -/
theorem calls_compile_once (w : Workspace) (history : List Event) :
    (∀ p, ((w.calls history).filter fun c => c.writes && c.source.same p).length ≤ 1) ∧
    ((w.calls history).Pairwise fun c c' =>
      ∀ target, c.result = .ok target → c.source.same c'.source = true → c'.Recalls target) ∧
    (∀ c ∈ w.calls history, ∀ e, c.result = .error e →
      ((∃ cause, e = .template cause) ∨ ∃ cause, c.before.disk.read c.source = .error cause) →
      c.after = c.before ∧ ∀ (disk : Disk) (text output : String), disk.read c.source = .ok text →
        c.after.view.compiler.compile text = .ok output →
        (writeTarget disk (c.after.newTarget c.dir c.name) output).1 = none →
        ({ c.after with disk }.compile c.dir c.name).1 = .ok (c.after.newTarget c.dir c.name)) ∧
    ∀ c ∈ w.calls history, c.writes = true → ∃ target, c.result = .ok target ∧ c.Delivers target := by
  refine ⟨fun p => ?_, recalls_calls w history, fun c _ e herror hcause => ?_,
    fun c _ hwrites => Compilation.delivers_of_writes hwrites⟩
  · refine (recalls_calls w history).length_filter_le_one fun c c' hrecalls hc => ?_
    rw [Bool.and_eq_true] at hc
    obtain ⟨target, hok, -⟩ := Compilation.delivers_of_writes hc.1
    rw [Bool.and_eq_false_iff]
    by_cases hsame : c'.source.same p = true
    · -- Both calls are for the path `p`, so the later one recalls what the earlier one wrote.
      have hsources : c.source.same c'.source = true :=
        decide_eq_true ((of_decide_eq_true hc.2).trans (of_decide_eq_true hsame).symm)
      exact Or.inl (hrecalls target hok hsources).1
    · exact Or.inr (Bool.eq_false_iff.2 hsame)
  · obtain ⟨hmemo, hafter⟩ := Compilation.after_eq_before herror hcause
    refine ⟨hafter, fun disk text output hread hcompile hwrite => ?_⟩
    rw [hafter] at hcompile hwrite ⊢
    exact Compilation.result_of_unremembered (c := ⟨{ c.before with disk }, c.dir, c.name⟩) hmemo hread hcompile
      hwrite

/-- A source that is compiled and deleted, asked for again in another spelling, and one that is not there. -/
theorem calls_compile_once_deleted :
    let start : Workspace := ⟨View.ofOptions .php {},
      ⟨[(["t"], .directory), (["t", "a.html"], .file (.text "<br>"))], []⟩⟩
    let deleted : Disk := ⟨[(["t"], .directory)], []⟩
    let first : Compilation := ⟨start, ⟨"/t"⟩, "a.html"⟩
    let second : Compilation := ⟨{ first.after with disk := deleted }, ⟨"/t/"⟩, "./a.html"⟩
    let third : Compilation := ⟨second.after, ⟨"/t"⟩, "b.html"⟩
    start.calls [.compile ⟨"/t"⟩ "a.html", .outside deleted, .compile ⟨"/t/"⟩ "./a.html", .compile ⟨"/t"⟩ "b.html"] =
        [first, second, third] ∧
      (first.writes = true ∧ first.result = .ok ⟨"/t/compiled/a.html.php"⟩ ∧ first.Delivers ⟨"/t/compiled/a.html.php"⟩) ∧
      (first.source.same second.source = true ∧ second.Recalls ⟨"/t/compiled/a.html.php"⟩) ∧
      third.result = .error (.disk ⟨"/t/b.html"⟩ .notFound) ∧ third.after = third.before := by
  intro start deleted first second third
  obtain ⟨-, hrecalls, hfails, hwrites⟩ := calls_compile_once start
    [.compile ⟨"/t"⟩ "a.html", .outside deleted, .compile ⟨"/t/"⟩ "./a.html", .compile ⟨"/t"⟩ "b.html"]
  have hfirst : first.writes = true := by decide +kernel
  have hresult : first.result = .ok ⟨"/t/compiled/a.html.php"⟩ := by decide +kernel
  have hsame : first.source.same second.source = true := by decide +kernel
  have hthird : third.result = .error (.disk ⟨"/t/b.html"⟩ .notFound) := by decide +kernel
  have hunread : third.before.disk.read third.source = .error .notFound := by decide +kernel
  obtain ⟨target, htarget, hdelivers⟩ := hwrites first List.mem_cons_self hfirst
  cases htarget.symm.trans hresult
  exact ⟨rfl, ⟨hfirst, hresult, hdelivers⟩,
    ⟨hsame, (List.pairwise_cons.1 hrecalls).1 second List.mem_cons_self _ hresult hsame⟩, hthird,
    (hfails third (List.mem_of_getElem? (i := 2) rfl) _ hthird (Or.inr ⟨_, hunread⟩)).1⟩

end Workspace

end HtmlTemplate
