import HtmlTemplate.Proofs.Directive.Script
import HtmlTemplate.Proofs.Markup.Content

/-! # The scenes of a pass

`scenes` lists the handlers that a pass runs, each with the document in which it is reached, whether the
pass ends well or not. The calls of the pass, its steps (`trace`) and the tree that it leaves are read off
this list: each scene is at an element of the document and starts where those before it have led
(`plays_visit`). So every tree on the way is structured (`structured_trace`).
-/

namespace HtmlTemplate

open Forest Context HtmlTemplate.Tree

/-- A handler that is run, the attribute that stands for it and the document in which it is reached. -/
structure Scene where
  call : Call
  attr : String
  before : Tree

namespace Scene

/-- The document that the handler is given. -/
def tree (x : Scene) : Tree :=
  x.before.eraseAttribute x.call.node x.attr

def site (d : Dialect) (x : Scene) : Site :=
  ⟨d, x.call.node, x.call.parameter⟩

/-- The steps of a scene: the attribute is taken off, and the handler runs. -/
def steps (d : Dialect) (x : Scene) : List Step :=
  .element x.call.node (·.erase x.attr) :: Handler.script x.call.directive (x.site d) x.tree

/-- The document to which a scene leads. -/
def after (d : Dialect) (x : Scene) : Tree :=
  x.before.follow (x.steps d)

end Scene

namespace Registry

/-- The scenes of the directives that run on node `n`. -/
def scenesAt (d : Dialect) (n : NodeId) : List (String × Directive) → Tree → List Scene
  | [], _ => []
  | (attr, directive) :: rest, t =>
    if t.isAttached n then
      let parameter := parameter? (t.attribute? n attr)
      let out := directive.run ⟨d, n, parameter⟩ (t.eraseAttribute n attr)
      ⟨⟨n, directive.name, parameter⟩, attr, t⟩ ::
        match out.error with
        | some _ => []
        | none => scenesAt d n rest out.tree
    else []

/-- The scenes of the visits from `cursor` on. -/
def scenesFrom (r : Registry) (d : Dialect) : (visits : Nat) → Option NodeId → Tree → List Scene
  | _, none, _ => []
  | 0, some _, _ => []
  | visits + 1, some n, t =>
    let here := runAt d n (r.orderedAt t n) t
    scenesAt d n (r.orderedAt t n) t ++
      match here.error with
      | some _ => []
      | none => scenesFrom r d visits (resume t here.tree n) here.tree

/-- The scenes of a pass over a document. -/
def scenes (r : Registry) (d : Dialect) (t : Tree) : List Scene :=
  r.scenesFrom d (r.visitLimit t) (t.firstChild? Tree.root) t

/-- The steps of a pass over a document. -/
def trace (r : Registry) (d : Dialect) (t : Tree) : List Step :=
  (r.scenes d t).flatMap (Scene.steps d)

end Registry

/-! ## Scenes that follow one another -/

/-- Scenes with the property `P` lead from one document to another: each starts where those before it have
led. -/
inductive Plays (d : Dialect) (P : Scene → Prop) : Tree → List Scene → Tree → Prop
  | done (t : Tree) : Plays d P t [] t
  | scene {x : Scene} {xs : List Scene} {t' : Tree} (hx : P x) (hxs : Plays d P (x.after d) xs t') :
      Plays d P x.before (x :: xs) t'

namespace Plays

variable {d : Dialect} {P Q : Scene → Prop} {t t' t'' : Tree} {xs ys : List Scene}

theorem imp (h : Plays d P t xs t') (himp : ∀ x, P x → Q x) : Plays d Q t xs t' := by
  induction h with
  | done t => exact .done t
  | scene hx _ ih => exact .scene (himp _ hx) ih

theorem append (h : Plays d P t xs t') (h' : Plays d P t' ys t'') : Plays d P t (xs ++ ys) t'' := by
  induction h with
  | done t => exact h'
  | scene hx _ ih => exact .scene hx (ih h')

theorem forall_mem (h : Plays d P t xs t') : ∀ x ∈ xs, P x := by
  induction h with
  | done t => exact List.forall_mem_nil _
  | scene hx _ ih => exact List.forall_mem_cons.2 ⟨hx, ih⟩

/-- The steps of the scenes lead where the scenes lead. -/
theorem eq_follow (h : Plays d P t xs t') : t' = t.follow (xs.flatMap (Scene.steps d)) := by
  induction h with
  | done t => rfl
  | scene _ _ ih =>
    rw [List.flatMap_cons, follow_append]
    exact ih

end Plays

namespace Scene

variable {d : Dialect} {n : NodeId} {ds ds' : List (String × Directive)} {x : Scene}

/-- A scene of a standard directive leads to the document that its handler leaves. -/
theorem after_eq_run {directive : Directive} (h : directive.IsStandard) (p : Option AttrValue) (attr : String)
    (t : Tree) : after d ⟨⟨n, directive.name, p⟩, attr, t⟩ =
      (directive.run ⟨d, n, p⟩ (t.eraseAttribute n attr)).tree :=
  (Handler.run_eq_follow h ..).symm

/-- A scene of one of the given directives at node `n`, which is in the document. -/
structure IsAt (n : NodeId) (ds : List (String × Directive)) (x : Scene) : Prop where
  node : x.call.node = n
  attached : x.before.isAttached n = true
  parameter : x.call.parameter = Registry.parameter? (x.before.attribute? n x.attr)
  mem : ∃ directive : Directive, (x.attr, directive) ∈ ds ∧ directive.name = x.call.directive

theorem IsAt.mono (h : x.IsAt n ds) (hds : ds ⊆ ds') : x.IsAt n ds' := by
  obtain ⟨directive, hmem, hname⟩ := h.mem
  exact ⟨h.node, h.attached, h.parameter, directive, hds hmem, hname⟩

/-- A scene of a standard directive at an element of the document. -/
structure IsStandard (lead : String) (x : Scene) : Prop where
  attached : x.before.isAttached x.call.node = true
  element : x.before.IsKind Kind.isElement x.call.node
  parameter : x.call.parameter = Registry.parameter? (x.before.attribute? x.call.node x.attr)
  attr : x.attr = lead ++ x.call.directive
  standard : ∃ directive : Directive, directive.IsStandard ∧ directive.name = x.call.directive

theorem sound_steps {lead : String} (h : x.IsStandard lead) (ht : x.before.Shaped) :
    x.before.Sound (x.steps d) := by
  obtain ⟨directive, hstandard, hname⟩ := h.standard
  have hplaced : Handler.Placed (x.site d) x.before := ⟨ht, h.attached, h.element⟩
  rw [steps, ← hname]
  exact ⟨trivial, Handler.sound_script hstandard (hplaced.eraseAttribute x.attr)⟩

end Scene

namespace Plays

variable {d : Dialect} {n : NodeId} {ds : List (String × Directive)} {lead : String} {t t' : Tree}
  {xs : List Scene}

/-- A node that is an element stays one, so all the scenes at it are at an element. -/
theorem isStandard (h : Plays d (Scene.IsAt n ds) t xs t')
    (hds : ∀ x ∈ ds, x.2.IsStandard ∧ x.1 = lead ++ x.2.name) (ht : t.Numbered)
    (hn : t.IsKind Kind.isElement n) : Plays d (Scene.IsStandard lead) t xs t' := by
  induction h with
  | done t => exact .done t
  | scene hx _ ih =>
    obtain ⟨directive, hmem, hname⟩ := hx.mem
    obtain ⟨hstandard, hattribute⟩ := hds _ hmem
    obtain rfl := hx.node
    refine .scene ⟨hx.attached, hn, hx.parameter, hname ▸ hattribute, directive, hstandard, hname⟩ ?_
    exact ih (ht.follow _) (hn.follow (fun k f => by cases k <;> rfl) ht _)

/-- Along scenes of standard directives every step is sound. -/
theorem sound (h : Plays d (Scene.IsStandard lead) t xs t') (ht : t.Shaped) :
    t.Sound (xs.flatMap (Scene.steps d)) := by
  induction h with
  | done t => exact trivial
  | scene hx _ ih =>
    have hsound := Scene.sound_steps (d := d) hx ht
    rw [List.flatMap_cons, sound_append]
    exact ⟨hsound, ih (ht.follow hsound)⟩

end Plays

/-! ## What a pass plays -/

namespace Registry

variable {r : Registry} {d : Dialect} {n : NodeId}

/-- The scenes at a node lead to the tree that its directives leave, and are the calls that these make. -/
theorem plays_runAt {ds : List (String × Directive)} (hds : ∀ x ∈ ds, x.2.IsStandard) (t : Tree) :
    Plays d (Scene.IsAt n ds) t (scenesAt d n ds t) (runAt d n ds t).tree ∧
      (scenesAt d n ds t).map Scene.call = (runAt d n ds t).calls := by
  induction ds generalizing t with
  | nil => exact ⟨.done t, rfl⟩
  | cons y ds ih =>
    obtain ⟨attr, directive⟩ := y
    obtain ⟨(hstandard : directive.IsStandard), hds⟩ := List.forall_mem_cons.1 hds
    rw [scenesAt, runAt]
    split
    · rename_i hatt
      have hx : Scene.IsAt n ((attr, directive) :: ds)
          ⟨⟨n, directive.name, parameter? (t.attribute? n attr)⟩, attr, t⟩ :=
        ⟨rfl, hatt, rfl, directive, List.mem_cons_self, rfl⟩
      cases herror : (directive.run ⟨d, n, parameter? (t.attribute? n attr)⟩
          (t.eraseAttribute n attr)).error with
      | some e =>
        simp only [herror, ← Scene.after_eq_run hstandard]
        exact ⟨.scene hx (.done _), rfl⟩
      | none =>
        simp only [herror, ← Scene.after_eq_run hstandard, List.map_cons]
        obtain ⟨hplays, hcalls⟩ := ih hds (Scene.after d
          ⟨⟨n, directive.name, parameter? (t.attribute? n attr)⟩, attr, t⟩)
        exact ⟨.scene hx (hplays.imp fun x hx => hx.mono (List.subset_cons_self _ _)), by rw [hcalls]⟩
    · exact ⟨.done t, rfl⟩

/-- An element is visited, or nothing is run. -/
theorem plays_orderedAt (hr : ∀ x ∈ r.directives, x.IsStandard) {t : Tree} (ht : t.Numbered) (n : NodeId) :
    Plays d (Scene.IsStandard r.lead) t (scenesAt d n (r.orderedAt t n) t)
      (runAt d n (r.orderedAt t n) t).tree := by
  have hplays := (plays_runAt (d := d) (n := n) (isStandard_orderedAt hr t n) t).1
  cases he : t.element? n with
  | none =>
    have hnone : r.orderedAt t n = [] := by rw [orderedAt, he]
    rw [hnone]
    exact .done t
  | some e =>
    obtain ⟨k, hk, hke⟩ := Option.bind_eq_some_iff.1 he
    refine hplays.isStandard (fun x hx => ⟨isStandard_orderedAt hr t n x hx, eq_of_mem_orderedAt hx⟩) ht
      ⟨k, hk, ?_⟩
    cases k <;> simp_all [Kind.element?, Kind.isElement]

/-- The scenes of a pass lead to the tree that it leaves, and are the calls that it makes. -/
theorem plays_visit (hr : ∀ x ∈ r.directives, x.IsStandard) (d : Dialect) (visits : Nat)
    (cursor : Option NodeId) {t : Tree} (ht : t.Numbered) :
    Plays d (Scene.IsStandard r.lead) t (r.scenesFrom d visits cursor t) (r.visit d visits cursor t).tree ∧
      (r.scenesFrom d visits cursor t).map Scene.call = (r.visit d visits cursor t).calls := by
  induction visits generalizing cursor t with
  | zero => cases cursor <;> exact ⟨.done t, rfl⟩
  | succ visits ih =>
    cases cursor with
    | none => exact ⟨.done t, rfl⟩
    | some n =>
      have hhere := plays_orderedAt (d := d) hr ht n
      have hcalls := (plays_runAt (d := d) (n := n) (isStandard_orderedAt hr t n) t).2
      rw [scenesFrom, visit]
      cases herror : (runAt d n (r.orderedAt t n) t).error with
      | some e =>
        rw [List.append_nil]
        exact ⟨hhere, hcalls⟩
      | none =>
        have hnumbered : (runAt d n (r.orderedAt t n) t).tree.Numbered := hhere.eq_follow ▸ ht.follow _
        obtain ⟨hrest, hmore⟩ := ih (resume t (runAt d n (r.orderedAt t n) t).tree n) hnumbered
        rw [List.map_append, hcalls, hmore]
        exact ⟨hhere.append hrest, rfl⟩

theorem plays_run (hr : ∀ x ∈ r.directives, x.IsStandard) (d : Dialect) {t : Tree} (ht : t.Numbered) :
    Plays d (Scene.IsStandard r.lead) t (r.scenes d t) (r.run d t).tree ∧
      (r.scenes d t).map Scene.call = (r.run d t).calls :=
  plays_visit hr d _ _ ht

theorem runAt_eq_follow {ds : List (String × Directive)} (d : Dialect) (n : NodeId)
    (hds : ∀ x ∈ ds, x.2.IsStandard) (t : Tree) :
    (runAt d n ds t).tree = t.follow ((scenesAt d n ds t).flatMap (Scene.steps d)) :=
  (plays_runAt hds t).1.eq_follow

/-- Whatever the source, the dialect and the priorities of the standard directives: after any number of
visits the tree is structured, also when the pass fails. Within the visits the pass leads through
structured trees only, and none of its edits puts a node below itself. -/
theorem structured_trace (lead source : String) (d : Dialect) (changes : List (String × Int)) :
    let r := (standard lead).prioritize changes
    let t := Markup.parse lead d source
    (∀ visits, Structured (r.visit d visits (t.firstChild? Tree.root) t).tree) ∧
      (r.run d t).tree = t.follow (r.trace d t) ∧
      ∀ k, Structured (t.follow ((r.trace d t).take k)) ∧
        ¬ ∃ step, (r.trace d t)[k]? = some step ∧
          step.Cyclic (t.follow ((r.trace d t).take k)) := by
  intro r t
  have hr : ∀ x ∈ r.directives, x.IsStandard := fun x hx => isStandard_of_mem hx
  have ht : t.Shaped := Markup.shaped_parse lead d source
  have hplays (visits : Nat) := (plays_visit hr d visits (t.firstChild? Tree.root) ht.numbered).1
  refine ⟨fun visits => ?_, (hplays _).eq_follow, ((hplays _).sound ht).structured ht⟩
  rw [(hplays visits).eq_follow]
  exact (ht.follow ((hplays visits).sound ht)).structured

end Registry

end HtmlTemplate
