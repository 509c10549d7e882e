import HtmlTemplate.Proofs.Directive.Agreement

/-! # A pass goes through a document part by part

A pass over a document without imports makes of its content what `Registry.sweep` says
(`sweep_eq_ok_iff`). What comes of a document is therefore put together from what comes of its parts
(`run_ofContent_append`).
-/

namespace HtmlTemplate

open Forest HtmlTemplate.Tree

theorem Margin.head_after {d : Dialect} {calls : List Call}
    (h : ∀ c ∈ calls, c.directive ∉ Handler.importNames) (m : Margin) : (m.after d calls).head = m.head := by
  induction calls generalizing m with
  | nil => rfl
  | cons c calls ih =>
    obtain ⟨hc, hcalls⟩ := List.forall_mem_cons.1 h
    refine (ih hcalls (m.note d c)).trans ?_
    rw [note, if_neg hc]
    split <;> rfl

/-! ## The document -/

namespace Registry

variable {reg : Registry} {d : Dialect}

/-- A node that is no loop, and that imports nothing. -/
def Covers (reg : Registry) (k : Kind) : Prop :=
  k.isLoop = false ∧ ∀ z ∈ reg.orderedOf k, z.2.IsStandard ∧ z.2.name ∉ Handler.importNames

/-- A pass succeeds if and only if the content can be swept, and it leaves what comes of that. -/
theorem sweep_eq_ok_iff {f g : Forest Kind} (hf : f.IsMarkup) (hcovers : ∀ k ∈ f.preorder, reg.Covers k) :
    reg.sweep d nil f = .ok g ↔ (reg.run d (ofContent f)).error = none ∧
      ((reg.run d (ofContent f)).tree.below root).kinds = g := by
  have hreport : reg.sweep d nil f =
      (reg.report .settled d nil (f.numberFrom 1).1).result.map Forest.kinds := by
    have hplain : Labelling.settled.Maps .plain Node.kind fun _ => root :=
      ⟨fun _ => rfl, fun _ => rfl, fun _ _ => rfl, fun _ _ => rfl⟩
    have hmap := reg.report_map (d := d) hplain nil (f.numberFrom 1).1
    rw [show (f.numberFrom 1).1.map Node.kind = f from kinds_numberFrom 1 f] at hmap
    exact congrArg Report.result hmap
  have hcovers' : ∀ a ∈ (f.numberFrom 1).1.preorder, reg.Covers a.kind := by
    rwa [← kinds_numberFrom 1 f, preorder_kinds, List.forall_mem_map] at hcovers
  have himports : ∀ c ∈ (reg.report .settled d nil (f.numberFrom 1).1).calls,
      c.directive ∉ Handler.importNames :=
    forall_calls_report (fun a ha z hz _ => ((hcovers' a ha).2 z hz).2) nil
  obtain ⟨-, haccords⟩ := accords_run hf (fun k hk z hz => ((hcovers k hk).2 z hz).1) d
  rw [hreport]
  cases hresult : (reg.report .settled d nil (f.numberFrom 1).1).result with
  | error e =>
    rw [hresult] at haccords
    rw [haccords]
    exact iff_of_false nofun fun h => nomatch h.1
  | ok k =>
    rw [hresult] at haccords
    obtain ⟨herror, h, loose, next, htree, -, hsettle⟩ := haccords
    rw [Margin.head_after himports] at hsettle
    have hkinds : ((reg.run d (ofContent f)).tree.below root).kinds = k.kinds := by
      rw [htree, below_root, Context.close_nil, ← kinds_settle (ofContent f).next, hsettle]
      rfl
    rw [herror, hkinds, Except.map, Except.ok.injEq]
    exact (and_iff_right rfl).symm

/-- Markup without imports is covered by the standard directives. -/
theorem covers_of_isMarkup (hr : ∀ x ∈ reg.directives, x.IsStandard) {f : Forest Kind} (hf : f.IsMarkup)
    (himports : ∀ e, Kind.element e ∈ f.preorder → ∀ name ∈ Handler.importNames,
      e.has (reg.lead ++ name) = false) : ∀ k ∈ f.preorder, reg.Covers k := by
  intro k hk
  cases k with
  | element e =>
    refine ⟨rfl, fun z hz => ⟨hr z.2 (mem_of_mem_ordered hz), fun hname => ?_⟩⟩
    have hhas := ((reg.mem_names_ordered e z.2.name).1 (List.mem_map_of_mem hz)).2
    rw [himports e hk z.2.name hname] at hhas
    cases hhas
  | loop code =>
    rw [← kinds_numberFrom 1 f, preorder_kinds] at hk
    obtain ⟨a, ha, hkind⟩ := List.mem_map.1 hk
    have hmade : a.kind.isMade = false := IsMarkup.isMade ((kinds_numberFrom 1 f).symm ▸ hf) a ha
    rw [hkind] at hmade
    cases hmade
  | document | text | code | conditional | branch => exact ⟨rfl, List.forall_mem_nil _⟩

/-- Markup without imports is compiled part by part: if the standard directives, whatever their
priorities, succeed on `f` and on `g`, they succeed on `f` followed by `g`, and up to numbers the
document then holds what comes of `f` followed by what comes of `g`. -/
theorem run_ofContent_append (hr : ∀ x ∈ reg.directives, x.IsStandard) {f g : Forest Kind}
    (hf : f.IsMarkup) (hg : g.IsMarkup)
    (himports : ∀ e, Kind.element e ∈ (f ++ g).preorder → ∀ name ∈ ["import", "imports"],
      e.has (reg.lead ++ name) = false)
    (hferror : (reg.run d (ofContent f)).error = none)
    (hgerror : (reg.run d (ofContent g)).error = none) :
    (reg.run d (ofContent (f ++ g))).error = none ∧
      ((reg.run d (ofContent (f ++ g))).tree.below root).kinds =
        ((reg.run d (ofContent f)).tree.below root).kinds ++
          ((reg.run d (ofContent g)).tree.below root).kinds := by
  have hcovers := covers_of_isMarkup hr (hf.append hg) himports
  have hparts := hcovers
  rw [preorder_append] at hparts
  obtain ⟨hfcovers, hgcovers⟩ := List.forall_mem_append.1 hparts
  have hfsweep := (sweep_eq_ok_iff hf hfcovers).2 ⟨hferror, rfl⟩
  have hgsweep := (sweep_eq_ok_iff hg hgcovers).2 ⟨hgerror, rfl⟩
  have hbehind := sweep_behind hgsweep ((reg.run d (ofContent f)).tree.below root).kinds
  rw [append_nil] at hbehind
  refine (sweep_eq_ok_iff (hf.append hg) hcovers).1 ?_
  rw [sweep_append hfsweep, hbehind]

/-- A condition, and behind it a condition with a loop in it and an alternative. -/
theorem run_ofContent_append_else :
    let f : Forest Kind := .tree (.element ⟨"p", [("j:if", .code (.expression "a"))]⟩) nil
    let g : Forest Kind := .cons (.element ⟨"p", [("j:if", .code (.expression "b"))]⟩)
      (.tree (.element ⟨"b", [("j:foreach", .code (.expression "c"))]⟩) nil)
      (.tree (.element ⟨"br", [("j:else", .text "")]⟩) nil)
    let out := fun h => (standard "j:").run .php (ofContent h)
    (out f).error = none ∧ (out g).error = none ∧ (out (f ++ g)).error = none ∧
      ((out (f ++ g)).tree.below root).kinds =
        ((out f).tree.below root).kinds ++ ((out g).tree.below root).kinds ∧
      ((out f).tree.below root).kinds.roots = [.conditional "a"] ∧
      ((out g).tree.below root).kinds.roots = [.conditional "b"] := by
  intro f g out
  have hr : ∀ x ∈ (standard "j:").directives, x.IsStandard := fun x hx => ⟨x, hx, rfl, rfl⟩
  have hf : f.IsMarkup := .element trivial trivial
  have hg : g.IsMarkup := .element (.element trivial trivial) (.element trivial trivial)
  have himports : ∀ e, Kind.element e ∈ (f ++ g).preorder → ∀ name ∈ ["import", "imports"],
      e.has ("j:" ++ name) = false := by
    simp [f, g, tree, Element.has]
  have hfsweep : (standard "j:").sweep .php nil f = .ok
      (.tree (.conditional "a") (.cons .branch (.tree (.element ⟨"p", []⟩) nil)
        (.tree .branch nil))) := by
    decide +kernel
  have hgsweep : (standard "j:").sweep .php nil g = .ok
      (.tree (.conditional "b") (.cons .branch
        (.tree (.element ⟨"p", []⟩) (.tree (.loop "c") (.tree (.element ⟨"b", []⟩) nil)))
        (.tree .branch (.tree (.element ⟨"br", []⟩) nil)))) := by
    decide +kernel
  have hcovers : ∀ k ∈ (f ++ g).preorder, (standard "j:").Covers k :=
    covers_of_isMarkup hr (hf.append hg) himports
  rw [preorder_append] at hcovers
  obtain ⟨hfcovers, hgcovers⟩ := List.forall_mem_append.1 hcovers
  obtain ⟨hferror, hfkinds⟩ := (sweep_eq_ok_iff hf hfcovers).1 hfsweep
  obtain ⟨hgerror, hgkinds⟩ := (sweep_eq_ok_iff hg hgcovers).1 hgsweep
  obtain ⟨herror, hkinds⟩ := run_ofContent_append hr hf hg himports hferror hgerror
  exact ⟨hferror, hgerror, herror, hkinds, congrArg roots hfkinds, congrArg roots hgkinds⟩

end Registry

end HtmlTemplate
