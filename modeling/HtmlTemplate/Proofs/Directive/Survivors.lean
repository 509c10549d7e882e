import HtmlTemplate.Dialect.Php
import HtmlTemplate.Proofs.Directive.Reach

/-! # What a pass leaves of the document that was read

`Tree.loses` says of a node, by the attributes at and above it alone, whether the standard directives
take it out of the document. The others stay, in the order in which they were read: all the while a
pass goes on, the old nodes behind it followed by those kept ahead of it are the same list
(`Course.kept`), so this list is what the pass leaves.
-/

namespace HtmlTemplate

open Forest Context HtmlTemplate.Tree

/-- The names of the directives that put something else in the place of their element. -/
def removing : List String :=
  ["ignore", "embed", "block", "outerhtml", "outertext"]

/-- The names of the directives that put something else below their element. -/
def emptying : List String :=
  ["innerhtml", "innertext", "html", "text", "tr", "tn"]

namespace Element

variable (lead : String) (e : Element)

/-- The element carries one of the directives. -/
def carries (names : List String) : Bool :=
  names.any fun name => e.has (lead ++ name)

def isRemoved : Bool :=
  e.carries lead removing || Handler.resourceTags.contains e.tag && e.carries lead ["import", "imports"]

def isEmptied : Bool :=
  e.carries lead emptying

end Element

/-- A directive takes the node out of the document: one that removes the node or one above it, or one
that empties a node above it. -/
def Tree.loses (lead : String) (t : Tree) (n : NodeId) : Bool :=
  (n :: t.ancestors n).any (fun a => (t.element? a).any (·.isRemoved lead)) ||
    (t.ancestors n).any fun a => (t.element? a).any (·.isEmptied lead)

/-! ## The nodes that a pass keeps -/

namespace Registry

/-- The numbers of the nodes that a pass keeps. -/
def kept (r : Registry) : Forest Node → List NodeId
  | nil => []
  | cons a c rest =>
    match r.fateOf a.kind with
    | .keeps => a.id :: (kept r c ++ kept r rest)
    | .empties => a.id :: kept r rest
    | .removes => kept r rest

theorem kept_append (r : Registry) (f g : Forest Node) :
    r.kept (f ++ g) = r.kept f ++ r.kept g := by
  induction f with
  | nil => rfl
  | cons a c rest _ ih =>
    rw [cons_append, kept, kept]
    cases r.fateOf a.kind <;> simp [ih]

theorem older_kept_inert (r : Registry) {bound : NodeId} {f : Forest Node} (h : f.Inert bound) :
    older bound (r.kept f) = [] := by
  induction f with
  | nil => rfl
  | cons a c rest _ ih =>
    obtain ⟨ha, hk, rfl, hrest⟩ := h
    rw [kept, r.fateOf_of_not_element hk]
    exact (older_cons_new ha).trans (ih hrest)

end Registry

/-- A visit leaves the old nodes behind a pass and those kept ahead of it as they are. What it puts
ahead is new, and so counts for nothing. -/
theorem Course.kept {r : Registry} {bound : NodeId} {a : Node} {c g ahead : Forest Node}
    {behind behind' : List NodeId} (h : Course bound a c g behind (r.fateOf a.kind) behind' ahead) :
    behind' ++ older bound (r.kept ahead) = behind ++ older bound (r.kept (cons a c g)) := by
  rw [Registry.kept]
  generalize r.fateOf a.kind = x at h
  cases h with
  | keeps hmade =>
    rw [older_cons (l := r.kept c ++ r.kept g)]
    simp only [r.kept_append, older_append, r.older_kept_inert hmade, List.nil_append, List.append_assoc]
  | empties hc hmade =>
    rw [older_cons (l := r.kept g)]
    simp only [r.kept_append, older_append, r.older_kept_inert hc, r.older_kept_inert hmade,
      List.nil_append, List.append_assoc]
  | removes => rfl

/-! ## Fates and attributes -/

theorem fate_eq_removes_iff (tag name : String) :
    fate tag name = .removes ↔
      name ∈ removing ∨ tag ∈ Handler.resourceTags ∧ name ∈ ["import", "imports"] := by
  unfold fate
  split <;> simp_all [removing]

theorem fate_eq_empties_iff (tag name : String) : fate tag name = .empties ↔ name ∈ emptying := by
  have hresource : (if tag ∈ Handler.resourceTags then Fate.removes else .keeps) ≠ .empties := by
    split
    · exact Fate.noConfusion
    · exact Fate.noConfusion
  unfold fate
  split <;> simp_all [emptying]

namespace Registry

variable {r : Registry}

theorem mem_fates_iff (hr : r.names = standardDirectives.map Directive.name) (e : Element) {x : Fate}
    (hx : ∀ name, fate e.tag name = x → name ∈ standardDirectives.map Directive.name) :
    x ∈ (r.ordered e).map (fun y => fate e.tag y.2.name) ↔
      ∃ name, fate e.tag name = x ∧ e.has (r.lead ++ name) = true := by
  have hmap : (r.ordered e).map (fun y => fate e.tag y.2.name) =
      ((r.ordered e).map fun y => y.2.name).map (fate e.tag) := by
    rw [List.map_map]
    rfl
  rw [hmap, List.mem_map]
  constructor
  · rintro ⟨name, hname, rfl⟩
    exact ⟨name, rfl, ((r.mem_names_ordered e name).1 hname).2⟩
  · rintro ⟨name, rfl, hhas⟩
    exact ⟨name, (r.mem_names_ordered e name).2 ⟨hr ▸ hx name rfl, hhas⟩, rfl⟩

theorem fateOf_element (hr : r.names = standardDirectives.map Directive.name) (e : Element) :
    r.fateOf (.element e) =
      if e.isRemoved r.lead then .removes else if e.isEmptied r.lead then .empties else .keeps := by
  have hremoves := mem_fates_iff hr e (x := .removes) fun name hname => by
    rw [fate_eq_removes_iff] at hname
    rcases hname with hname | ⟨-, hname⟩
    · exact (by decide : ∀ n ∈ removing, n ∈ standardDirectives.map Directive.name) name hname
    · exact (by decide : ∀ n ∈ ["import", "imports"], n ∈ standardDirectives.map Directive.name) name hname
  have hempties := mem_fates_iff hr e (x := .empties) fun name hname => by
    rw [fate_eq_empties_iff] at hname
    exact (by decide : ∀ n ∈ emptying, n ∈ standardDirectives.map Directive.name) name hname
  have hremoved : Fate.removes ∈ (r.ordered e).map (fun y => fate e.tag y.2.name) ↔
      e.isRemoved r.lead = true := by
    rw [hremoves, Element.isRemoved, Bool.or_eq_true, Bool.and_eq_true, List.contains_iff_mem,
      Element.carries, Element.carries, List.any_eq_true, List.any_eq_true]
    simp only [fate_eq_removes_iff]
    constructor
    · rintro ⟨name, hname | ⟨htag, hname⟩, hhas⟩
      · exact Or.inl ⟨name, hname, hhas⟩
      · exact Or.inr ⟨htag, name, hname, hhas⟩
    · rintro (⟨name, hname, hhas⟩ | ⟨htag, name, hname, hhas⟩)
      · exact ⟨name, Or.inl hname, hhas⟩
      · exact ⟨name, Or.inr ⟨htag, hname⟩, hhas⟩
  have hemptied : Fate.empties ∈ (r.ordered e).map (fun y => fate e.tag y.2.name) ↔
      e.isEmptied r.lead = true := by
    rw [hempties, Element.isEmptied, Element.carries, List.any_eq_true]
    simp only [fate_eq_empties_iff]
  rw [fateOf, Fate.all]
  simp only [hremoved, hemptied]

theorem fateOf_eq (hr : r.names = standardDirectives.map Directive.name) (k : Kind) :
    r.fateOf k =
      if k.element?.any (·.isRemoved r.lead) then .removes
      else if k.element?.any (·.isEmptied r.lead) then .empties else .keeps := by
  cases k with
  | element e => exact fateOf_element hr e
  | document => rfl
  | text s => rfl
  | code f => rfl
  | conditional test => rfl
  | branch => rfl
  | loop binding => rfl

end Registry

/-! ## Losing a node -/

section Losing

variable {r : Registry} {t : Tree} {ks : Context} {l f : Forest Node}

theorem element?_of_mem_above (ht : t.forest.ids.Nodup) (hf : t.forest = close ks f) {n : NodeId}
    (hn : n ∈ above ks) : ∃ k ∈ ks, n = k.node.id ∧ t.element? n = k.node.kind.element? := by
  induction ks generalizing f with
  | nil => exact absurd hn List.not_mem_nil
  | cons k ks ih =>
    rcases List.mem_cons.1 hn with rfl | hn
    · refine ⟨k, List.mem_cons_self, rfl, ?_⟩
      rw [element?, kind?_at ht hf, Option.bind_some]
    · obtain ⟨k', hk', hid, helement⟩ := ih hf hn
      exact ⟨k', List.mem_cons_of_mem _ hk', hid, helement⟩

variable (hr : r.names = Registry.standardDirectives.map Directive.name) (ht : t.forest.ids.Nodup)

include hr ht

/-- Below nodes that are kept with all below them, a node is lost if it is removed itself. -/
theorem loses_at {a : Node} {c g : Forest Node} (hf : t.forest = close ks (l ++ cons a c g))
    (hks : ∀ k ∈ ks, r.fateOf k.node.kind = .keeps) :
    t.loses r.lead a.id = true ↔ r.fateOf a.kind = .removes := by
  have habove : ∀ n ∈ above ks, (t.element? n).any (·.isRemoved r.lead) = false ∧
      (t.element? n).any (·.isEmptied r.lead) = false := by
    intro n hn
    obtain ⟨k, hk, -, helement⟩ := element?_of_mem_above ht hf hn
    have hfate := hks k hk
    rw [Registry.fateOf_eq hr] at hfate
    rw [helement]
    split at hfate
    · cases hfate
    · split at hfate
      · cases hfate
      · exact ⟨Bool.eq_false_iff.2 ‹_›, Bool.eq_false_iff.2 ‹_›⟩
  have hremoved : (above ks).any (fun n => (t.element? n).any (·.isRemoved r.lead)) = false :=
    List.any_eq_false.2 fun n hn => by rw [(habove n hn).1]; exact Bool.false_ne_true
  have hemptied : (above ks).any (fun n => (t.element? n).any (·.isEmptied r.lead)) = false :=
    List.any_eq_false.2 fun n hn => by rw [(habove n hn).2]; exact Bool.false_ne_true
  have ha : t.element? a.id = a.kind.element? := by
    rw [element?, kind?_at ht hf, Option.bind_some]
  rw [loses, ancestors_at ht hf, List.any_cons, hremoved, hemptied, ha, Bool.or_false, Bool.or_false,
    Registry.fateOf_eq hr]
  split
  · exact iff_of_true ‹_› rfl
  · refine iff_of_false ‹_› ?_
    split
    · exact Fate.noConfusion
    · exact Fate.noConfusion

/-- All below a node that is removed or emptied is lost. -/
theorem loses_below {a : Node} {c g : Forest Node} (hf : t.forest = close ks (l ++ cons a c g))
    (ha : r.fateOf a.kind ≠ .keeps) {n : NodeId} (hn : n ∈ c.ids) : t.loses r.lead n = true := by
  obtain ⟨js, l', b, d, g', rfl, rfl⟩ := exists_close hn
  have hb : t.forest = close (js ++ ⟨l, a, g⟩ :: ks) (l' ++ cons b d g') := by
    rw [hf, close_append]
    rfl
  have hmem : a.id ∈ t.ancestors b.id := by
    rw [ancestors_at ht hb, above, List.mem_map]
    exact ⟨⟨l, a, g⟩, by simp, rfl⟩
  have helement : t.element? a.id = a.kind.element? := by
    rw [element?, kind?_at ht hf, Option.bind_some]
  rw [Registry.fateOf_eq hr] at ha
  rw [loses, Bool.or_eq_true, List.any_eq_true, List.any_eq_true]
  split at ha
  · exact Or.inl ⟨a.id, List.mem_cons_of_mem _ hmem, by rw [helement]; assumption⟩
  · split at ha
    · exact Or.inr ⟨a.id, hmem, by rw [helement]; assumption⟩
    · exact absurd rfl ha

theorem kept_eq_filter (hf : t.forest = close ks (l ++ f))
    (hks : ∀ k ∈ ks, r.fateOf k.node.kind = .keeps) :
    r.kept f = f.ids.filter fun n => !t.loses r.lead n := by
  induction f generalizing ks l with
  | nil => rfl
  | cons a c g ihc ihg =>
    have hg : r.kept g = g.ids.filter fun n => !t.loses r.lead n := by
      refine ihg (l := l ++ tree a c) ?_ hks
      rw [hf, Forest.append_assoc, tree_append]
    have ha := loses_at hr ht hf hks
    have hbelow : r.fateOf a.kind ≠ .keeps → (c.ids.filter fun n => !t.loses r.lead n) = [] :=
      fun hfate => List.filter_eq_nil_iff.2 fun n hn => by simp [loses_below hr ht hf hfate hn]
    rw [Registry.kept, ids_cons, List.filter_cons, List.filter_append, ← hg]
    cases hfate : r.fateOf a.kind with
    | keeps =>
      have hks' : ∀ k ∈ (⟨l, a, g⟩ :: ks : Context), r.fateOf k.node.kind = .keeps :=
        List.forall_mem_cons.2 ⟨hfate, hks⟩
      have hc : r.kept c = c.ids.filter fun n => !t.loses r.lead n := ihc (l := nil) hf hks'
      rw [hfate] at ha
      simp [← hc, ha]
    | empties =>
      rw [hfate] at ha hbelow
      simp [hbelow, ha]
    | removes =>
      rw [hfate] at ha hbelow
      simp [hbelow, ha]

end Losing

/-! ## A document that was read -/

theorem descendants_ofContent (f : Forest Kind) :
    (ofContent f).descendants root = List.range (ofContent f).next := by
  have hids : (ofContent f).forest.ids = root :: (f.numberFrom 1).1.ids := ids_tree ..
  rw [← ids_ofContent, hids]
  rfl

theorem kept_ofContent {r : Registry} {f : Forest Kind} (hf : f.IsMarkup)
    (hr : r.names = Registry.standardDirectives.map Directive.name) :
    root :: r.kept (f.numberFrom 1).1 =
      ((ofContent f).descendants root).filter fun n => !(ofContent f).loses r.lead n := by
  have hclose : (ofContent f).forest = close [] (nil ++ (ofContent f).forest) := rfl
  have hkept : r.kept (ofContent f).forest = root :: r.kept (f.numberFrom 1).1 := by
    show root :: (r.kept (f.numberFrom 1).1 ++ []) = _
    rw [List.append_nil]
  rw [← hkept, descendants_ofContent, ← ids_ofContent]
  exact kept_eq_filter hr (shaped_ofContent hf).numbered.nodup hclose (List.forall_mem_nil _)

/-- A pass over a document of elements, text and code keeps what is not lost. -/
theorem older_run {r : Registry} {f : Forest Kind} {d : Dialect} (hf : f.IsMarkup)
    (hr : ∀ x ∈ r.directives, x.IsStandard) (herror : (r.run d (ofContent f)).error = none) :
    older (ofContent f).next ((r.run d (ofContent f)).tree.descendants root) =
        older (ofContent f).next (root :: r.kept (f.numberFrom 1).1) ∧
      (r.run d (ofContent f)).tree.Shaped := by
  -- The old nodes behind the pass and those kept ahead of it are the same at each visit.
  obtain ⟨behind, hreached, hbehind⟩ := (reached_ofContent hf).visit_calls hr
    (P := fun _ behind ahead _ => behind ++ older (ofContent f).next (r.kept ahead) =
      older (ofContent f).next (r.kept (f.numberFrom 1).1))
    (fun _ hleft _ hcourse _ _ => hcourse.kept.trans hleft) [] rfl herror
  have hall : behind = older (ofContent f).next (r.kept (f.numberFrom 1).1) := by
    rw [← hbehind]
    exact (List.append_nil behind).symm
  refine ⟨?_, hreached.shaped⟩
  rw [older_cons, ← hall]
  exact hreached.descendants.trans (congrArg _ (List.append_nil behind))

theorem descendants_run_ofContent {r : Registry} {f : Forest Kind} {d : Dialect} {lead : String}
    (hf : f.IsMarkup) (hr : ∀ x ∈ r.directives, x.IsStandard)
    (hnames : r.names = Registry.standardDirectives.map Directive.name) (hlead : r.lead = lead)
    (herror : (r.run d (ofContent f)).error = none) :
    ((r.run d (ofContent f)).tree.descendants root).Nodup ∧
      ((r.run d (ofContent f)).tree.descendants root).filter (· ∈ (ofContent f).descendants root) =
        ((ofContent f).descendants root).filter fun n => !(ofContent f).loses lead n := by
  obtain ⟨hleft, hshaped⟩ := older_run hf hr herror
  have hmem (n : NodeId) : n ∈ (ofContent f).descendants root ↔ n < (ofContent f).next := by
    rw [descendants_ofContent, List.mem_range]
  have hold (l : List NodeId) :
      l.filter (· ∈ (ofContent f).descendants root) = older (ofContent f).next l :=
    List.filter_congr fun n _ => decide_eq_decide.2 (hmem n)
  refine ⟨hshaped.nodup_descendants_root, ?_⟩
  rw [hold, hleft, kept_ofContent hf hnames, hlead]
  exact List.filter_eq_self.2 fun n hn => decide_eq_true ((hmem n).1 (List.mem_of_mem_filter hn))

namespace Registry

/-- After a pass without an error the nodes that were read and are still in the document are those
that no directive takes out, each of them once and in the order in which they were read. -/
theorem descendants_run (lead source : String) (d : Dialect) (changes : List (String × Int)) :
    let t := Markup.parse lead d source
    let out := ((standard lead).prioritize changes).run d t
    out.error = none →
      (out.tree.descendants root).Nodup ∧
        (out.tree.descendants root).filter (· ∈ t.descendants root) =
          (t.descendants root).filter fun n => !t.loses lead n :=
  descendants_run_ofContent (Markup.isMarkup_content lead d source)
    (fun _ hx => isStandard_of_mem hx) (names_prioritize ..) (lead_prioritize ..)

/-- A paragraph whose text is replaced stays, after the text before it. -/
theorem descendants_run_paragraph :
    let t := Markup.parse "j:" .php "x<p j:html=b>y</p>"
    let out := ((standard "j:").prioritize [("html", 10)]).run .php t
    (out.tree.descendants root).filter (· ∈ t.descendants root) = [0, 1, 2] := by
  have herror : (((standard "j:").prioritize [("html", 10)]).run .php
      (Markup.parse "j:" .php "x<p j:html=b>y</p>")).error = none := by decide +kernel
  refine (descendants_run _ _ _ _ herror).2.trans ?_
  decide +kernel

end Registry

end HtmlTemplate
