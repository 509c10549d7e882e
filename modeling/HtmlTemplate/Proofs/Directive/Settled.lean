import HtmlTemplate.Proofs.Directive.Attributes
import HtmlTemplate.Proofs.Directive.Chain
import HtmlTemplate.Proofs.Directive.Reach
import Mathlib.Logic.Function.Iterate

/-! # A pass leaves nothing to do

A pass without an error takes every directive off the elements that stay in the document: behind the
walk none is left (`settled_step`). So a second pass finds nothing to run, and changes nothing
(`run_of_quiet`).
-/

namespace HtmlTemplate

open Forest Context HtmlTemplate.Tree

namespace Registry

/-! ## Registries made from the standard one -/

/-- A change to a registry: a directive gets another priority or is taken out. -/
inductive Change where
  | priority (name : String) (value : Int)
  | removal (name : String)

def Change.apply (r : Registry) : Change → Registry
  | priority name value => r.setPriority name value
  | removal name => r.erase name

/-- Makes changes one after the other. -/
def configure (r : Registry) (changes : List Change) : Registry :=
  changes.foldl Change.apply r

theorem lead_configure (r : Registry) (changes : List Change) : (r.configure changes).lead = r.lead := by
  induction changes generalizing r with
  | nil => rfl
  | cons change changes ih =>
    refine (ih (change.apply r)).trans ?_
    cases change <;> rfl

theorem mem_configure {r : Registry} {changes : List Change} {x : Directive}
    (h : x ∈ (r.configure changes).directives) :
    ∃ x₀ ∈ r.directives, x.name = x₀.name ∧ x.run = x₀.run := by
  induction changes generalizing r with
  | nil => exact ⟨x, h, rfl, rfl⟩
  | cons change changes ih =>
    obtain ⟨x₁, hx₁, hname, hrun⟩ := ih h
    cases change with
    | priority name value =>
      obtain ⟨x₀, hx₀, hname₀, hrun₀⟩ := mem_setPriority hx₁
      exact ⟨x₀, hx₀, hname.trans hname₀, hrun.trans hrun₀⟩
    | removal name => exact ⟨x₁, List.mem_of_mem_filter hx₁, hname, hrun⟩

theorem isStandard_of_mem_configure {lead : String} {changes : List Change} {x : Directive}
    (h : x ∈ ((standard lead).configure changes).directives) : x.IsStandard :=
  mem_configure h

/-- With a lead, the attributes that the standard directives write stand for none of them. -/
theorem directive?_written {r : Registry} (hlead : r.lead ≠ "")
    (hr : ∀ x ∈ r.directives, x.IsStandard) : ∀ attr ∈ Handler.written, r.directive? attr = none := by
  have hsuffix : ∀ attr ∈ Handler.written, ∀ x ∈ standardDirectives,
      x.name.toList <:+ attr.toList → x.name = attr := by
    decide
  intro attr hattr
  cases hd : r.directive? attr with
  | none => rfl
  | some x =>
    obtain ⟨x₀, hx₀, hname, -⟩ := hr x (mem_of_directive? hd)
    have heq := eq_of_directive? hd
    rw [hname] at heq
    have hsame := hsuffix attr hattr x₀ hx₀ ⟨r.lead.toList, by rw [heq, String.toList_append]⟩
    rw [hsame] at heq
    have hnil : r.lead.toList = [] := by
      have hlist := congrArg String.toList heq
      rw [String.toList_append] at hlist
      exact List.self_eq_append_left.1 hlist
    exact absurd (String.toList_eq_nil_iff.1 hnil) hlead

theorem carried_eq_nil_iff {r : Registry} {e : Element} :
    r.carried e = [] ↔ ∀ attr, e.has attr = true → r.directive? attr = none := by
  have hwritten : r.carried e = [] ↔ r.written e = [] := by
    rw [carried, List.map_eq_nil_iff]
    exact ⟨fun h => List.nil_perm.1 (h ▸ r.ordered_perm e), fun h => List.perm_nil.1 (h ▸ r.ordered_perm e)⟩
  rw [hwritten, written, List.filterMap_eq_nil_iff]
  simp only [Option.map_eq_none_iff, Element.has, List.any_eq_true, beq_iff_eq]
  constructor
  · rintro h attr ⟨a, ha, rfl⟩
    exact h a ha
  · exact fun h a ha => h a.1 ⟨a, ha, rfl⟩

theorem has_eq_false_of_carried {r : Registry} {e : Element} (h : r.carried e = []) {name : String}
    (hname : name ∈ r.names) : e.has (r.lead ++ name) = false := by
  refine Bool.eq_false_iff.2 fun hhas => ?_
  have hmem : name ∈ r.carried e := (r.mem_names_ordered e name).2 ⟨hname, hhas⟩
  rw [h] at hmem
  cases hmem

/-! ## Behind the walk -/

/-- The elements behind the walk carry no directives, and only old nodes are elements. -/
def Settled (r : Registry) (bound : NodeId) (behind : List NodeId) (t : Tree) : Prop :=
  (∀ x ∈ t.forest.preorder, x.id ∈ behind → ∀ e, x.kind = .element e → r.carried e = []) ∧
    ∀ x ∈ t.forest.preorder, x.kind.isElement = true → x.id < bound

section Step

variable {r : Registry} {d : Dialect} {bound : NodeId} {behind behind' : List NodeId}
  {c g ahead' : Forest Node} {a : Node} {t : Tree}

theorem settled_step (hr : ∀ x ∈ r.directives, x.IsStandard)
    (hwritten : ∀ attr ∈ Handler.written, r.directive? attr = none)
    (hreached : Reached bound behind (cons a c g) t) (h : r.Settled bound behind t)
    (herror : (runAt d a.id (r.orderedAt t a.id) t).error = none)
    (hturn : Turn bound a c g behind behind' ahead')
    (hreached' : Reached bound behind' ahead' (runAt d a.id (r.orderedAt t a.id) t).tree) :
    r.Settled bound behind' (runAt d a.id (r.orderedAt t a.id) t).tree := by
  have hnum := hreached.shaped.numbered
  have hnum' := hreached'.shaped.numbered
  have hds := isStandard_orderedAt hr t a.id
  have hnodes {x : Node} (hx : x ∈ (runAt d a.id (r.orderedAt t a.id) t).tree.forest.preorder) :=
    exists_of_mem_runAt hds hnum hx
  refine ⟨fun x hx hbehind e he => ?_, elements_runAt hds hnum h.2⟩
  by_cases hid : x.id = a.id
  · -- The element that was visited is behind only if it is still there.
    have hatt : (runAt d a.id (r.orderedAt t a.id) t).tree.isAttached a.id = true :=
      hreached'.isAttached (hid ▸ hbehind)
    have hcarries := carries_visited hwritten hr hnum herror hatt
    have hkind : (runAt d a.id (r.orderedAt t a.id) t).tree.kind? x.id = some x.kind :=
      (kind?_eq_some_iff hnum'.nodup).2 hx
    have helement : (runAt d a.id (r.orderedAt t a.id) t).tree.element? a.id = some e := by
      rw [hid] at hkind
      rw [element?, hkind, he]
      rfl
    rw [carried_eq_nil_iff]
    exact fun attr hattr => (hcarries e helement attr hattr).resolve_left List.not_mem_nil
  · have hmem : x.id ∈ behind := by
      cases hturn with
      | passed hc hmade =>
        refine (List.mem_append.1 hbehind).resolve_right fun hnew => hid ?_
        exact List.mem_singleton.1 (List.mem_of_mem_filter hnew)
      | lost => exact hbehind
    rcases hnodes hx with ⟨y, hy, hrevised⟩ | ⟨-, hkind⟩
    · rw [hrevised.eq_of_ne hid] at hmem he
      exact h.1 y hy hmem e he
    · rw [he] at hkind
      cases hkind

end Step

/-! ## A second pass -/

theorem run_of_quiet {r : Registry} {t : Tree} (d : Dialect) (ht : t.Shaped)
    (hquiet : ∀ n ∈ t.descendants root, ∀ e, t.element? n = some e → r.carried e = []) :
    (r.run d t).tree = t ∧ (r.run d t).error = none := by
  obtain ⟨content, loose, hf, hplace⟩ := ht.exists_content
  have hpending : r.pending content = 0 := by
    refine pending_eq_zero_iff.2 fun x hx e he => hquiet x.id ?_ e ?_
    · rw [hplace, descendants_root]
      exact List.mem_cons_of_mem _ (List.mem_map_of_mem hx)
    · have hkind : t.kind? x.id = some x.kind := by
        rw [kind?_eq_some_iff ht.numbered.nodup, hf, preorder_cons]
        exact List.mem_cons_of_mem _ (List.mem_append_left _ hx)
      rw [element?, hkind, he]
      rfl
  have hahead : Ahead t (content ++ nil) :=
    ⟨[], nil, content, loose, t.next, t.marked, hplace, rfl⟩
  have hgoes := goes_quiet (d := d) ht.numbered hahead hpending
  have hcursor : t.firstChild? root = (content ++ nil).front? := by
    rw [firstChild?, hplace, below_root, Forest.append_nil]
    rfl
  have hlimit : content.preorder.length ≤ r.visitLimit t := by
    have hle := le_visitLimit r t
    rw [hf, preorder_cons, List.length_cons, List.length_append] at hle
    omega
  rw [← hcursor] at hgoes
  exact hgoes.finish hlimit

theorem iterate_run_of_quiet {r : Registry} {t : Tree} (d : Dialect) (ht : t.Shaped)
    (hquiet : ∀ n ∈ t.descendants root, ∀ e, t.element? n = some e → r.carried e = []) (k : Nat) :
    (fun t => (r.run d t).tree)^[k] t = t ∧
      (r.run d ((fun t => (r.run d t).tree)^[k] t)).error = none := by
  obtain ⟨htree, herror⟩ := run_of_quiet d ht hquiet
  have hfix : (fun t => (r.run d t).tree)^[k] t = t := Function.iterate_fixed htree k
  rw [hfix]
  exact ⟨rfl, herror⟩

theorem Settled.quiet {r : Registry} {bound : NodeId} {behind : List NodeId} {t : Tree}
    (h : r.Settled bound behind t) (hreached : Reached bound behind nil t) :
    ∀ n ∈ t.descendants root, ∀ e, t.element? n = some e → r.carried e = [] := by
  intro n hn e he
  have hshaped := hreached.shaped
  rw [element?, Option.bind_eq_some_iff] at he
  obtain ⟨k, hk, hke⟩ := he
  have hmem := (kind?_eq_some_iff hshaped.numbered.nodup).1 hk
  have helement : k = .element e := by
    cases k with
    | element e' =>
      cases hke
      rfl
    | document | text _ | code _ | conditional _ | branch | loop _ => cases hke
  have hlt : n < bound := h.2 _ hmem (by rw [helement]; rfl)
  have hold : n ∈ older bound (t.descendants root) := List.mem_filter.2 ⟨hn, decide_eq_true hlt⟩
  rw [hreached.descendants, ids_nil, older_nil, List.append_nil, List.mem_append] at hold
  rcases hold with hroot | hbehind
  · have hdocument : t.kind? n = some .document :=
      (hshaped.kind?_document_iff n).2 (List.mem_singleton.1 (List.mem_of_mem_filter hroot))
    rw [hdocument, helement] at hk
    cases hk
  · exact h.1 _ hmem hbehind e helement

theorem settled_run {r : Registry} {f : Forest Kind} {d : Dialect} (hf : f.IsMarkup) (hlead : r.lead ≠ "")
    (hr : ∀ x ∈ r.directives, x.IsStandard) (herror : (r.run d (ofContent f)).error = none) :
    (r.run d (ofContent f)).tree.Shaped ∧
      ∀ n ∈ (r.run d (ofContent f)).tree.descendants root,
        ∀ e, (r.run d (ofContent f)).tree.element? n = some e → r.carried e = [] := by
  have hreached := reached_ofContent hf
  have hstart : r.Settled (ofContent f).next [] (ofContent f) :=
    ⟨fun x _ hx => absurd hx List.not_mem_nil,
      fun x hx _ => (shaped_ofContent hf).numbered.bound _ (List.mem_map_of_mem hx)⟩
  have hcursor : (ofContent f).firstChild? root = (f.numberFrom 1).1.front? := rfl
  unfold run at herror ⊢
  rw [hcursor] at herror ⊢
  generalize r.visitLimit (ofContent f) = visits at herror ⊢
  obtain ⟨behind, hend, hsettled⟩ := hreached.visit hr
    (P := fun behind _ t => r.Settled (ofContent f).next behind t)
    (settled_step hr (directive?_written hlead hr)) hstart herror
  exact ⟨hend.shaped, hsettled.quiet hend⟩

theorem run_again_ofContent {r : Registry} {f : Forest Kind} {d : Dialect} {lead : String}
    (hf : f.IsMarkup) (hlead : lead ≠ "") (hrlead : r.lead = lead)
    (hr : ∀ x ∈ r.directives, x.IsStandard) (herror : (r.run d (ofContent f)).error = none) :
    (∀ n ∈ (r.run d (ofContent f)).tree.descendants root,
        ∀ e, (r.run d (ofContent f)).tree.element? n = some e →
        ∀ name ∈ r.names, e.has (lead ++ name) = false) ∧
      ∀ k, (fun t => (r.run d t).tree)^[k] (r.run d (ofContent f)).tree = (r.run d (ofContent f)).tree ∧
        (r.run d ((fun t => (r.run d t).tree)^[k] (r.run d (ofContent f)).tree)).error = none := by
  subst hrlead
  obtain ⟨hshaped, hquiet⟩ := settled_run hf hlead hr herror
  exact ⟨fun n hn e he name hname => has_eq_false_of_carried (hquiet n hn e he) hname,
    iterate_run_of_quiet d hshaped hquiet⟩

/-- After a pass without an error no element of the document carries a directive, and further passes,
however many, succeed and leave the tree as it is. -/
theorem run_again (lead source : String) (hlead : lead ≠ "") (d : Dialect) (changes : List Change) :
    let r := (standard lead).configure changes
    let out := r.run d (Markup.parse lead d source)
    out.error = none →
      (∀ n ∈ out.tree.descendants root, ∀ e, out.tree.element? n = some e →
        ∀ name ∈ r.names, e.has (lead ++ name) = false) ∧
      ∀ k, let again := (fun t => (r.run d t).tree)^[k] out.tree
        again = out.tree ∧ (r.run d again).error = none :=
  run_again_ofContent (Markup.isMarkup_content lead d source) hlead (lead_configure (standard lead) changes)
    fun _ hx => isStandard_of_mem_configure hx

/-- A name that was taken out stands for no directive, and stays on its element in every pass. -/
theorem run_again_paragraph :
    let r := (standard "j:").configure [.removal "foreach", .priority "class" 70]
    let out := r.run .php (Markup.parse "j:" .php "<p j:foreach=a j:html=b>x</p>")
    "j:" ≠ "" ∧ out.error = none ∧ out.tree.attribute? 1 "j:foreach" = some (.code (.expression "a")) ∧
      (∀ e, out.tree.element? 1 = some e → e.has ("j:" ++ "html") = false) ∧
      (r.run .php out.tree).tree = out.tree ∧ (r.run .php out.tree).error = none := by
  let p := fun attributes => Kind.element ⟨"p", ("j:foreach", .code (.expression "a")) :: attributes⟩
  have hout : ((standard "j:").configure [.removal "foreach", .priority "class" 70]).run .php
      (Markup.parse "j:" .php "<p j:foreach=a j:html=b>x</p>") =
        ⟨⟨.cons ⟨0, .document⟩ (.tree ⟨1, p []⟩ (.tree ⟨3, .code (.expression "b")⟩ .nil))
          (.tree ⟨2, .text "x"⟩ .nil), 4, none⟩, [⟨1, "html", some (.code (.expression "b"))⟩], none⟩ := by
    decide +kernel
  have herror := congrArg Run.error hout
  obtain ⟨hnone, hagain⟩ := run_again "j:" "<p j:foreach=a j:html=b>x</p>" (by decide) .php
    [.removal "foreach", .priority "class" 70] herror
  have hmem : 1 ∈ (((standard "j:").configure [.removal "foreach", .priority "class" 70]).run .php
      (Markup.parse "j:" .php "<p j:foreach=a j:html=b>x</p>")).tree.descendants root := by
    rw [hout]
    decide
  have htwice := (hagain 1).1
  rw [Function.iterate_one] at htwice
  refine ⟨by decide, herror, ?_, fun e he => hnone 1 hmem e he "html" (by decide), htwice, (hagain 0).2⟩
  rw [hout]
  rfl

end Registry

end HtmlTemplate
