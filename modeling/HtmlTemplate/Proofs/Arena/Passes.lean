import HtmlTemplate.Proofs.Arena.Refinement
import HtmlTemplate.Proofs.Directive.Trace

/-! # Passes in an arena

The steps of a pass can be taken in an arena as well as in a forest. A step that is sound in the tree does the same
to an arena that stores it (`Stores.step`). There is an arena that stores the document that was read, and it stores
each tree to which the steps of a pass lead (`stores_trace`), with links that agree.
-/

namespace HtmlTemplate

open Forest Context

/-- A step, taken in an arena. -/
def Step.patch (a : Arena) : Step → Arena
  | edit e => e.patch a
  | element n f => a.mapElement n f

/-- The arena after a list of steps. -/
def Arena.follow (a : Arena) (steps : List Step) : Arena :=
  steps.foldl Step.patch a

/-! ## Changes of elements -/

namespace Arena

variable {a : Arena} {t : Tree} {n p : NodeId}

theorem getElem?_mapElement (a : Arena) (n m : NodeId) (f : Element → Element) :
    (a.mapElement n f).slots[m]? =
      if n = m then a.slots[m]?.map (fun s => { s with kind := s.kind.mapElement f }) else a.slots[m]? :=
  Array.getElem?_modify

theorem links_mapElement (a : Arena) (n : NodeId) (f : Element → Element) :
    (a.mapElement n f).links = a.links := by
  funext m
  rw [links, links, getElem?_mapElement]
  split
  · rw [Option.map_map]
    rfl
  · rfl

theorem kind?_mapElement (a : Arena) (n m : NodeId) (f : Element → Element) :
    (a.mapElement n f).kind? m = if m = n then (a.kind? m).map (Kind.mapElement f) else a.kind? m := by
  rw [kind?, kind?, getElem?_mapElement]
  by_cases hm : m = n
  · rw [if_pos hm.symm, if_pos hm, Option.map_map, Option.map_map]
    rfl
  · rw [if_neg (Ne.symm hm), if_neg hm]

namespace Stores

variable (h : a.Stores t)

include h

theorem mapElement (n : NodeId) (f : Element → Element) : (a.mapElement n f).Stores (t.mapElement n f) where
  numbered := h.numbered.mapElement n f
  size := (Array.size_modify ..).trans h.size
  kind m := by rw [kind?_mapElement, Tree.kind?_mapElement h.numbered.nodup, h.kind]
  links := by
    have hchildren : (t.mapElement n f).children = t.children := by
      funext m
      rw [Tree.children_eq_childIds, Tree.children_eq_childIds]
      exact childIds_mapKind n m (Kind.mapElement f) t.forest
    have hstrung := Tree.strung_of_nodup (h.numbered.mapElement n f).nodup
    rw [hchildren] at hstrung
    rw [links_mapElement]
    exact h.holds.links_eq hstrung
  marked := h.marked

/-! ## Sound steps -/

theorem lt_size {kinds : Kind → Bool} (hn : t.IsKind kinds n) : n < a.size := by
  rw [h.size]
  exact h.numbered.bound n hn.mem_ids

theorem lt_size_of_fits {e : Edit} (hfits : e.Fits t) (hmark : ∀ n, e ≠ .mark n) :
    ∀ m ∈ e.nodes, m < a.size := by
  cases e with
  | create kind => exact List.forall_mem_nil _
  | append | prepend | insertBefore | insertAfter | replace =>
    exact List.forall_mem_cons.2 ⟨h.lt_size hfits.1, List.forall_mem_singleton.2 (h.lt_size hfits.2)⟩
  | detach | clear => exact List.forall_mem_singleton.2 (h.lt_size hfits)
  | mark n => exact absurd rfl (hmark n)

theorem not_above_of_acyclic {e : Edit} (hfits : e.Fits t) (hcyclic : ¬ e.Cyclic t)
    (hmoves : a.moves? e = some (n, p)) : ¬ Above a.links n p := by
  intro habove
  have hchild (hparent : (a.links n).parent = some p) : False :=
    h.holds.grounded.not_above_parent hparent habove
  have hbeside {anchor : NodeId} (hp : (a.links anchor).parent = some p) :
      ∃ q, t.parent? anchor = some q ∧ t.IsAbove n q := by
    refine ⟨p, ?_, (h.above_iff (h.holds.parent_lt_size hp)).1 habove⟩
    rwa [h.links] at hp
  cases e with
  | append q m =>
    obtain ⟨rfl, rfl⟩ := Prod.mk.inj (Option.some.inj hmoves)
    exact hcyclic ((h.above_iff (h.lt_size hfits.1)).1 habove)
  | prepend q m =>
    obtain ⟨rfl, rfl⟩ := Prod.mk.inj (Option.some.inj hmoves)
    have hon := (h.above_iff (h.lt_size hfits.1)).1 habove
    rw [Edit.Cyclic] at hcyclic
    split at hcyclic
    · rename_i first hfirst
      refine hcyclic ⟨?_, hon⟩
      rintro rfl
      exact hchild (h.holds.parent_of_first (by rwa [h.links]))
    · exact hcyclic hon
  | insertBefore anchor m =>
    obtain ⟨hne, rfl, hp⟩ := beside?_eq_some.1 hmoves
    exact hcyclic ⟨hne, hbeside hp⟩
  | insertAfter anchor m =>
    obtain ⟨hne, rfl, hp⟩ := beside?_eq_some.1 hmoves
    refine hcyclic ⟨hne, fun hnext => hchild (h.holds.parent_of_next hp ?_), hbeside hp⟩
    rwa [h.links]
  | replace old new =>
    obtain ⟨hne, rfl, hp⟩ := beside?_eq_some.1 hmoves
    exact hcyclic ⟨hne, hbeside hp⟩
  | create | detach | clear | mark => cases hmoves

/-- A step that is sound in the tree does the same to the arena. -/
theorem step {s : Step} (hsound : s.Sound t) : (s.patch a).Stores (s.apply t) := by
  cases s with
  | element n f => exact h.mapElement n f
  | edit e =>
    obtain ⟨hfits, hcyclic⟩ := hsound
    by_cases hmark : ∃ n, e = .mark n
    · obtain ⟨n, rfl⟩ := hmark
      exact h.mark n
    · exact h.patch_of_not_above (h.lt_size_of_fits hfits fun n hn => hmark ⟨n, hn⟩)
        fun hmoves => h.not_above_of_acyclic hfits hcyclic hmoves

theorem follow {steps : List Step} (hsound : t.Sound steps) : (a.follow steps).Stores (t.follow steps) := by
  induction steps generalizing a t with
  | nil => exact h
  | cons s steps ih => exact ih (h.step hsound.1) hsound.2

end Stores

/-! ## The arena of a document -/

/-- The arena that stores a tree. -/
def ofTree (t : Tree) : Arena :=
  ⟨Array.ofFn fun n : Fin t.next => ⟨t.links n, (t.kind? n).getD .document⟩, t.marked⟩

theorem stores_ofTree (ht : t.Numbered) (hids : ∀ n < t.next, n ∈ t.forest.ids) : (ofTree t).Stores t := by
  have hslot (n : NodeId) : (ofTree t).slots[n]? =
      if n < t.next then some ⟨t.links n, (t.kind? n).getD .document⟩ else none := by
    rw [ofTree, Array.getElem?_ofFn]
    split <;> rfl
  have hout (n : NodeId) (hn : ¬ n < t.next) : n ∉ t.forest.ids := fun hmem => hn (ht.bound n hmem)
  refine ⟨ht, Array.size_ofFn, fun n => ?_, funext fun n => ?_, rfl⟩
  · rw [kind?, hslot]
    split
    · rename_i hn
      obtain ⟨⟨k, c⟩, hfind⟩ := exists_find? (hids n hn)
      rw [Tree.kind?, Tree.find?, hfind]
      rfl
    · rename_i hn
      rw [Tree.kind?, Tree.find?_of_not_mem (hout n hn)]
      rfl
  · rw [links, hslot]
    split
    · rfl
    · rename_i hn
      exact (Tree.links_of_not_mem (hout n hn)).symm

/-- A document that was read is stored in an arena, and after any number of steps of a pass the arena stores the
tree to which they lead. Its links agree all the time. -/
theorem stores_trace (lead source : String) (d : Dialect) (changes : List (String × Int)) (k : Nat) :
    let r := (Registry.standard lead).prioritize changes
    let t := Markup.parse lead d source
    let steps := (r.trace d t).take k
    ((ofTree t).follow steps).Stores (t.follow steps) ∧ Linked ((ofTree t).follow steps).links := by
  intro r t steps
  have hr : ∀ x ∈ r.directives, x.IsStandard := fun x hx => Registry.isStandard_of_mem hx
  have ht : t.Shaped := Markup.shaped_parse lead d source
  have hsound := (Registry.plays_run hr d ht.numbered).1.sound ht
  rw [← List.take_append_drop k (List.flatMap _ _), Tree.sound_append] at hsound
  have hids : ∀ n < t.next, n ∈ t.forest.ids := by
    intro n hn
    rw [show t.forest.ids = _ from Tree.ids_ofContent _]
    exact List.mem_range.2 hn
  have hstores := (stores_ofTree ht.numbered hids).follow hsound.1
  exact ⟨hstores, hstores.holds.linked⟩

end Arena

end HtmlTemplate
