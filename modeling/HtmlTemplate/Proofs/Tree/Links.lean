import HtmlTemplate.Proofs.Tree.Linked
import HtmlTemplate.Proofs.Tree.Numbering

/-! # Links in a forest

What a node of a forest is linked to is read off the forest. As long as no number occurs twice, the links agree
with one another (`linked_of_nodup`) and hold the lists of children (`strung_of_nodup`).
-/

namespace HtmlTemplate

open Forest Context

def Tree.links (t : Tree) (n : NodeId) : Links :=
  ⟨t.parent? n, t.previousSibling? n, t.nextSibling? n, t.firstChild? n, t.lastChild? n⟩

/-- A list of siblings is cut at a node as the forest is cut at its tree. -/
theorem exists_root_of_rootIds {f : Forest Node} {l₁ l₂ : List NodeId} {n : NodeId}
    (h : f.rootIds = l₁ ++ n :: l₂) :
    ∃ (l : Forest Node) (a : Node) (c r : Forest Node),
      a.id = n ∧ f = l ++ cons a c r ∧ l.rootIds = l₁ ∧ r.rootIds = l₂ := by
  induction f generalizing l₁ with
  | nil => simp at h
  | cons b d s _ ih =>
    cases l₁ with
    | nil =>
      obtain ⟨hb, hs⟩ := List.cons.inj h
      exact ⟨nil, b, d, s, hb, rfl, rfl, hs⟩
    | cons m l₁ =>
      obtain ⟨hb, hs⟩ := List.cons.inj h
      obtain ⟨l, a, c, r, ha, hf, hl, hr⟩ := ih hs
      refine ⟨cons b d l, a, c, r, ha, by rw [hf]; rfl, ?_, hr⟩
      rw [rootIds_cons, hb, hl]

namespace Tree

variable {t : Tree}

/-! ## Children -/

section Children

variable {ks : Context} {l c r : Forest Node} {a : Node} (ht : t.forest.ids.Nodup)
  (h : t.forest = close ks (l ++ cons a c r))

include ht h

theorem along_next_at : Along t.nextSibling? (t.firstChild? a.id) c.rootIds := by
  have hfirst : t.firstChild? a.id = c.rootIds.head? := by
    rw [firstChild?, below_at ht h, first?_map_id]
  rw [hfirst]
  refine along_of_next fun l₁ n l₂ hc => ?_
  obtain ⟨l', b, d, r', rfl, rfl, -, rfl⟩ := exists_root_of_rootIds hc
  have hb : t.forest = close (⟨l, a, r⟩ :: ks) (l' ++ cons b d r') := h
  exact nextSibling?_at ht hb (List.cons_ne_nil _ _)

theorem along_previous_at : Along t.previousSibling? (t.lastChild? a.id) c.rootIds.reverse := by
  rw [lastChild?, children_at ht h]
  refine along_of_previous fun l₁ n l₂ hc => ?_
  obtain ⟨l', b, d, r', rfl, rfl, rfl, -⟩ := exists_root_of_rootIds hc
  have hb : t.forest = close (⟨l, a, r⟩ :: ks) (l' ++ cons b d r') := h
  exact previousSibling?_at ht hb (List.cons_ne_nil _ _)

theorem mem_children_iff_at (n : NodeId) : n ∈ c.rootIds ↔ t.parent? n = some a.id := by
  constructor
  · intro hn
    obtain ⟨l', b, d, r', rfl, rfl⟩ := exists_root hn
    have hb : t.forest = close (⟨l, a, r⟩ :: ks) (l' ++ cons b d r') := h
    exact parent?_at ht hb
  · intro hn
    obtain ⟨k, ks', l', b, d, r', rfl, hk, hb⟩ := exists_of_parent? ht hn
    have hp : t.forest = close ks' (k.before ++ cons k.node (l' ++ cons b d r') k.after) := hb
    have hchildren : c.rootIds = (l' ++ cons b d r').rootIds := by
      rw [← children_at ht h, ← hk, children_at ht hp]
    rw [hchildren]
    simp

theorem nodup_children_at : c.rootIds.Nodup := by
  have hc := h ▸ ht
  rw [ids_close, ids_append, ids_cons] at hc
  simp only [List.nodup_append, List.nodup_cons] at hc
  exact (rootIds_sublist_ids c).nodup hc.2.1.1.2.1.2.1

end Children

theorem along_parent_at (ht : t.forest.ids.Nodup) {ks : Context} {l c r : Forest Node} {a : Node}
    (h : t.forest = close ks (l ++ cons a c r)) : Along t.parent? (some a.id) (a.id :: above ks) := by
  induction ks generalizing l a c r with
  | nil =>
    refine Along.step ?_
    rw [parent?_at ht h]
    exact Along.done
  | cons k ks ih =>
    refine Along.step ?_
    rw [parent?_at ht h]
    have hk : t.forest = close ks (k.before ++ cons k.node (l ++ cons a c r) k.after) := h
    exact ih hk

theorem beside_of_parent?_eq_none {n : NodeId} (hn : t.parent? n = none) :
    t.previousSibling? n = none ∧ t.nextSibling? n = none := by
  rw [previousSibling?, nextSibling?, siblings, hn]
  exact ⟨rfl, rfl⟩

/-- A number that no node has is linked to nothing. -/
theorem links_of_not_mem {n : NodeId} (hn : n ∉ t.forest.ids) : t.links n = .bare := by
  have hparent := parent?_of_not_mem hn
  obtain ⟨hprevious, hnext⟩ := beside_of_parent?_eq_none hparent
  have hbelow : t.below n = nil := by rw [below, find?_of_not_mem hn]
  rw [links, hparent, hprevious, hnext, firstChild?, lastChild?, children, hbelow]
  rfl

/-- Different numbers are enough for the links to agree. -/
theorem linked_of_nodup (ht : t.forest.ids.Nodup) : Linked t.links where
  children := by
    intro p
    by_cases hp : p ∈ t.forest.ids
    · obtain ⟨ks, l, a, c, r, rfl, h⟩ := exists_close hp
      exact ⟨c.rootIds, nodup_children_at ht h, along_next_at ht h, along_previous_at ht h,
        mem_children_iff_at ht h⟩
    · rw [links_of_not_mem hp]
      refine ⟨[], List.nodup_nil, Along.done, Along.done, fun n => ?_⟩
      refine ⟨fun hn => absurd hn List.not_mem_nil, fun hn => ?_⟩
      obtain ⟨k, ks, l, a, c, r, -, rfl, h⟩ := exists_of_parent? ht hn
      refine absurd ?_ hp
      rw [h, ids_close, leading_cons]
      simp
  alone n hn := beside_of_parent?_eq_none hn
  grounded := by
    intro n
    by_cases hn : n ∈ t.forest.ids
    · obtain ⟨ks, l, a, c, r, rfl, h⟩ := exists_close hn
      exact ⟨_, along_parent_at ht h⟩
    · refine ⟨[n], Along.step ?_⟩
      show Along _ (t.parent? n) []
      rw [parent?_of_not_mem hn]
      exact Along.done

theorem strung_of_nodup (ht : t.forest.ids.Nodup) : Strung t.links t.children := by
  obtain ⟨lists, hlists⟩ := (linked_of_nodup ht).exists_strung
  have hchildren : t.children = lists := by
    funext p
    have halong := hlists.along_next p
    by_cases hp : p ∈ t.forest.ids
    · obtain ⟨ks, l, a, c, r, rfl, h⟩ := exists_close hp
      rw [children_at ht h]
      exact (along_next_at ht h).unique halong
    · rw [links_of_not_mem hp] at halong
      rw [children, below, find?_of_not_mem hp]
      exact Along.done.unique halong
  rwa [hchildren]

end Tree

end HtmlTemplate
