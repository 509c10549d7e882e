import HtmlTemplate.Proofs.Tree.Navigation

/-! # Edits keep the numbers of the nodes

An edit takes a tree out of the forest and puts it back at another place, so that the numbers in
use before and after it are the same up to order. Only `create` adds numbers, and these are new.
-/

namespace HtmlTemplate

open Forest Context

/-! ## Editing a forest at one node -/

section Edits

variable {f l c r : Forest Node} {ks : Context} {a : Node} (hn : f.ids.Nodup)
  (h : f = close ks (l ++ cons a c r))

include hn h

theorem replaceAt_at (g : Node → Forest Node → Forest Node) :
    f.replaceAt a.id g = close ks (l ++ (g a c ++ r)) := by
  obtain ⟨hk, hl, -, -, hrest⟩ := apart_of_nodup (h ▸ hn)
  rw [h, replaceAt_close g hk hrest, replaceAt_append g hl, replaceAt_cons_self]

theorem remove_at : f.remove a.id = close ks (l ++ r) := by
  rw [remove_eq_replaceAt, replaceAt_at hn h]
  rfl

theorem mapChildren_at (g : Forest Node → Forest Node) :
    f.mapChildren a.id g = close ks (l ++ cons a (g c) r) := by
  rw [mapChildren_eq_replaceAt, replaceAt_at hn h, tree_append]

theorem mapKind_at (g : Kind → Kind) :
    f.mapKind a.id g = close ks (l ++ cons ⟨a.id, g a.kind⟩ c r) := by
  rw [mapKind_eq_replaceAt, replaceAt_at hn h, tree_append]

theorem insertBefore_at (s : Forest Node) :
    insertBefore a.id s f = close ks (l ++ (s ++ cons a c r)) := by
  rw [insertBefore_eq_replaceAt, replaceAt_at hn h, Forest.append_assoc, tree_append]

theorem insertAfter_at (s : Forest Node) :
    insertAfter a.id s f = close ks (l ++ cons a c (s ++ r)) := by
  rw [insertAfter_eq_replaceAt, replaceAt_at hn h, Forest.append_assoc, tree_append]

end Edits

/-- The nodes of a tree may be counted apart from those around it. -/
theorem preorder_close_perm (ks : Context) (l s r : Forest Node) :
    (close ks (l ++ (s ++ r))).preorder.Perm (s.preorder ++ (close ks (l ++ r)).preorder) := by
  have h : ∀ (ks : Context) (f g : Forest Node), f.preorder.Perm (s.preorder ++ g.preorder) →
      (close ks f).preorder.Perm (s.preorder ++ (close ks g).preorder) := by
    intro ks
    induction ks with
    | nil => exact fun f g h => h
    | cons k ks ih =>
      intro f g h
      refine ih _ _ ?_
      simp only [preorder_append, preorder_cons]
      have h₁ : (f.preorder ++ k.after.preorder).Perm
          (s.preorder ++ (g.preorder ++ k.after.preorder)) := by
        rw [← List.append_assoc]
        exact h.append_right _
      have h₂ := ((h₁.cons k.node).trans List.perm_middle.symm).append_left k.before.preorder
      exact h₂.trans (List.perm_append_comm_assoc _ _ _)
  refine h ks _ _ ?_
  simp only [preorder_append]
  exact List.perm_append_comm_assoc _ _ _

/-- Putting `s` somewhere beside or below node `n` adds the nodes of `s`. -/
theorem replaceAt_perm {f s : Forest Node} {n : NodeId} {g : Node → Forest Node → Forest Node}
    (hf : f.ids.Nodup) (hn : n ∈ f.ids)
    (hg : ∀ a c, (g a c).preorder.Perm (s.preorder ++ (tree a c).preorder)) :
    (f.replaceAt n g).preorder.Perm (s.preorder ++ f.preorder) := by
  obtain ⟨ks, l, a, c, r, rfl, h⟩ := exists_close hn
  rw [replaceAt_at hf h]
  have h₁ := preorder_close_perm ks l (g a c) r
  have h₂ : f.preorder.Perm ((tree a c).preorder ++ (close ks (l ++ r)).preorder) := by
    rw [h]
    exact preorder_close_perm ks l (tree a c) r
  refine h₁.trans (((hg a c).append_right _).trans ?_)
  rw [List.append_assoc]
  exact h₂.symm.append_left s.preorder

namespace Tree

variable {t : Tree}

theorem mem_ids_of_parent? {n p : NodeId} (h : t.parent? n = some p) : n ∈ t.forest.ids := by
  refine Classical.byContradiction fun hn => ?_
  rw [parent?_of_not_mem hn] at h
  cases h

theorem mem_ids_of_subtree? {n : NodeId} {s : Forest Node} (h : t.subtree? n = some s) :
    n ∈ t.forest.ids := by
  refine Classical.byContradiction fun hn => ?_
  rw [subtree?, find?_of_not_mem hn] at h
  cases h

/-- A tree taken out of the forest and the forest without it have the nodes of the forest. -/
theorem remove_perm (ht : t.forest.ids.Nodup) {n : NodeId} {s : Forest Node}
    (h : t.subtree? n = some s) :
    (s.preorder ++ (t.forest.remove n).preorder).Perm t.forest.preorder := by
  obtain ⟨ks, l, a, c, r, rfl, hf⟩ := exists_close (mem_ids_of_subtree? h)
  rw [subtree?_at ht hf] at h
  cases h
  rw [remove_at ht hf, hf]
  exact (preorder_close_perm ks l (tree a c) r).symm

/-- What is left of a forest after a tree was taken out, for a node that is not in that tree. -/
theorem mem_remove (ht : t.forest.ids.Nodup) {n m : NodeId} {s : Forest Node}
    (h : t.subtree? n = some s) (hm : m ∈ t.forest.ids) (hs : m ∉ s.ids) :
    m ∈ (t.forest.remove n).ids := by
  have hperm := (remove_perm ht h).map Node.id
  rw [List.map_append] at hperm
  exact (List.mem_append.1 (hperm.mem_iff.2 hm)).resolve_left hs

theorem nodup_remove (ht : t.forest.ids.Nodup) {n : NodeId} {s : Forest Node}
    (h : t.subtree? n = some s) : (t.forest.remove n).ids.Nodup := by
  have hperm := (remove_perm ht h).map Node.id
  rw [List.map_append] at hperm
  exact (List.nodup_append.1 (hperm.nodup_iff.2 ht)).2.1

theorem Numbered.of_perm (ht : t.Numbered) {t' : Tree}
    (h : t'.forest.preorder.Perm t.forest.preorder) (hnext : t'.next = t.next) : t'.Numbered where
  nodup := (h.map Node.id).nodup_iff.2 ht.nodup
  bound n hn := hnext ▸ ht.bound n ((h.map Node.id).mem_iff.1 hn)

/-! ## Edits that move nodes -/

theorem detach_perm (ht : t.forest.ids.Nodup) (n : NodeId) :
    (t.detach n).forest.preorder.Perm t.forest.preorder := by
  unfold Tree.detach
  split
  · rename_i s _ hs
    rw [preorder_append]
    exact List.perm_append_comm.trans (remove_perm ht hs)
  · exact List.Perm.refl _

/-- A tree that is put back elsewhere keeps all nodes, if `place` puts it beside or below the
target. -/
theorem move_perm (ht : t.forest.ids.Nodup) {n target : NodeId} (htarget : target ∈ t.forest.ids)
    {place : Forest Node → Forest Node → Forest Node}
    {g : Forest Node → Node → Forest Node → Forest Node}
    (hplace : ∀ s f, place s f = f.replaceAt target (g s))
    (hg : ∀ s a c, (g s a c).preorder.Perm (s.preorder ++ (tree a c).preorder)) :
    (t.move n target place).forest.preorder.Perm t.forest.preorder := by
  unfold Tree.move
  split
  · rename_i s hs
    split
    · exact List.Perm.refl _
    · rename_i hts
      show (place s (t.forest.remove n)).preorder.Perm t.forest.preorder
      rw [hplace]
      exact (replaceAt_perm (nodup_remove ht hs) (mem_remove ht hs htarget hts) (hg s)).trans
        (remove_perm ht hs)
  · exact List.Perm.refl _

theorem append_perm (ht : t.forest.ids.Nodup) (p n : NodeId) :
    (t.append p n).forest.preorder.Perm t.forest.preorder := by
  unfold Tree.append
  split
  · rename_i x hx
    refine move_perm ht (mem_ids_of_find? hx) (fun s f => mapChildren_eq_replaceAt p _ f) ?_
    intro s a c
    simp only [tree, preorder_cons, preorder_append, preorder_nil, List.append_nil]
    exact (List.perm_append_comm.cons a).trans List.perm_middle.symm
  · exact List.Perm.refl _

theorem prepend_perm (ht : t.forest.ids.Nodup) (p n : NodeId) :
    (t.prepend p n).forest.preorder.Perm t.forest.preorder := by
  unfold Tree.prepend
  split
  · rename_i x hx
    refine move_perm ht (mem_ids_of_find? hx) (fun s f => mapChildren_eq_replaceAt p _ f) ?_
    intro s a c
    simp only [tree, preorder_cons, preorder_append, preorder_nil, List.append_nil]
    exact List.perm_middle.symm
  · exact List.Perm.refl _

theorem insertBefore_perm (ht : t.forest.ids.Nodup) (anchor n : NodeId) :
    (t.insertBefore anchor n).forest.preorder.Perm t.forest.preorder := by
  unfold Tree.insertBefore
  split
  · rename_i p hp
    refine move_perm ht (mem_ids_of_parent? hp) (fun s f => insertBefore_eq_replaceAt anchor s f) ?_
    intro s a c
    rw [preorder_append]
  · exact List.Perm.refl _

theorem insertAfter_perm (ht : t.forest.ids.Nodup) (anchor n : NodeId) :
    (t.insertAfter anchor n).forest.preorder.Perm t.forest.preorder := by
  unfold Tree.insertAfter
  split
  · rename_i p hp
    refine move_perm ht (mem_ids_of_parent? hp) (fun s f => insertAfter_eq_replaceAt anchor s f) ?_
    intro s a c
    rw [preorder_append]
    exact List.perm_append_comm
  · exact List.Perm.refl _

theorem replace_perm (ht : t.forest.ids.Nodup) (old new : NodeId) :
    (t.replace old new).forest.preorder.Perm t.forest.preorder := by
  unfold Tree.replace
  split
  · exact List.Perm.refl _
  · have h := insertBefore_perm ht old new
    exact (detach_perm ((h.map Node.id).nodup_iff.2 ht) old).trans h

theorem clear_perm (ht : t.forest.ids.Nodup) (n : NodeId) :
    (t.clear n).forest.preorder.Perm t.forest.preorder := by
  show (t.forest.mapChildren n (fun _ => nil) ++ t.below n).preorder.Perm t.forest.preorder
  by_cases hn : n ∈ t.forest.ids
  · obtain ⟨ks, l, a, c, r, rfl, h⟩ := exists_close hn
    rw [mapChildren_at ht h, below_at ht h, preorder_append]
    refine List.perm_append_comm.trans ?_
    have h₁ := preorder_close_perm (⟨l, a, r⟩ :: ks) nil c nil
    rw [Forest.append_nil] at h₁
    rw [h]
    exact h₁.symm
  · rw [mapChildren_eq_replaceAt, replaceAt_of_not_mem _ hn, below, find?_of_not_mem hn,
      Forest.append_nil]

/-! ## All edits -/

theorem Numbered.empty : Tree.empty.Numbered where
  nodup := by simp [Tree.empty]
  bound := by simp [Tree.empty, root]

theorem create_preorder (t : Tree) (kind : Kind) :
    ∃ made : List Node, (t.create kind).forest.preorder = t.forest.preorder ++ made ∧
      (made.map Node.id).Nodup ∧ ∀ x ∈ made, t.next ≤ x.id ∧ x.id < (t.create kind).next := by
  unfold Tree.create
  split
  · refine ⟨[⟨t.next, kind⟩, ⟨t.next + 1, .branch⟩, ⟨t.next + 2, .branch⟩], ?_, by simp, ?_⟩
    · simp [tree]
    · intro x hx
      simp only [List.mem_cons, List.not_mem_nil, or_false] at hx
      rcases hx with rfl | rfl | rfl
      · exact ⟨Nat.le_refl _, Nat.lt_add_of_pos_right (by decide)⟩
      · exact ⟨Nat.le_add_right _ _, Nat.add_lt_add_left (by decide) t.next⟩
      · exact ⟨Nat.le_add_right _ _, Nat.add_lt_add_left (by decide) t.next⟩
  · refine ⟨[⟨t.next, kind⟩], ?_, by simp, ?_⟩
    · simp [tree]
    · intro x hx
      rw [List.mem_singleton.1 hx]
      exact ⟨Nat.le_refl _, Nat.lt_succ_self t.next⟩

theorem next_le_create (t : Tree) (kind : Kind) : t.next ≤ (t.create kind).next := by
  unfold Tree.create
  split
  · exact Nat.le_add_right _ _
  · exact Nat.le_add_right _ _

theorem Numbered.create (ht : t.Numbered) (kind : Kind) : (t.create kind).Numbered := by
  obtain ⟨made, hmade, hnodup, hnew⟩ := create_preorder t kind
  have hids : (t.create kind).forest.ids = t.forest.ids ++ made.map Node.id := by
    rw [ids, hmade, List.map_append]
    rfl
  refine ⟨?_, ?_⟩
  · rw [hids]
    refine List.nodup_append.2 ⟨ht.nodup, hnodup, ?_⟩
    intro m hm m' hm'
    obtain ⟨x, hx, rfl⟩ := List.mem_map.1 hm'
    exact Nat.ne_of_lt (Nat.lt_of_lt_of_le (ht.bound m hm) (hnew x hx).1)
  · intro m hm
    rw [hids, List.mem_append] at hm
    rcases hm with hm | hm
    · exact Nat.lt_of_lt_of_le (ht.bound m hm) (next_le_create t kind)
    · obtain ⟨x, hx, rfl⟩ := List.mem_map.1 hm
      exact (hnew x hx).2

theorem next_move (t : Tree) (n target : NodeId) (place : Forest Node → Forest Node → Forest Node) :
    (t.move n target place).next = t.next := by
  unfold Tree.move
  split
  · split <;> rfl
  · rfl

theorem next_detach (t : Tree) (n : NodeId) : (t.detach n).next = t.next := by
  unfold Tree.detach
  split <;> rfl

theorem next_append (t : Tree) (p n : NodeId) : (t.append p n).next = t.next := by
  unfold Tree.append
  split
  · exact next_move ..
  · rfl

theorem next_prepend (t : Tree) (p n : NodeId) : (t.prepend p n).next = t.next := by
  unfold Tree.prepend
  split
  · exact next_move ..
  · rfl

theorem next_insertBefore (t : Tree) (anchor n : NodeId) : (t.insertBefore anchor n).next = t.next := by
  unfold Tree.insertBefore
  split
  · exact next_move ..
  · rfl

theorem next_insertAfter (t : Tree) (anchor n : NodeId) : (t.insertAfter anchor n).next = t.next := by
  unfold Tree.insertAfter
  split
  · exact next_move ..
  · rfl

theorem next_replace (t : Tree) (old new : NodeId) : (t.replace old new).next = t.next := by
  unfold Tree.replace
  split
  · rfl
  · rw [next_detach, next_insertBefore]

/-- Numbers that were given are not given again. -/
theorem next_le_apply (t : Tree) (e : Edit) : t.next ≤ (e.apply t).next := by
  cases e with
  | create kind => exact next_le_create t kind
  | append p n => exact Nat.le_of_eq (next_append t p n).symm
  | prepend p n => exact Nat.le_of_eq (next_prepend t p n).symm
  | insertBefore anchor n => exact Nat.le_of_eq (next_insertBefore t anchor n).symm
  | insertAfter anchor n => exact Nat.le_of_eq (next_insertAfter t anchor n).symm
  | replace old new => exact Nat.le_of_eq (next_replace t old new).symm
  | detach n => exact Nat.le_of_eq (next_detach t n).symm
  | clear n => exact Nat.le_refl _
  | mark n => exact Nat.le_refl _

theorem Numbered.detach (ht : t.Numbered) (n : NodeId) : (t.detach n).Numbered :=
  ht.of_perm (detach_perm ht.nodup n) (next_detach t n)

theorem Numbered.append (ht : t.Numbered) (p n : NodeId) : (t.append p n).Numbered :=
  ht.of_perm (append_perm ht.nodup p n) (next_append t p n)

theorem Numbered.prepend (ht : t.Numbered) (p n : NodeId) : (t.prepend p n).Numbered :=
  ht.of_perm (prepend_perm ht.nodup p n) (next_prepend t p n)

theorem Numbered.insertBefore (ht : t.Numbered) (anchor n : NodeId) : (t.insertBefore anchor n).Numbered :=
  ht.of_perm (insertBefore_perm ht.nodup anchor n) (next_insertBefore t anchor n)

theorem Numbered.insertAfter (ht : t.Numbered) (anchor n : NodeId) : (t.insertAfter anchor n).Numbered :=
  ht.of_perm (insertAfter_perm ht.nodup anchor n) (next_insertAfter t anchor n)

theorem Numbered.replace (ht : t.Numbered) (old new : NodeId) : (t.replace old new).Numbered := by
  unfold Tree.replace
  split
  · exact ht
  · exact (ht.insertBefore old new).detach old

theorem Numbered.clear (ht : t.Numbered) (n : NodeId) : (t.clear n).Numbered :=
  ht.of_perm (clear_perm ht.nodup n) rfl

theorem ids_mapElement (ht : t.forest.ids.Nodup) (n : NodeId) (g : Element → Element) :
    (t.mapElement n g).forest.ids = t.forest.ids := by
  show (t.forest.mapKind n (Kind.mapElement g)).ids = t.forest.ids
  by_cases hn : n ∈ t.forest.ids
  · obtain ⟨ks, l, a, c, r, rfl, h⟩ := exists_close hn
    rw [mapKind_at ht h, h]
    simp [ids_close]
  · rw [mapKind_eq_replaceAt, replaceAt_of_not_mem _ hn]

theorem Numbered.mapElement (ht : t.Numbered) (n : NodeId) (g : Element → Element) :
    (t.mapElement n g).Numbered := by
  have hids := ids_mapElement ht.nodup n g
  exact ⟨hids ▸ ht.nodup, hids ▸ ht.bound⟩

theorem Numbered.apply (ht : t.Numbered) (e : Edit) : (e.apply t).Numbered := by
  cases e with
  | create kind => exact ht.create kind
  | append p n => exact ht.append p n
  | prepend p n => exact ht.prepend p n
  | insertBefore anchor n => exact ht.insertBefore anchor n
  | insertAfter anchor n => exact ht.insertAfter anchor n
  | replace old new => exact ht.replace old new
  | detach n => exact ht.detach n
  | clear n => exact ht.clear n
  | mark n => exact ⟨ht.nodup, ht.bound⟩

theorem Numbered.edit (ht : t.Numbered) (edits : List Edit) : (t.edit edits).Numbered := by
  induction edits generalizing t with
  | nil => exact ht
  | cons e edits ih => exact ih (ht.apply e)

theorem subset_apply (ht : t.Numbered) (e : Edit) :
    t.forest.preorder ⊆ (e.apply t).forest.preorder := by
  cases e with
  | create kind =>
    obtain ⟨made, hmade, -, -⟩ := create_preorder t kind
    exact fun x hx => hmade ▸ List.mem_append_left made hx
  | append p n => exact (append_perm ht.nodup p n).symm.subset
  | prepend p n => exact (prepend_perm ht.nodup p n).symm.subset
  | insertBefore anchor n => exact (insertBefore_perm ht.nodup anchor n).symm.subset
  | insertAfter anchor n => exact (insertAfter_perm ht.nodup anchor n).symm.subset
  | replace old new => exact (replace_perm ht.nodup old new).symm.subset
  | detach n => exact (detach_perm ht.nodup n).symm.subset
  | clear n => exact (clear_perm ht.nodup n).symm.subset
  | mark n => exact fun x hx => hx

end Tree

end HtmlTemplate
