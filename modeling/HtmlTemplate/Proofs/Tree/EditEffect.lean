import HtmlTemplate.Proofs.Tree.ChildLists

/-! # Edits as edits of child lists

Every edit of a tree is an edit of the lists of children: a node is taken out of the list that it is in (`Detached`)
and put into another one, at the place that the edit names (`Moved`), and all else stays as it is.
-/

namespace HtmlTemplate

open Forest Context

namespace Tree

variable {t t' : Tree} {m n p target : NodeId} {k : Kind} {c : Forest Node}

/-! ## What an edit leaves alone -/

/-- Every node is what it was, the same one is marked, and the links agree. -/
structure Kept (t t' : Tree) : Prop where
  kind : ∀ m, t'.kind? m = t.kind? m
  marked : t'.marked = t.marked
  linked : Linked t'.links

theorem Kept.of_perm (ht : t.Numbered) (h : t'.forest.preorder.Perm t.forest.preorder)
    (hmarked : t'.marked = t.marked) : Kept t t' := by
  have ht' : t'.forest.ids.Nodup := (h.map Node.id).nodup_iff.2 ht.nodup
  refine ⟨fun m => Option.ext fun k => ?_, hmarked, linked_of_nodup ht'⟩
  rw [kind?_eq_some_iff ht', kind?_eq_some_iff ht.nodup, h.mem_iff]

theorem Kept.trans {t'' : Tree} (h : Kept t t') (h' : Kept t' t'') : Kept t t'' :=
  ⟨fun m => (h'.kind m).trans (h.kind m), h'.marked.trans h.marked, h'.linked⟩

/-- Node `n` was moved with all below it to below `p`, whose children are `list` now. It is gone from where it was, no
other child list has changed, and a subtree that holds neither `n` nor `p` has not changed at all. -/
structure Moved (t t' : Tree) (n p : NodeId) (list : List NodeId) : Prop extends Kept t t' where
  here : t'.children p = list
  elsewhere : ∀ m, m ≠ p → t'.children m = t.others n m
  untouched : ∀ m, m ≠ p → t.parent? n ≠ some m → t'.children m = t.children m
  subtree : t'.below n = t.below n
  subtrees : ∀ m, n ∉ (t.below m).ids → p ∉ t.descendants m → t'.below m = t.below m

/-- Node `n` was taken out with all below it. Its former parent has lost it, no other child list has changed, and a
subtree that did not hold `n` has not changed at all. -/
structure Detached (t t' : Tree) (n : NodeId) : Prop extends Kept t t' where
  loose : t'.parent? n = none
  children : ∀ m, t'.children m = t.others n m
  untouched : ∀ m, t.parent? n ≠ some m → t'.children m = t.children m
  subtrees : ∀ m, n ∉ (t.below m).ids → t'.below m = t.below m

/-- All children of `p` were taken out, each with all below it. -/
structure Cleared (t t' : Tree) (p : NodeId) : Prop extends Kept t t' where
  here : t'.children p = []
  untouched : ∀ m, m ≠ p → t'.children m = t.children m
  loose : ∀ n ∈ t.children p, t'.parent? n = none ∧ t'.below n = t.below n

/-! ## Moving a node -/

section Moving

variable {js ks : Context} {l d r l' r' pre first last post : Forest Node} {b : Node} (ht : t.Numbered)
  (hfind : t.find? n = some (k, c)) (hremoved : t.forest.remove n = close js (l ++ cons b d r))
  (hd : d.rootIds = t.others n b.id) (hout : b.id ∉ t.descendants n)
  (hperm : t'.forest.preorder.Perm t.forest.preorder) (hmarked : t'.marked = t.marked)
  (hself : t'.forest = close ks (l' ++ cons ⟨n, k⟩ c r'))

include ht hfind hremoved hd hout hperm hmarked hself

/-- A node that was put below another one, before or after its children. -/
theorem moved_below (htarget : b.id ∈ t.forest.ids)
    (hplaced : t'.forest = close js (l ++ cons b (first ++ (d ++ last)) r))
    (hnew : ∀ i, i ∈ first.ids ∨ i ∈ last.ids → i ∈ t.descendants n) :
    Moved t t' n b.id (first.rootIds ++ (t.others n b.id ++ last.rootIds)) := by
  have hkept := Kept.of_perm ht hperm hmarked
  have ht' : t'.forest.ids.Nodup := (hperm.map Node.id).nodup_iff.2 ht.nodup
  have hself := find?_at ht' hself
  have ht := ht.nodup
  have hplaced' : t'.forest = close js (l ++ (nil ++ cons b (first ++ (d ++ last)) (nil ++ r))) := hplaced
  have helsewhere : ∀ m, m ≠ b.id → t'.children m = t.others n m := by
    intro m hm
    rw [children_placed ht hfind hremoved ht' hself hplaced' (by simpa using hnew) hout hm]
    exact flatMap_place_self b.id _
  refine ⟨hkept, ?_, helsewhere, fun m hm hparent => ?_, ?_, fun m hn hb => ?_⟩
  · rw [children_at ht' hplaced, rootIds_append, rootIds_append, hd]
  · rw [helsewhere m hm, others_of_parent?_ne ht hparent]
  · rw [below, below, hself, hfind]
  · have hm : m ≠ b.id := fun he => hb (he ▸ mem_descendants_self (he ▸ htarget))
    exact below_placed ht hfind hremoved ht' hself hplaced' (by simpa using hnew) hm hn fun h =>
      hb (mem_descendants_of_mem_below h)

/-- A node that was put beside another one. -/
theorem moved_beside (hparent : t.parent? b.id = some p)
    (hplaced : t'.forest = close js (l ++ (pre ++ cons b d (post ++ r))))
    (hnew : ∀ i, i ∈ pre.ids ∨ i ∈ post.ids → i ∈ t.descendants n) :
    ∃ l₁ l₂, t.others n p = l₁ ++ b.id :: l₂ ∧
      Moved t t' n p (l₁ ++ (pre.rootIds ++ b.id :: post.rootIds) ++ l₂) := by
  have hkept := Kept.of_perm ht hperm hmarked
  have ht' : t'.forest.ids.Nodup := (hperm.map Node.id).nodup_iff.2 ht.nodup
  have hself := find?_at ht' hself
  have ht := ht.nodup
  obtain ⟨l₁, l₂, hsplit, hapart⟩ := exists_split_others ht hfind hparent hout
  have hplaced' : t'.forest = close js (l ++ (pre ++ cons b (nil ++ (d ++ nil)) (post ++ r))) := by
    rw [hplaced, Forest.append_nil, Forest.nil_append]
  have hnew' : ∀ i, i ∈ pre.ids ∨ i ∈ (nil : Forest Node).ids ∨ i ∈ (nil : Forest Node).ids ∨ i ∈ post.ids →
      i ∈ t.descendants n := by simpa using hnew
  have hplace {m : NodeId} (hm : m ≠ b.id) := children_placed ht hfind hremoved ht' hself hplaced' hnew' hout hm
  have hb : t'.forest = close js ((l ++ pre) ++ cons b d (post ++ r)) := by rw [hplaced, Forest.append_assoc]
  have helsewhere : ∀ m, m ≠ p → t'.children m = t.others n m := by
    intro m hm
    by_cases hmb : m = b.id
    · rw [hmb, children_at ht' hb, hd]
    · rw [hplace hmb, flatMap_place_of_not_mem]
      intro hmem
      have hparent' := (mem_children_iff ht).1 (List.mem_filter.1 hmem).1
      exact hm (Option.some.inj (hparent'.symm.trans hparent))
  refine ⟨l₁, l₂, hsplit, hkept, ?_, helsewhere, fun m hm hne => ?_, ?_, fun m hn hp => ?_⟩
  · have hp : p ≠ b.id := by
      rintro rfl
      exact parent_not_mem_descendants ht hparent (mem_descendants_self (mem_ids_of_parent? hparent))
    rw [hplace hp, hsplit, flatMap_place_middle hapart]
  · rw [helsewhere m hm, others_of_parent?_ne ht hne]
  · rw [below, below, hself, hfind]
  · by_cases hmb : m = b.id
    · subst hmb
      have hfound := find?_at (t := { t with forest := t.forest.remove n })
        (nodup_remove ht (subtree?_of_find? hfind)) hremoved
      rw [find?, find?_remove_of_not_mem ht hfind hout hn] at hfound
      rw [below_at ht' hb, below, hfound]
    · refine below_placed ht hfind hremoved ht' hself hplaced' hnew' hmb hn fun hb => hp ?_
      exact parent_mem_descendants ht hparent hb

end Moving

/-! ## The edits -/

theorem ids_tree_of_find? (hfind : t.find? n = some (k, c)) : (tree ⟨n, k⟩ c).ids = t.descendants n := by
  rw [ids_tree, descendants_of_find? hfind]

theorem move_of_not_mem (hfind : t.find? n = some (k, c)) (hout : target ∉ t.descendants n)
    (place : Forest Node → Forest Node → Forest Node) :
    t.move n target place = { t with forest := place (tree ⟨n, k⟩ c) (t.forest.remove n) } := by
  rw [Tree.move, subtree?_of_find? hfind]
  exact if_neg (ids_tree_of_find? hfind ▸ hout)

theorem move_self (t : Tree) (n : NodeId) (place : Forest Node → Forest Node → Forest Node) :
    t.move n n place = t := by
  unfold Tree.move subtree?
  cases h : t.find? n with
  | none => rfl
  | some x => exact if_pos (by rw [ids_tree]; exact List.mem_cons_self)

section Edits

variable (ht : t.Numbered) (hfind : t.find? n = some (k, c))

include ht hfind

theorem moved_append (hp : p ∈ t.forest.ids) (hout : p ∉ t.descendants n) :
    Moved t (t.append p n) n p (t.others n p ++ [n]) := by
  obtain ⟨x, hx⟩ := exists_find? hp
  have hmove : t.append p n = { t with forest := (t.forest.remove n).mapChildren p (· ++ tree ⟨n, k⟩ c) } := by
    rw [Tree.append, find?, hx]
    exact move_of_not_mem hfind hout _
  obtain ⟨js, l, b, d, r, rfl, hremoved, hd⟩ := exists_target ht.nodup hfind hp hout
  have hplaced : (t.append b.id n).forest = close js (l ++ cons b (nil ++ (d ++ tree ⟨n, k⟩ c)) r) := by
    rw [hmove]
    exact mapChildren_at (nodup_remove ht.nodup (subtree?_of_find? hfind)) hremoved _
  have hself : (t.append b.id n).forest = close (⟨l, b, r⟩ :: js) (d ++ cons ⟨n, k⟩ c nil) := hplaced
  refine moved_below ht hfind hremoved hd hout (append_perm ht.nodup b.id n) (by rw [hmove]) hself hp hplaced ?_
  exact fun i hi => ids_tree_of_find? hfind ▸ hi.resolve_left List.not_mem_nil

theorem moved_prepend (hp : p ∈ t.forest.ids) (hout : p ∉ t.descendants n) :
    Moved t (t.prepend p n) n p (n :: t.others n p) := by
  obtain ⟨x, hx⟩ := exists_find? hp
  have hmove : t.prepend p n = { t with forest := (t.forest.remove n).mapChildren p (tree ⟨n, k⟩ c ++ ·) } := by
    rw [Tree.prepend, find?, hx]
    exact move_of_not_mem hfind hout _
  obtain ⟨js, l, b, d, r, rfl, hremoved, hd⟩ := exists_target ht.nodup hfind hp hout
  have hplaced : (t.prepend b.id n).forest = close js (l ++ cons b (tree ⟨n, k⟩ c ++ (d ++ nil)) r) := by
    rw [hmove, Forest.append_nil]
    exact mapChildren_at (nodup_remove ht.nodup (subtree?_of_find? hfind)) hremoved _
  have hself : (t.prepend b.id n).forest = close (⟨l, b, r⟩ :: js) (nil ++ cons ⟨n, k⟩ c (d ++ nil)) := hplaced
  have hmoved := moved_below ht hfind hremoved hd hout (prepend_perm ht.nodup b.id n) (by rw [hmove]) hself hp hplaced
    fun i hi => ids_tree_of_find? hfind ▸ hi.resolve_right List.not_mem_nil
  rwa [rootIds_nil, List.append_nil] at hmoved

theorem moved_insertBefore (hp : t.parent? target = some p) (hout : target ∉ t.descendants n) :
    ∃ l r, t.others n p = l ++ target :: r ∧ Moved t (t.insertBefore target n) n p (l ++ n :: target :: r) := by
  have hmove : t.insertBefore target n =
      { t with forest := Forest.insertBefore target (tree ⟨n, k⟩ c) (t.forest.remove n) } := by
    rw [Tree.insertBefore, hp]
    exact move_of_not_mem hfind hout _
  obtain ⟨js, l, b, d, r, rfl, hremoved, hd⟩ := exists_target ht.nodup hfind (mem_ids_of_parent? hp) hout
  have hplaced : (t.insertBefore b.id n).forest = close js (l ++ (tree ⟨n, k⟩ c ++ cons b d (nil ++ r))) := by
    rw [hmove]
    exact insertBefore_at (nodup_remove ht.nodup (subtree?_of_find? hfind)) hremoved _
  have hself : (t.insertBefore b.id n).forest = close js (l ++ cons ⟨n, k⟩ c (cons b d r)) := hplaced
  obtain ⟨l₁, l₂, hsplit, hmoved⟩ := moved_beside ht hfind hremoved hd hout (insertBefore_perm ht.nodup b.id n)
    (by rw [hmove]) hself hp hplaced fun i hi => ids_tree_of_find? hfind ▸ hi.resolve_right List.not_mem_nil
  rw [List.append_assoc] at hmoved
  exact ⟨l₁, l₂, hsplit, hmoved⟩

theorem moved_insertAfter (hp : t.parent? target = some p) (hout : target ∉ t.descendants n) :
    ∃ l r, t.others n p = l ++ target :: r ∧ Moved t (t.insertAfter target n) n p (l ++ target :: n :: r) := by
  have hmove : t.insertAfter target n =
      { t with forest := Forest.insertAfter target (tree ⟨n, k⟩ c) (t.forest.remove n) } := by
    rw [Tree.insertAfter, hp]
    exact move_of_not_mem hfind hout _
  obtain ⟨js, l, b, d, r, rfl, hremoved, hd⟩ := exists_target ht.nodup hfind (mem_ids_of_parent? hp) hout
  have hplaced : (t.insertAfter b.id n).forest = close js (l ++ (nil ++ cons b d (tree ⟨n, k⟩ c ++ r))) := by
    rw [hmove]
    exact insertAfter_at (nodup_remove ht.nodup (subtree?_of_find? hfind)) hremoved _
  have hself : (t.insertAfter b.id n).forest = close js ((l ++ tree b d) ++ cons ⟨n, k⟩ c r) := by
    rw [hplaced, Forest.append_assoc]
    rfl
  obtain ⟨l₁, l₂, hsplit, hmoved⟩ := moved_beside ht hfind hremoved hd hout (insertAfter_perm ht.nodup b.id n)
    (by rw [hmove]) hself hp hplaced fun i hi => ids_tree_of_find? hfind ▸ hi.resolve_left List.not_mem_nil
  rw [List.append_assoc] at hmoved
  exact ⟨l₁, l₂, hsplit, hmoved⟩

end Edits

theorem not_mem_below_self (ht : t.forest.ids.Nodup) (n : NodeId) : n ∉ (t.below n).ids := by
  by_cases hn : n ∈ t.forest.ids
  · obtain ⟨ks, l, a, c, r, rfl, h⟩ := exists_close hn
    obtain ⟨-, -, hbelow, -, -⟩ := apart_of_nodup (h ▸ ht)
    rwa [below_at ht h]
  · rw [below, find?_of_not_mem hn]
    exact List.not_mem_nil

theorem detached_of_loose (ht : t.Numbered) (hp : t.parent? n = none) : Detached t t n := by
  have hne (m : NodeId) : t.parent? n ≠ some m := by
    rw [hp]
    exact (Option.some_ne_none m).symm
  exact ⟨Kept.of_perm ht (List.Perm.refl _) rfl, hp, fun m => (others_of_parent?_ne ht.nodup (hne m)).symm,
    fun _ _ => rfl, fun _ _ => rfl⟩

theorem detached_of_parent? (ht : t.Numbered) (hp : t.parent? n = some p) : Detached t (t.detach n) n := by
  obtain ⟨⟨k, c⟩, hfind⟩ := exists_find? (mem_ids_of_parent? hp)
  have hdetach : t.detach n = { t with forest := t.forest.remove n ++ tree ⟨n, k⟩ c } := by
    rw [Tree.detach, hp, subtree?_of_find? hfind]
  have hat : (t.detach n).forest = close [] (t.forest.remove n ++ cons ⟨n, k⟩ c nil) := by rw [hdetach]; rfl
  have ht' := (ht.detach n).nodup
  have hwithin {m : NodeId} (hm : m ∈ t.descendants n) := find?_within ht.nodup ht' hfind (find?_at ht' hat) hm
  have hbeside {m : NodeId} (hm : m ∉ t.descendants n) : (t.detach n).find? m = (t.forest.remove n).find? m := by
    rw [find?, hdetach]
    exact find?_append_left (ids_tree_of_find? hfind ▸ hm)
  have hchildren : ∀ m, (t.detach n).children m = t.others n m := by
    intro m
    by_cases hm : m ∈ t.descendants n
    · have hne : t.parent? n ≠ some m := fun h => parent_not_mem_descendants ht.nodup h hm
      rw [others_of_parent?_ne ht.nodup hne, children, children, below, below, hwithin hm]
    · rw [children_eq_childIds, childIds, ← find?, hbeside hm, ← children_remove ht.nodup hfind hm, childIds]
  refine ⟨Kept.of_perm ht (detach_perm ht.nodup n) (by rw [hdetach]), parent?_at ht' hat, hchildren, fun m hne => ?_,
    fun m hn => ?_⟩
  · rw [hchildren, others_of_parent?_ne ht.nodup hne]
  · rw [below, below]
    by_cases hm : m ∈ t.descendants n
    · rw [hwithin hm]
    · rw [hbeside hm, find?_remove_of_not_mem ht.nodup hfind hm hn]

theorem detached (ht : t.Numbered) (n : NodeId) : Detached t (t.detach n) n := by
  cases hp : t.parent? n with
  | none =>
    have hsame : t.detach n = t := by rw [Tree.detach, hp]
    rw [hsame]
    exact detached_of_loose ht hp
  | some p => exact detached_of_parent? ht hp

theorem filter_ne_middle {l r : List NodeId} (h : (l ++ target :: r).Nodup) :
    (l ++ target :: r).filter (· ≠ target) = l ++ r := by
  have hrest : (l ++ r).filter (· ≠ target) = l ++ r :=
    List.filter_eq_self.2 fun i hi => decide_eq_true fun he : i = target => not_mem_around h (he ▸ hi)
  rw [List.filter_append, List.filter_cons_of_neg (by simp), ← List.filter_append, hrest]

/-- The new node is put before the old one, which is taken out then. -/
theorem replaced (ht : t.Numbered) (hfind : t.find? n = some (k, c)) (hp : t.parent? target = some p)
    (hout : target ∉ t.descendants n) :
    ∃ l r, t.others n p = l ++ target :: r ∧ Moved t (t.replace target n) n p (l ++ n :: r) ∧
      (t.replace target n).parent? target = none := by
  obtain ⟨l, r, hsplit, hmoved⟩ := moved_insertBefore ht hfind hp hout
  have ht' := ht.insertBefore target n
  have hdetached := detached ht' target
  have hreplace : t.replace target n = (t.insertBefore target n).detach target := by
    rw [Tree.replace, if_neg]
    simp [hout, hp]
  rw [← hreplace] at hdetached
  have hlist : (l ++ n :: target :: r).filter (· ≠ target) = l ++ n :: r := by
    have hnodup : (l ++ n :: target :: r).Nodup := hmoved.here ▸ nodup_children ht'.nodup p
    rw [List.append_cons] at hnodup ⊢
    rw [filter_ne_middle hnodup, List.append_assoc, List.singleton_append]
  have helsewhere : ∀ m, m ≠ p → (t.replace target n).children m = t.others n m := by
    intro m hm
    rw [hdetached.children, others, hmoved.elsewhere m hm, List.filter_eq_self]
    intro i hi
    refine decide_eq_true fun he => hm ?_
    have hparent := (mem_children_iff ht.nodup).1 (List.mem_filter.1 hi).1
    rw [he, hp] at hparent
    exact (Option.some.inj hparent).symm
  refine ⟨l, r, hsplit, ⟨hmoved.toKept.trans hdetached.toKept, ?_, helsewhere, fun m hm hne => ?_, ?_,
    fun m hn hpm => ?_⟩, hdetached.loose⟩
  · rw [hdetached.children, others, hmoved.here, hlist]
  · rw [helsewhere m hm, others_of_parent?_ne ht.nodup hne]
  · rw [hdetached.subtrees n, hmoved.subtree]
    rw [hmoved.subtree]
    exact fun h => hout (mem_descendants_of_mem_below h)
  · have hsame := hmoved.subtrees m hn hpm
    rw [hdetached.subtrees m, hsame]
    rw [hsame]
    exact fun h => hpm (parent_mem_descendants ht.nodup hp h)

section Clearing

variable {ks : Context} {l c r : Forest Node} {a : Node} (ht : t.Numbered)
  (h : t.forest = close ks (l ++ cons a c r))

include ht h

theorem clear_at : (t.clear a.id).forest = t.forest.mapChildren a.id (fun _ => nil) ++ c := by
  rw [Tree.clear, below_at ht.nodup h]

/-- Away from what is taken out, the child lists are those of the forest that stays. -/
theorem children_clear (hm : m ∉ c.ids) :
    (t.clear a.id).children m = (t.forest.mapChildren a.id fun _ => nil).childIds m := by
  rw [children_eq_childIds, childIds, clear_at ht h, find?_append_left hm, childIds]

theorem children_clear_self : (t.clear a.id).children a.id = [] := by
  have hc : a.id ∉ c.ids := below_at ht.nodup h ▸ not_mem_below_self ht.nodup a.id
  have hleft : (t.forest.mapChildren a.id (fun _ => nil)).ids.Nodup := by
    have ht' := (ht.clear a.id).nodup
    rw [clear_at ht h, ids_append] at ht'
    exact ht'.of_append_left
  rw [children_clear ht h hc, ← children_eq_childIds { t with forest := t.forest.mapChildren a.id fun _ => nil }]
  exact children_at (t := { t with forest := t.forest.mapChildren a.id fun _ => nil }) hleft
    (mapChildren_at ht.nodup h _)

theorem children_clear_of_ne (hm : m ≠ a.id) : (t.clear a.id).children m = t.children m := by
  by_cases hc : m ∈ c.ids
  · obtain ⟨x, hx⟩ := exists_find? hc
    have hnow : (t.clear a.id).find? m = some x := by
      rw [find?, clear_at ht h]
      exact find?_append_right (clear_at ht h ▸ (ht.clear a.id).nodup) hx
    have hthen : t.find? m = some x := find?_of_find? ht.nodup (find?_at ht.nodup h) hx
    rw [children, children, below, below, hnow, hthen]
  · have hnone : c.find? m = none := (find?_eq_none_iff m c).2 hc
    have hroot : ∀ b (d : Forest Node), b.id = a.id → (tree b nil).rootIds = [a.id] := fun b _ hb =>
      congrArg (fun i => [i]) hb
    rw [children_clear ht h hc, mapChildren_eq_replaceAt, children_eq_childIds, childIds_replaceAt ht.nodup hm ?_ hroot]
    · exact flatMap_place_self a.id _
    · intro k' c' h'
      cases (find?_at ht.nodup h).symm.trans h'
      rw [hnone, tree, Forest.find?, if_neg (Ne.symm hm)]
      rfl

theorem loose_clear (hn : n ∈ c.rootIds) : (t.clear a.id).parent? n = none ∧ (t.clear a.id).below n = t.below n := by
  have ht' := (ht.clear a.id).nodup
  obtain ⟨l', x, d, r', rfl, rfl⟩ := exists_root hn
  have hthen : t.forest = close (⟨l, a, r⟩ :: ks) (l' ++ cons x d r') := h
  have hnow : (t.clear a.id).forest = close [] ((t.forest.mapChildren a.id (fun _ => nil) ++ l') ++ cons x d r') := by
    rw [clear_at ht h, Forest.append_assoc]
    rfl
  rw [below_at ht' hnow, below_at ht.nodup hthen]
  exact ⟨parent?_at ht' hnow, rfl⟩

end Clearing

theorem cleared (ht : t.Numbered) (hp : p ∈ t.forest.ids) : Cleared t (t.clear p) p := by
  obtain ⟨ks, l, a, c, r, rfl, h⟩ := exists_close hp
  refine ⟨Kept.of_perm ht (clear_perm ht.nodup a.id) rfl, children_clear_self ht h,
    fun m => children_clear_of_ne ht h, fun n hn => loose_clear ht h ?_⟩
  rwa [children_at ht.nodup h] at hn

/-! ## New nodes -/

/-- What is below a node when it is made: a conditional gets its two branches, any other node nothing. -/
theorem find?_create (ht : t.Numbered) (made : Kind) (m : NodeId) :
    (t.create made).find? m =
      if m = t.next then
        some (made, if made.isConditional then
          cons ⟨t.next + 1, .branch⟩ nil (tree ⟨t.next + 2, .branch⟩ nil) else nil)
      else if made.isConditional ∧ (m = t.next + 1 ∨ m = t.next + 2) then some (.branch, nil)
      else t.find? m := by
  have hforest : (t.create made).find? m = (t.find? m <|> (tree ⟨t.next, made⟩ (if made.isConditional then
      cons ⟨t.next + 1, .branch⟩ nil (tree ⟨t.next + 2, .branch⟩ nil) else nil)).find? m) := by
    unfold Tree.create
    split <;> exact find?_append ..
  rw [hforest]
  cases hfind : t.find? m with
  | some x =>
    have hm : m < t.next := ht.bound m (mem_ids_of_find? hfind)
    grind
  | none =>
    simp only [tree, Forest.find?]
    grind [Forest.find?]

theorem children_create (ht : t.Numbered) (made : Kind) :
    (t.create made).children =
      if made.isConditional then Function.update t.children t.next [t.next + 1, t.next + 2] else t.children := by
  have hfresh (k : Nat) : t.children (t.next + k) = [] := by
    have hout : t.next + k ∉ t.forest.ids := fun hm => Nat.not_lt.2 (Nat.le_add_right t.next k) (ht.bound _ hm)
    rw [children, below, find?_of_not_mem hout]
    rfl
  funext m
  rw [children, below, find?_create ht]
  by_cases hm : m = t.next
  · rw [if_pos hm, hm]
    by_cases hmade : made.isConditional = true
    · rw [if_pos hmade, if_pos hmade, Function.update_self]
      rfl
    · rw [if_neg hmade, if_neg hmade]
      exact (hfresh 0).symm
  · have hother : (if made.isConditional then Function.update t.children t.next [t.next + 1, t.next + 2]
        else t.children) m = t.children m := by
      split
      · rw [Function.update_of_ne hm]
      · rfl
    rw [if_neg hm, hother]
    by_cases hbranch : made.isConditional ∧ (m = t.next + 1 ∨ m = t.next + 2)
    · rw [if_pos hbranch]
      rcases hbranch.2 with rfl | rfl
      · exact (hfresh 1).symm
      · exact (hfresh 2).symm
    · rw [if_neg hbranch]
      rfl

theorem next_create (t : Tree) (made : Kind) :
    (t.create made).next = if made.isConditional then t.next + 3 else t.next + 1 := by
  unfold Tree.create
  split <;> rfl

/-! ## Edits that do nothing -/

theorem insertBefore_idle {anchor : NodeId} (h : anchor = n ∨ t.parent? anchor = none) :
    t.insertBefore anchor n = t := by
  unfold Tree.insertBefore
  cases hp : t.parent? anchor with
  | none => rfl
  | some p =>
    obtain rfl : anchor = n := h.resolve_right (by simp [hp])
    exact move_self t anchor _

theorem insertAfter_idle {anchor : NodeId} (h : anchor = n ∨ t.parent? anchor = none) :
    t.insertAfter anchor n = t := by
  unfold Tree.insertAfter
  cases hp : t.parent? anchor with
  | none => rfl
  | some p =>
    obtain rfl : anchor = n := h.resolve_right (by simp [hp])
    exact move_self t anchor _

theorem replace_idle {old : NodeId} (hn : n ∈ t.forest.ids) (h : old = n ∨ t.parent? old = none) :
    t.replace old n = t := by
  rw [Tree.replace, if_pos]
  rcases h with rfl | h
  · exact Or.inl (mem_descendants_self hn)
  · exact Or.inr (by rw [h]; rfl)

end Tree

end HtmlTemplate
