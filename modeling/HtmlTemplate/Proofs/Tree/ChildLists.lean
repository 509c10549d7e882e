import HtmlTemplate.Proofs.Forest.Replace
import HtmlTemplate.Proofs.Tree.Structure

/-! # Child lists of a tree

What moving a node does to the lists of children. When a node is taken out, the one list that it was in loses it
(`children_remove`). When it is put back beside or below another node, every other list stays as it is but for the
place where it is put (`children_placed`), and so does every subtree away from that place (`below_placed`).
-/

namespace HtmlTemplate

open Forest Context

namespace Tree

variable {t t' : Tree} {m n p target : NodeId} {k : Kind} {c : Forest Node}

/-! ## Child lists and subtrees -/

theorem children_eq_childIds (t : Tree) (m : NodeId) : t.children m = t.forest.childIds m := by
  rw [children, below, childIds, find?]
  cases t.forest.find? m <;> rfl

theorem mem_children_iff (ht : t.forest.ids.Nodup) : n ∈ t.children m ↔ t.parent? n = some m := by
  by_cases hm : m ∈ t.forest.ids
  · obtain ⟨ks, l, a, c, r, rfl, h⟩ := exists_close hm
    rw [children_at ht h]
    exact mem_children_iff_at ht h n
  · have hnone : t.children m = [] := by rw [children, below, find?_of_not_mem hm]; rfl
    refine ⟨fun h => absurd (hnone ▸ h) List.not_mem_nil, fun h => absurd ?_ hm⟩
    obtain ⟨k, ks, l, a, c, r, -, rfl, hf⟩ := exists_of_parent? ht h
    rw [hf, ids_close, leading_cons]
    simp

theorem nodup_children (ht : t.forest.ids.Nodup) (m : NodeId) : (t.children m).Nodup := by
  rw [children_eq_childIds, childIds]
  cases h : t.forest.find? m with
  | none => exact List.nodup_nil
  | some x => exact (rootIds_sublist_ids x.2).nodup (nodup_of_find? ht h)

theorem elseBranch?_of_isConditional (hn : t.isConditional n = true) :
    t.elseBranch? n = (t.children n).getLast? := by
  rw [elseBranch?, if_pos hn, lastChild?]

theorem thenBranch?_of_isConditional (hn : t.isConditional n = true) :
    t.thenBranch? n = (t.children n).head? := by
  rw [thenBranch?, if_pos hn, firstChild?, first?_map_id, children]

theorem descendants_of_find? (h : t.find? n = some (k, c)) : t.descendants n = n :: c.ids := by
  rw [descendants, h]

theorem mem_descendants_of_mem_below (hm : m ∈ (t.below n).ids) : m ∈ t.descendants n := by
  rw [below] at hm
  rw [descendants]
  cases h : t.find? n with
  | none =>
    rw [h] at hm
    exact absurd hm List.not_mem_nil
  | some x =>
    rw [h] at hm
    exact List.mem_cons_of_mem n hm

theorem mem_descendants_of_mem_children (ht : t.forest.ids.Nodup) (hm : m ∈ t.descendants n) {i : NodeId}
    (hi : i ∈ t.children m) : i ∈ t.descendants n := by
  cases hfind : t.find? n with
  | none =>
    rw [descendants, hfind] at hm
    exact absurd hm List.not_mem_nil
  | some x =>
    rw [descendants_of_find? hfind, List.mem_cons] at hm
    rw [descendants_of_find? hfind]
    refine List.mem_cons_of_mem n ?_
    rw [children_eq_childIds, childIds] at hi
    rcases hm with rfl | hm
    · rw [← find?, hfind] at hi
      exact mem_ids_of_mem_rootIds hi
    · obtain ⟨y, hy⟩ := exists_find? hm
      rw [find?_of_find? ht hfind hy] at hi
      exact ids_subset_of_find? hy (mem_ids_of_mem_rootIds hi)

theorem parent_not_mem_descendants (ht : t.forest.ids.Nodup) (h : t.parent? n = some p) : p ∉ t.descendants n := by
  obtain ⟨k, ks, l, a, c, r, rfl, rfl, hf⟩ := exists_of_parent? ht h
  have hk : t.forest = close ks (k.before ++ cons k.node (l ++ cons a c r) k.after) := hf
  obtain ⟨-, -, hbelow, -, -⟩ := apart_of_nodup (hk ▸ ht)
  simp only [ids_append, ids_cons, List.mem_append, List.mem_cons, not_or] at hbelow
  rw [descendants_at ht hf, List.mem_cons, not_or]
  exact ⟨hbelow.2.1, hbelow.2.2.1⟩

theorem mem_descendants_self (hn : n ∈ t.forest.ids) : n ∈ t.descendants n := by
  obtain ⟨x, hx⟩ := exists_find? hn
  rw [descendants_of_find? hx]
  exact List.mem_cons_self

/-- The parent of a node below `n` is `n` or below it. -/
theorem parent_mem_descendants (ht : t.forest.ids.Nodup) (hp : t.parent? m = some p) (hm : m ∈ (t.below n).ids) :
    p ∈ t.descendants n := by
  have hn : n ∈ t.forest.ids := by
    refine Classical.byContradiction fun hn => ?_
    rw [below, find?_of_not_mem hn] at hm
    exact absurd hm List.not_mem_nil
  obtain ⟨ks, l, a, c, r, rfl, h⟩ := exists_close hn
  rw [below_at ht h] at hm
  obtain ⟨js, l', b, d, r', rfl, rfl⟩ := exists_close hm
  have hb : t.forest = close (js ++ ⟨l, a, r⟩ :: ks) (l' ++ cons b d r') := by rw [h, close_append, close_cons]
  rw [parent?_at ht hb, above_append, above_cons] at hp
  rw [descendants_at ht h, List.mem_cons]
  cases js with
  | nil => exact Or.inl (Option.some.inj hp).symm
  | cons j js =>
    refine Or.inr ?_
    rw [above_cons] at hp
    rw [← Option.some.inj hp, ids_close, leading_cons]
    simp

theorem not_mem_descendants_of_parent (ht : t.forest.ids.Nodup) (hp : t.parent? m = some p) (hne : m ≠ n)
    (h : p ∉ t.descendants n) : m ∉ t.descendants n := by
  intro hm
  cases hfind : t.find? n with
  | none =>
    rw [descendants, hfind] at hm
    exact absurd hm List.not_mem_nil
  | some x =>
    rw [descendants_of_find? hfind, List.mem_cons] at hm
    refine h (parent_mem_descendants ht hp ?_)
    rw [below, hfind]
    exact hm.resolve_left hne

theorem isAbove_of_mem_descendants (ht : t.forest.ids.Nodup) (hn : n ∈ t.forest.ids) (hm : m ∈ t.descendants n) :
    t.IsAbove n m := by
  obtain ⟨ks, l, a, c, r, rfl, h⟩ := exists_close hn
  rw [descendants_at ht h, List.mem_cons] at hm
  rcases hm with rfl | hm
  · exact Or.inl rfl
  · obtain ⟨js, l', b, d, r', rfl, rfl⟩ := exists_close hm
    have hb : t.forest = close (js ++ ⟨l, a, r⟩ :: ks) (l' ++ cons b d r') := by rw [h, close_append, close_cons]
    refine Or.inr ?_
    rw [ancestors_at ht hb, above_append, above_cons]
    simp

/-- The children of `m` other than `n`. -/
def others (t : Tree) (n m : NodeId) : List NodeId :=
  (t.children m).filter (· ≠ n)

theorem others_of_parent?_ne (ht : t.forest.ids.Nodup) (h : t.parent? n ≠ some m) : t.others n m = t.children m := by
  refine List.filter_eq_self.2 fun i hi => decide_eq_true fun he => ?_
  exact h ((mem_children_iff ht).1 (he ▸ hi))

/-! ## Taking a node out -/

theorem find?_within (ht : t.forest.ids.Nodup) (ht' : t'.forest.ids.Nodup) (hfind : t.find? n = some (k, c))
    (hself : t'.find? n = some (k, c)) (hm : m ∈ t.descendants n) : t'.find? m = t.find? m := by
  rw [descendants_of_find? hfind, List.mem_cons] at hm
  rcases hm with rfl | hm
  · exact hself.trans hfind.symm
  · obtain ⟨x, hx⟩ := exists_find? hm
    exact (find?_of_find? ht' hself hx).trans (find?_of_find? ht hfind hx).symm

theorem subtree?_of_find? (hfind : t.find? n = some (k, c)) : t.subtree? n = some (tree ⟨n, k⟩ c) := by
  rw [subtree?, hfind]
  rfl

theorem not_mem_around {l r : List NodeId} (h : (l ++ target :: r).Nodup) : target ∉ l ++ r :=
  (List.nodup_cons.1 (List.perm_middle.nodup_iff.1 h)).1

section Removing

variable (ht : t.forest.ids.Nodup) (hfind : t.find? n = some (k, c))

include ht hfind

theorem children_remove (hm : m ∉ t.descendants n) : (t.forest.remove n).childIds m = t.others n m := by
  rw [descendants_of_find? hfind, List.mem_cons, not_or] at hm
  rw [others, children_eq_childIds]
  exact childIds_remove ht hfind hm.1 hm.2

/-- The target of a move stands in what is left when the node is taken out. -/
theorem exists_target (htarget : target ∈ t.forest.ids) (hout : target ∉ t.descendants n) :
    ∃ (js : Context) (l : Forest Node) (b : Node) (d r : Forest Node), b.id = target ∧
      t.forest.remove n = close js (l ++ cons b d r) ∧ d.rootIds = t.others n target := by
  have hs := subtree?_of_find? hfind
  have hleft : target ∉ (tree ⟨n, k⟩ c).ids := by rwa [ids_tree, ← descendants_of_find? hfind]
  obtain ⟨js, l, b, d, r, rfl, h⟩ := exists_close (mem_remove ht hs htarget hleft)
  have hchildren := children_at (t := { t with forest := t.forest.remove n }) (nodup_remove ht hs) h
  rw [children_eq_childIds, children_remove ht hfind hout] at hchildren
  exact ⟨js, l, b, d, r, rfl, h, hchildren.symm⟩

theorem find?_remove_of_not_mem (hm : m ∉ t.descendants n) (hn : n ∉ (t.below m).ids) :
    (t.forest.remove n).find? m = t.find? m := by
  rw [descendants_of_find? hfind, List.mem_cons, not_or] at hm
  rw [find?_remove ht hfind hm.1 hm.2, find?]
  rw [below, find?] at hn
  cases h : t.forest.find? m with
  | none => rfl
  | some x =>
    rw [h] at hn
    rw [Option.map_some, remove_eq_replaceAt, replaceAt_of_not_mem _ hn]

/-- A node that is not taken out stays among the children of its parent. -/
theorem exists_split_others (hp : t.parent? target = some p) (hout : target ∉ t.descendants n) :
    ∃ l r, t.others n p = l ++ target :: r ∧ target ∉ l ++ r := by
  have hself := mem_descendants_self (mem_ids_of_find? hfind)
  have hmem : target ∈ t.others n p :=
    List.mem_filter.2 ⟨(mem_children_iff ht).2 hp, decide_eq_true fun he => hout (he ▸ hself)⟩
  obtain ⟨l, r, hsplit⟩ := List.append_of_mem hmem
  exact ⟨l, r, hsplit, not_mem_around (hsplit ▸ (nodup_children ht p).filter _)⟩

end Removing

/-! ## A node in a new place -/

theorem flatMap_place_of_not_mem {l ids : List NodeId} (h : target ∉ l) :
    (l.flatMap fun i => if i = target then ids else [i]) = l := by
  have hsingle : ∀ i ∈ l, (if i = target then ids else [i]) = [i] := fun i hi =>
    if_neg fun he : i = target => h (he ▸ hi)
  rw [List.flatMap_congr hsingle, List.flatMap_singleton']

theorem flatMap_place_self (target : NodeId) (l : List NodeId) :
    (l.flatMap fun i => if i = target then [target] else [i]) = l := by
  have hsingle : (fun i => if i = target then [target] else [i]) = fun i => [i] := by
    funext i
    split
    · rename_i hi
      rw [hi]
    · rfl
  rw [hsingle, List.flatMap_singleton']

theorem flatMap_place_middle {l r ids : List NodeId} (h : target ∉ l ++ r) :
    ((l ++ target :: r).flatMap fun i => if i = target then ids else [i]) = l ++ ids ++ r := by
  rw [List.mem_append, not_or] at h
  rw [List.flatMap_append, List.flatMap_cons, if_pos rfl, flatMap_place_of_not_mem h.1, flatMap_place_of_not_mem h.2,
    List.append_assoc]

section Placing

variable {js : Context} {l d r pre first last post : Forest Node} {b : Node} (ht : t.forest.ids.Nodup)
  (hfind : t.find? n = some (k, c)) (hremoved : t.forest.remove n = close js (l ++ cons b d r))

include ht hfind hremoved

/-- What stands below the other nodes when the node has been put back, before or after the target or below it. -/
theorem find?_placed (hplaced : t'.forest = close js (l ++ (pre ++ cons b (first ++ (d ++ last)) (post ++ r))))
    (hnew : ∀ i, i ∈ pre.ids ∨ i ∈ first.ids ∨ i ∈ last.ids ∨ i ∈ post.ids → i ∈ t.descendants n) (hm : m ≠ b.id)
    (hsub : m ∉ t.descendants n) :
    t'.find? m = ((t.forest.remove n).find? m).map fun x =>
      (x.1, x.2.replaceAt b.id fun b d => pre ++ cons b (first ++ (d ++ last)) post) := by
  have hleft := nodup_remove ht (subtree?_of_find? hfind)
  have hno {f : Forest Node} (hf : ∀ i ∈ f.ids, i ∈ t.descendants n) : f.find? m = none :=
    (find?_eq_none_iff m f).2 fun h => hsub (hf m h)
  have hforest : t'.forest =
      (t.forest.remove n).replaceAt b.id fun b d => pre ++ cons b (first ++ (d ++ last)) post := by
    rw [hplaced, replaceAt_at hleft hremoved]
    simp [Forest.append_assoc]
  rw [find?, hforest, find?_replaceAt hleft hm]
  intro k' d' _
  rw [find?_append, hno fun i hi => hnew i (Or.inl hi), Forest.find?, if_neg (Ne.symm hm), find?_append,
    hno fun i hi => hnew i (Or.inr (Or.inl hi)), find?_append, hno fun i hi => hnew i (Or.inr (Or.inr (Or.inl hi))),
    hno fun i hi => hnew i (Or.inr (Or.inr (Or.inr hi)))]
  cases d'.find? m <;> rfl

variable (ht' : t'.forest.ids.Nodup) (hself : t'.find? n = some (k, c))
  (hplaced : t'.forest = close js (l ++ (pre ++ cons b (first ++ (d ++ last)) (post ++ r))))
  (hnew : ∀ i, i ∈ pre.ids ∨ i ∈ first.ids ∨ i ∈ last.ids ∨ i ∈ post.ids → i ∈ t.descendants n)

include ht' hself hplaced hnew

theorem children_placed (hout : b.id ∉ t.descendants n) (hm : m ≠ b.id) :
    t'.children m =
      (t.others n m).flatMap fun i => if i = b.id then pre.rootIds ++ b.id :: post.rootIds else [i] := by
  by_cases hsub : m ∈ t.descendants n
  · -- Nothing has changed below the node.
    have hsame : t'.children m = t.children m := by
      rw [children, children, below, below, find?_within ht ht' hfind hself hsub]
    have hparent : t.parent? n ≠ some m := fun h => parent_not_mem_descendants ht h hsub
    rw [hsame, others_of_parent?_ne ht hparent, flatMap_place_of_not_mem]
    exact fun hb => hout (mem_descendants_of_mem_children ht hsub hb)
  · have hleft := nodup_remove ht (subtree?_of_find? hfind)
    rw [children_eq_childIds, childIds, ← find?, find?_placed ht hfind hremoved hplaced hnew hm hsub,
      ← children_remove ht hfind hsub, childIds]
    cases h : (t.forest.remove n).find? m with
    | none => rfl
    | some x =>
      refine rootIds_replaceAt (nodup_of_find? hleft h) fun a d' ha => ?_
      rw [rootIds_append, rootIds_cons, ha]

theorem below_placed (hm : m ≠ b.id) (hn : n ∉ (t.below m).ids) (hb : b.id ∉ (t.below m).ids) :
    t'.below m = t.below m := by
  by_cases hsub : m ∈ t.descendants n
  · rw [below, below, find?_within ht ht' hfind hself hsub]
  · rw [below, find?_placed ht hfind hremoved hplaced hnew hm hsub, find?_remove_of_not_mem ht hfind hsub hn]
    rw [below] at hb ⊢
    cases h : t.find? m with
    | none => rfl
    | some x =>
      rw [h] at hb
      exact replaceAt_of_not_mem _ hb

end Placing

end Tree

end HtmlTemplate
