import HtmlTemplate.Proofs.Tree.ChildLists
import Mathlib.Data.List.Basic

/-! # Ways through a tree

A tree is gone through in three ways: with a stack of nodes still to come, filled along the links to the previous
sibling; upward, from parent to parent; and with a cursor that goes to the first child or else to the node that
follows. `Popped` is the first of them, link by link. In a tree whose nodes have different numbers and whose document
stands at the top, the three agree (`coherent_of_nodup`): the stack gives the nodes in document order, the way up
from a node meets the document exactly if the stack that starts at the document gives that node, and the cursor meets
what that stack gives after the document.
-/

namespace HtmlTemplate

open Forest Context

/-- The nodes that come off a stack, given from the top: the children of each node that comes off are put on it, the
last child first and then along the links to the previous sibling, until the stack is empty. -/
inductive Popped (links : NodeId → Links) : (stack out : List NodeId) → Prop
  | done : Popped links [] []
  | pop {n : NodeId} {stack pushed out : List NodeId}
      (hpushed : Along (fun m => (links m).previous) (links n).last pushed)
      (h : Popped links (pushed.reverse ++ stack) out) : Popped links (n :: stack) (n :: out)

/-- The ways through a tree agree. -/
structure Tree.Coherent (t : Tree) : Prop where
  /-- A node stands before all below it, child by child. -/
  preorder : ∀ n ∈ t.forest.ids, t.descendants n = n :: (t.children n).flatMap t.descendants
  once : ∀ n, (t.descendants n).Nodup
  stack : ∀ n ∈ t.forest.ids, Popped t.links [n] (t.descendants n)
  attached : ∀ n, t.isAttached n = true ↔ n ∈ t.descendants root
  /-- The way up from a node, which tells whether it is attached and what follows it. -/
  upward : ∀ n ∈ t.forest.ids, ∃ up, Along t.parent? (some n) up ∧
    (t.isAttached n = true ↔ root ∈ up) ∧ t.following? n = up.findSome? t.nextSibling?
  following : ∀ n, t.isAttached n = true → ∃ before after,
    t.descendants root = before ++ (t.descendants n ++ after) ∧ t.following? n = after.head?
  cursor : Along (fun n => t.firstChild? n <|> t.following? n) (t.firstChild? root)
    (t.descendants root).tail

namespace Forest

theorem head?_ids (f : Forest Node) : f.ids.head? = f.rootIds.head? := by
  cases f with
  | nil => rfl
  | cons a c r => simp

theorem followingWithin?_append (n : NodeId) (f g : Forest Node) :
    (f ++ g).followingWithin? n = (f.followingWithin? n <|> g.followingWithin? n) := by
  induction f with
  | nil => rfl
  | cons a c r _ ih =>
    rw [cons_append, followingWithin?, followingWithin?, ih]
    split
    · rfl
    · cases following? n none c <;> rfl

theorem followingWithin?_eq_none {n : NodeId} {f : Forest Node} (h : n ∉ f.ids) :
    f.followingWithin? n = none := by
  induction f with
  | nil => rfl
  | cons a c r _ ih =>
    simp only [ids_cons, List.mem_cons, List.mem_append, not_or] at h
    have ha : a.id ≠ n := fun e => h.1 e.symm
    rw [followingWithin?, if_neg ha, (following?_eq_none_iff n none c).2 h.2.1, ih h.2.2]
    rfl

end Forest

namespace Tree

variable {t : Tree} {ks : Context} {f l c r : Forest Node} {a : Node} {n : NodeId}

/-! ## The stack -/

theorem ids_eq_flatMap (ht : t.forest.ids.Nodup) (h : t.forest = close ks (l ++ f)) :
    f.ids = f.rootIds.flatMap t.descendants := by
  induction f generalizing l with
  | nil => rfl
  | cons a c r _ ih =>
    have hr : t.forest = close ks ((l ++ tree a c) ++ r) := by
      rw [h, Forest.append_assoc, tree_append]
    rw [ids_cons, rootIds_cons, List.flatMap_cons, descendants_at ht h, ← ih hr, List.cons_append]

/-- Siblings come off the stack with all below them before what the stack held under them. -/
theorem popped_append (ht : t.forest.ids.Nodup) (h : t.forest = close ks (l ++ f)) {stack out : List NodeId}
    (hstack : Popped t.links stack out) : Popped t.links (f.rootIds ++ stack) (f.ids ++ out) := by
  induction f generalizing ks l stack out with
  | nil => exact hstack
  | cons a c r ihc ihr =>
    have hc : t.forest = close (⟨l, a, r⟩ :: ks) (nil ++ c) := h
    have hr : t.forest = close ks ((l ++ tree a c) ++ r) := by
      rw [h, Forest.append_assoc, tree_append]
    have hbelow := ihc hc (ihr hr hstack)
    rw [rootIds_cons, ids_cons, List.cons_append, List.cons_append, List.append_assoc]
    refine Popped.pop (along_previous_at ht h) ?_
    rwa [List.reverse_reverse]

theorem popped_descendants (ht : t.forest.ids.Nodup) (hn : n ∈ t.forest.ids) :
    Popped t.links [n] (t.descendants n) := by
  obtain ⟨ks, l, a, c, r, rfl, h⟩ := exists_close hn
  have hc : t.forest = close (⟨l, a, r⟩ :: ks) (nil ++ c) := h
  have hbelow := popped_append ht hc Popped.done
  rw [List.append_nil, List.append_nil] at hbelow
  rw [descendants_at ht h]
  refine Popped.pop (along_previous_at ht h) ?_
  rwa [List.reverse_reverse, List.append_nil]

theorem descendants_eq_flatMap (ht : t.forest.ids.Nodup) (hn : n ∈ t.forest.ids) :
    t.descendants n = n :: (t.children n).flatMap t.descendants := by
  obtain ⟨ks, l, a, c, r, rfl, h⟩ := exists_close hn
  have hc : t.forest = close (⟨l, a, r⟩ :: ks) (nil ++ c) := h
  rw [descendants_at ht h, children_at ht h, ids_eq_flatMap ht hc]

theorem nodup_descendants (ht : t.forest.ids.Nodup) (n : NodeId) : (t.descendants n).Nodup := by
  rw [descendants]
  cases hfind : t.find? n with
  | none => exact List.nodup_nil
  | some x =>
    obtain ⟨r, hr⟩ := exists_cons_of_find? (P := fun f => f.ids.Nodup) nodup_parts ht hfind
    rw [ids_cons, ← List.cons_append] at hr
    exact hr.of_append_left

/-! ## The way up -/

section Top

variable {k : Frame} (ht : t.forest.ids.Nodup)

include ht

theorem following?_top (h : t.forest = close [] (l ++ cons a c r)) : t.following? a.id = none := by
  obtain ⟨-, hl, -, -, -⟩ := apart_of_nodup (h ▸ ht)
  rw [Tree.following?, h, close_nil, followingWithin?_append, followingWithin?_eq_none hl, followingWithin?,
    if_pos rfl]
  rfl

/-- Below the top a node is followed by what comes next within the tree that it is part of. -/
theorem following?_at (h : t.forest = close (ks ++ [k]) (l ++ cons a c r)) :
    t.following? a.id = (r ++ rest ks).rootIds.head? := by
  have htop : t.forest = k.before ++ cons k.node (close ks (l ++ cons a c r)) k.after := by
    rw [h, close_append]
    rfl
  have hnodup : (close ks (l ++ cons a c r)).ids.Nodup := by
    rw [htop, ids_append] at ht
    exact (nodup_parts (List.nodup_append.1 ht).2.1).1
  obtain ⟨hks, hl, -, -, -⟩ := apart_of_nodup hnodup
  obtain ⟨hlead, -, -, -, -⟩ := apart_of_nodup (h ▸ ht)
  rw [leading_append, leading_cons, leading_nil, List.nil_append, List.mem_append, List.mem_append,
    not_or, not_or, List.mem_singleton] at hlead
  have hin : (close ks (l ++ cons a c r)).following? a.id none = some (r ++ rest ks).rootIds.head? := by
    rw [following?_close none hks (by simp), following?_append, (following?_eq_none_iff _ _ l).2 hl,
      Forest.following?, if_pos rfl, ← first?_map_id, ← first?_map_id_append]
    cases (r ++ rest ks).first?.map Node.id <;> rfl
  rw [Tree.following?, htop, followingWithin?_append, followingWithin?_eq_none hlead.1.1, followingWithin?,
    if_neg (Ne.symm hlead.1.2), hin]
  rfl

theorem nextSibling?_top (h : t.forest = close [] (l ++ cons a c r)) : t.nextSibling? a.id = none := by
  have hparent : t.parent? a.id = none := parent?_at ht h
  rw [nextSibling?, siblings, hparent]
  rfl

theorem following?_eq_findSome? (h : t.forest = close ks (l ++ cons a c r)) :
    t.following? a.id = (a.id :: above ks).findSome? t.nextSibling? := by
  induction ks generalizing l a c r with
  | nil =>
    rw [following?_top ht h, above_nil, List.findSome?_cons, nextSibling?_top ht h]
    rfl
  | cons j ks ih =>
    have hj : t.forest = close ks (j.before ++ cons j.node (l ++ cons a c r) j.after) := h
    have hup := ih hj
    rw [above_cons, List.findSome?_cons, nextSibling?_at ht h (List.cons_ne_nil j ks), ← hup]
    -- The frames below the outermost one hold what can follow.
    rcases List.eq_nil_or_concat ks with rfl | ⟨js, k, rfl⟩
    · have htop : t.forest = close ([] ++ [j]) (l ++ cons a c r) := h
      rw [following?_top ht hj, following?_at ht htop, rest_nil, Forest.append_nil]
      cases r.rootIds.head? <;> rfl
    · rw [List.concat_eq_append] at h hj
      have hdeep : t.forest = close ((j :: js) ++ [k]) (l ++ cons a c r) := h
      rw [following?_at ht hj, following?_at ht hdeep, rest_cons, rootIds_append]
      cases r.rootIds with
      | nil => rfl
      | cons i is => rfl

end Top

theorem mem_descendants_of_isAbove (ht : t.forest.ids.Nodup) (hn : n ∈ t.forest.ids) {m : NodeId}
    (h : t.IsAbove n m) : m ∈ t.descendants n := by
  rcases h with rfl | hup
  · exact mem_descendants_self hn
  · have hm : m ∈ t.forest.ids := by
      refine Classical.byContradiction fun hm => ?_
      rw [ancestors, (above?_eq_none_iff m [] _).2 hm] at hup
      exact absurd hup List.not_mem_nil
    obtain ⟨ks, l, a, c, r, rfl, hf⟩ := exists_close hm
    rw [ancestors_at ht hf] at hup
    obtain ⟨k, hk, rfl⟩ := List.mem_map.1 hup
    obtain ⟨js, ks', rfl⟩ := List.append_of_mem hk
    have hout : t.forest = close ks' (k.before ++ cons k.node (close js (l ++ cons a c r)) k.after) := by
      rw [hf, close_append]
      rfl
    rw [descendants_at ht hout, ids_close]
    simp

theorem isAttached_iff_isAbove : t.isAttached n = true ↔ t.IsAbove root n := by
  rw [isAttached, Bool.or_eq_true, beq_iff_eq, List.contains_iff_mem, IsAbove, eq_comm]

theorem isAttached_iff_mem_descendants (ht : t.forest.ids.Nodup) (hroot : root ∈ t.forest.ids) (n : NodeId) :
    t.isAttached n = true ↔ n ∈ t.descendants root := by
  rw [isAttached_iff_isAbove]
  exact ⟨mem_descendants_of_isAbove ht hroot, isAbove_of_mem_descendants ht hroot⟩

theorem exists_upward (ht : t.forest.ids.Nodup) (hn : n ∈ t.forest.ids) :
    ∃ up, Along t.parent? (some n) up ∧ (t.isAttached n = true ↔ root ∈ up) ∧
      t.following? n = up.findSome? t.nextSibling? := by
  obtain ⟨ks, l, a, c, r, rfl, h⟩ := exists_close hn
  refine ⟨a.id :: above ks, along_parent_at ht h, ?_, following?_eq_findSome? ht h⟩
  rw [isAttached_iff_isAbove, IsAbove, ancestors_at ht h, List.mem_cons]

/-! ## The cursor -/

section Document

variable {before content behind : Forest Node} {document : Node} (ht : t.forest.ids.Nodup)
  (h : t.forest = close [] (before ++ cons document content behind))

include h in
/-- A place in what is below the document is a place in the tree. -/
theorem forest_below {js : Context} (hc : content = close js (l ++ cons a c r)) :
    t.forest = close (js ++ [⟨before, document, behind⟩]) (l ++ cons a c r) := by
  rw [h, close_append, ← hc]
  rfl

include ht h

/-- Below the document, what follows a node is what comes after the last node of its subtree. -/
theorem exists_following (hn : n ∈ content.ids) :
    ∃ first last, content.ids = first ++ (t.descendants n ++ last) ∧ t.following? n = last.head? := by
  obtain ⟨js, l, a, c, r, rfl, hc⟩ := exists_close hn
  have hf := forest_below h hc
  refine ⟨leading js ++ l.ids, (r ++ rest js).ids, ?_, ?_⟩
  · rw [hc, ids_close, descendants_at ht hf]
    simp
  · rw [following?_at ht hf, head?_ids]

theorem along_cursor :
    Along (fun n => t.firstChild? n <|> t.following? n) (t.firstChild? document.id) content.ids := by
  have hfirst : t.firstChild? document.id = content.ids.head? := by
    rw [firstChild?, below_at ht h, first?_map_id, head?_ids]
  rw [hfirst]
  refine along_of_next fun seen n ahead hsplit => ?_
  have hn : n ∈ content.ids := by
    rw [hsplit]
    simp
  obtain ⟨js, l, a, c, r, rfl, hc⟩ := exists_close hn
  have hf := forest_below h hc
  have hids : content.ids = (leading js ++ l.ids) ++ a.id :: (c ++ (r ++ rest js)).ids := by
    rw [hc, ids_close]
    simp
  -- The node occurs once, so that both ways to cut the list at it are the same.
  have hnodup : content.ids.Nodup := by
    rw [h, close_nil, ids_append] at ht
    exact (nodup_parts (List.nodup_append.1 ht).2.1).1
  have hahead : ahead = (c ++ (r ++ rest js)).ids := by
    rw [hids, List.nodup_middle, List.nodup_cons, List.mem_append, not_or] at hnodup
    rw [hids, List.append_cons_inj_of_notMem hnodup.1.1 hnodup.1.2] at hsplit
    exact hsplit.2.2.symm
  rw [firstChild?, below_at ht hf, following?_at ht hf, first?_map_id, hahead, head?_ids, rootIds_append c]
  cases c.rootIds with
  | nil => rfl
  | cons i is => rfl

end Document

/-- Different numbers, and a document at the top, are enough for the ways through a tree to agree. -/
theorem coherent_of_nodup (ht : t.forest.ids.Nodup) (hroot : root ∈ t.forest.ids)
    (hparent : t.parent? root = none) : t.Coherent := by
  obtain ⟨ks, before, document, content, behind, hdocument, h⟩ := exists_close hroot
  obtain rfl : ks = [] := by
    cases ks with
    | nil => rfl
    | cons k ks =>
      rw [← hdocument, parent?_at ht h] at hparent
      cases hparent
  have hdescendants : t.descendants root = root :: content.ids := by
    rw [← hdocument, descendants_at ht h]
  have hattached := isAttached_iff_mem_descendants ht hroot
  refine ⟨fun n => descendants_eq_flatMap ht, nodup_descendants ht, fun n => popped_descendants ht, hattached,
    fun n => exists_upward ht, fun n hn => ?_, ?_⟩
  · rw [hattached, hdescendants, List.mem_cons] at hn
    rcases hn with rfl | hn
    · refine ⟨[], [], by simp, ?_⟩
      rw [← hdocument, following?_top ht h]
      rfl
    · obtain ⟨first, last, hids, hfollowing⟩ := exists_following ht h hn
      refine ⟨root :: first, last, ?_, hfollowing⟩
      rw [hdescendants, hids]
      rfl
  · rw [hdescendants, ← hdocument]
    exact along_cursor ht h

/-- A loop with a text in it was taken out of a document and stands beside it. -/
theorem coherent_of_nodup_loose :
    let content : Forest Kind := cons (.loop "xs as x") (tree (.text "a") nil) (cons (.element ⟨"p", []⟩)
      (cons (.text "b") nil (tree (.text "c") nil)) nil)
    let t := (Tree.ofContent content).detach 1
    t.forest.ids = [0, 3, 4, 5, 1, 2] ∧ t.parent? root = none ∧ t.Coherent := by
  intro content t
  have hids : t.forest.ids = [0, 3, 4, 5, 1, 2] := by decide
  have hparent : t.parent? root = none := by decide
  refine ⟨hids, hparent, coherent_of_nodup ?_ ?_ hparent⟩
  · rw [hids]
    decide
  · rw [hids]
    decide

end Tree

end HtmlTemplate
