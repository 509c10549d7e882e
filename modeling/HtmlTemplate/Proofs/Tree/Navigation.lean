import HtmlTemplate.Proofs.Forest.Context

/-! # Looking around in a tree

In a tree whose nodes have different numbers, what stands around a node is read off the context in
which it stands: the frames above it and the trees on either side of it.
-/

namespace HtmlTemplate

open Forest Context

/-- No number is in use twice, and none from the next one on is in use. -/
structure Tree.Numbered (t : Tree) : Prop where
  nodup : t.forest.ids.Nodup
  bound : ∀ n ∈ t.forest.ids, n < t.next

/-! ## Neighbours in a list -/

theorem after?_append {n : NodeId} {l : List NodeId} (h : n ∉ l) (r : List NodeId) :
    after? n (l ++ n :: r) = r.head? := by
  induction l with
  | nil =>
    cases r with
    | nil => rfl
    | cons m r => simp [after?]
  | cons m l ih =>
    rw [List.mem_cons, not_or] at h
    have hm : m ≠ n := fun e => h.1 e.symm
    cases l with
    | nil => simp [after?, hm, ← ih h.2]
    | cons m' l => simpa [after?, hm] using ih h.2

theorem exists_root {n : NodeId} {f : Forest Node} (h : n ∈ f.rootIds) :
    ∃ (l : Forest Node) (a : Node) (c r : Forest Node), a.id = n ∧ f = l ++ cons a c r := by
  induction f with
  | nil => exact absurd h List.not_mem_nil
  | cons b d s _ ih =>
    rw [rootIds_cons, List.mem_cons] at h
    rcases h with h | h
    · exact ⟨nil, b, d, s, h.symm, rfl⟩
    · obtain ⟨l, a, c, r, ha, hs⟩ := ih h
      exact ⟨cons b d l, a, c, r, ha, by rw [hs]; rfl⟩

theorem exists_mem_roots {x : Node} {f : Forest Node} (h : x ∈ f.roots) :
    ∃ l c r : Forest Node, f = l ++ cons x c r := by
  induction f with
  | nil => exact absurd h List.not_mem_nil
  | cons b d g _ ih =>
    rw [roots, List.mem_cons] at h
    rcases h with rfl | h
    · exact ⟨nil, d, g, rfl⟩
    · obtain ⟨l, c, r, rfl⟩ := ih h
      exact ⟨cons b d l, c, r, rfl⟩

theorem exists_last_root {n : NodeId} {f : Forest Node} (h : f.rootIds.getLast? = some n) :
    ∃ (l : Forest Node) (b : Node) (m : Forest Node), b.id = n ∧ f = l ++ tree b m := by
  induction f with
  | nil => cases h
  | cons a c r _ ih =>
    cases r with
    | nil => exact ⟨nil, a, c, Option.some.inj h, rfl⟩
    | cons x d r =>
      rw [rootIds_cons, rootIds_cons, List.getLast?_cons_cons] at h
      obtain ⟨l, b, m, hb, hr⟩ := ih h
      exact ⟨cons a c l, b, m, hb, by rw [hr]; rfl⟩

/-! ## Around one node -/

section At

variable {t : Tree} {ks : Context} {l c r : Forest Node} {a : Node}

/-- A number occurs nowhere else in the forest. -/
theorem apart_of_nodup (h : (close ks (l ++ cons a c r)).ids.Nodup) :
    a.id ∉ leading ks ∧ a.id ∉ l.ids ∧ a.id ∉ c.ids ∧ a.id ∉ r.ids ∧ a.id ∉ (rest ks).ids := by
  rw [ids_close, ids_append, ids_cons] at h
  simp only [List.nodup_append, List.nodup_cons, List.mem_append, List.mem_cons, not_or] at h
  obtain ⟨-, ⟨⟨-, ⟨⟨hc, hr⟩, -⟩, hl⟩, -, hrest⟩, hlead⟩ := h
  refine ⟨fun hm => hlead _ hm a.id (by simp) rfl, fun hm => hl _ hm a.id (by simp) rfl, hc, hr,
    fun hm => hrest a.id (by simp) a.id hm rfl⟩

namespace Tree

variable (ht : t.forest.ids.Nodup) (h : t.forest = close ks (l ++ cons a c r))

include ht h

theorem find?_at : t.find? a.id = some (a.kind, c) := by
  obtain ⟨hk, hl, -, -, -⟩ := apart_of_nodup (h ▸ ht)
  rw [Tree.find?, h, find?_close hk (by simp), find?_append, (find?_eq_none_iff a.id l).2 hl,
    Forest.find?, if_pos rfl]
  rfl

theorem kind?_at : t.kind? a.id = some a.kind := by
  rw [kind?, find?_at ht h]
  rfl

theorem below_at : t.below a.id = c := by
  rw [below, find?_at ht h]

theorem children_at : t.children a.id = c.rootIds := by
  rw [children, below_at ht h]

theorem subtree?_at : t.subtree? a.id = some (tree a c) := by
  rw [subtree?, find?_at ht h]
  rfl

theorem descendants_at : t.descendants a.id = a.id :: c.ids := by
  rw [descendants, find?_at ht h]

theorem parent?_at : t.parent? a.id = (above ks).head? := by
  obtain ⟨hk, hl, hc, hr, hrest⟩ := apart_of_nodup (h ▸ ht)
  have hroot : a.id ∈ (l ++ cons a c r).rootIds := by simp
  have hnone : (l ++ cons a c r).parent? a.id = none := by
    have hc' : a.id ∉ c.rootIds := fun hm => hc (mem_ids_of_mem_rootIds hm)
    rw [parent?_append, parent?_eq_none hl, Forest.parent?, if_neg hc', parent?_eq_none hc,
      parent?_eq_none hr]
    rfl
  rw [Tree.parent?, h, parent?_close_root hk hrest hroot hnone]

theorem ancestors_at : t.ancestors a.id = above ks := by
  obtain ⟨hk, hl, -, -, -⟩ := apart_of_nodup (h ▸ ht)
  rw [ancestors, h, above?_close [] hk (by simp), above?_append, (above?_eq_none_iff _ _ _).2 hl,
    above?, if_pos rfl, List.append_nil]
  rfl

theorem siblings_at (hks : ks ≠ []) : t.siblings a.id = l.rootIds ++ a.id :: r.rootIds := by
  obtain ⟨k, ks, rfl⟩ := List.exists_cons_of_ne_nil hks
  have hp : t.parent? a.id = some k.node.id := parent?_at ht h
  have hk : t.forest = close ks (k.before ++ cons k.node (l ++ cons a c r) k.after) := h
  rw [siblings, hp]
  simp [children_at ht hk]

theorem nextSibling?_at (hks : ks ≠ []) : t.nextSibling? a.id = r.rootIds.head? := by
  obtain ⟨-, hl, -, -, -⟩ := apart_of_nodup (h ▸ ht)
  rw [nextSibling?, siblings_at ht h hks, after?_append fun hm => hl (mem_ids_of_mem_rootIds hm)]

theorem previousSibling?_at (hks : ks ≠ []) : t.previousSibling? a.id = l.rootIds.getLast? := by
  obtain ⟨-, -, -, hr, -⟩ := apart_of_nodup (h ▸ ht)
  have hr' : a.id ∉ r.rootIds.reverse := fun hm =>
    hr (mem_ids_of_mem_rootIds (List.mem_reverse.1 hm))
  rw [previousSibling?, siblings_at ht h hks, List.reverse_append, List.reverse_cons,
    List.append_assoc, List.singleton_append, after?_append hr', List.head?_reverse]

theorem preceding_at (hks : ks ≠ []) : t.preceding a.id = l.rootIds.reverse := by
  obtain ⟨-, hl, -, -, -⟩ := apart_of_nodup (h ▸ ht)
  have hne : ∀ m ∈ l.rootIds, decide (m ≠ a.id) = true := by
    intro m hm
    have : m ≠ a.id := fun e => hl (mem_ids_of_mem_rootIds (e ▸ hm))
    simpa using this
  rw [preceding, siblings_at ht h hks, List.takeWhile_append_of_pos hne]
  simp

end Tree

end At

/-! ## Nodes that have a parent -/

namespace Tree

variable {t : Tree}

theorem parent?_of_not_mem {n : NodeId} (h : n ∉ t.forest.ids) : t.parent? n = none :=
  parent?_eq_none h

theorem find?_of_not_mem {n : NodeId} (h : n ∉ t.forest.ids) : t.find? n = none :=
  (find?_eq_none_iff n t.forest).2 h

/-- A node with a parent stands in a context whose innermost frame is that of the parent. -/
theorem exists_of_parent? (ht : t.forest.ids.Nodup) {n p : NodeId} (h : t.parent? n = some p) :
    ∃ (k : Frame) (ks : Context) (l : Forest Node) (a : Node) (c r : Forest Node),
      a.id = n ∧ k.node.id = p ∧ t.forest = close (k :: ks) (l ++ cons a c r) := by
  have hn : n ∈ t.forest.ids := by
    refine Classical.byContradiction fun hn => ?_
    rw [parent?_of_not_mem hn] at h
    cases h
  obtain ⟨ks, l, a, c, r, rfl, hf⟩ := exists_close hn
  rw [parent?_at ht hf] at h
  cases ks with
  | nil => cases h
  | cons k ks => exact ⟨k, ks, l, a, c, r, rfl, Option.some.inj h, hf⟩

end Tree

end HtmlTemplate
