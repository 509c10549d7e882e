import HtmlTemplate.Proofs.Arena.Edits
import HtmlTemplate.Proofs.Tree.EditEffect

/-! # Arenas and forests

An arena stores a tree (`Stores`) if it has a slot for each node, which holds what the node is and the links that are
read off the forest. An edit that fits the arena takes it to one that stores the tree after that edit
(`Stores.patch`): on either side it is an edit of the child lists, and the lists determine the links. So all that is
shown of the links of an arena holds of trees, and all that is shown of trees holds of arenas, after any run of
edits (`stores_edit`).
-/

namespace HtmlTemplate

open Forest Context

namespace Arena

variable {a b : Arena} {t t' : Tree} {lists : NodeId → List NodeId} {m n p anchor : NodeId}

/-- The arena stores the tree. -/
structure Stores (a : Arena) (t : Tree) : Prop where
  numbered : t.Numbered
  size : a.size = t.next
  kind : ∀ n, a.kind? n = t.kind? n
  links : a.links = t.links
  marked : a.marked = t.marked

namespace Stores

variable (h : a.Stores t)

include h

theorem holds : a.Holds t.children := by
  constructor
  · rw [h.links]
    exact Tree.strung_of_nodup h.numbered.nodup
  · rw [h.links]
    exact (Tree.linked_of_nodup h.numbered.nodup).grounded

theorem mem_ids (hn : n < a.size) : n ∈ t.forest.ids := by
  have hkind := h.kind n
  rw [kind?, Array.getElem?_eq_getElem hn] at hkind
  exact Tree.mem_ids_of_kind? hkind.symm

/-- What is above a node in the arena is above it in the tree. -/
theorem above_iff (hp : p < a.size) : Above a.links n p ↔ t.IsAbove n p := by
  obtain ⟨ks, l, x, c, r, rfl, hf⟩ := exists_close (h.mem_ids hp)
  have hup := Tree.along_parent_at h.numbered.nodup hf
  rw [Tree.IsAbove, Tree.ancestors_at h.numbered.nodup hf, ← List.mem_cons, h.links]
  exact ⟨fun habove => mem_of_above habove hup, above_of_mem hup rfl⟩

theorem not_mem_descendants (hn : n < a.size) (hp : p < a.size) (habove : ¬ Above a.links n p) :
    p ∉ t.descendants n := fun hmem =>
  habove ((h.above_iff hp).2 (Tree.isAbove_of_mem_descendants h.numbered.nodup (h.mem_ids hn) hmem))

theorem anchor_not_mem_descendants (hn : n < a.size) (hne : anchor ≠ n) (hp : (a.links anchor).parent = some p)
    (habove : ¬ Above a.links n p) : anchor ∉ t.descendants n := by
  have hout := h.not_mem_descendants hn (h.holds.parent_lt_size hp) habove
  rw [h.links] at hp
  exact Tree.not_mem_descendants_of_parent h.numbered.nodup hp hne hout

theorem idle (hidle : anchor = n ∨ (a.links anchor).parent = none) : anchor = n ∨ t.parent? anchor = none := by
  rwa [h.links] at hidle

/-- An arena whose links hold the child lists of a tree stores it. -/
theorem of_kept (hkept : t.Kept t') (ht' : t'.Numbered) (hnext : t'.next = t.next) (halike : Alike a b)
    (hholds : b.Holds lists) (hlists : t'.children = lists) : b.Stores t' where
  numbered := ht'
  size := by rw [halike.size, h.size, hnext]
  kind n := by rw [halike.kind, h.kind, hkept.kind]
  links := hholds.links_eq (hlists ▸ Tree.strung_of_nodup ht'.nodup)
  marked := by rw [halike.marked, h.marked, hkept.marked]

end Stores

theorem children_eq_of_moved {list : List NodeId} (h : t.Moved t' n p list) :
    t'.children = Function.update (without n t.children) p list := by
  funext m
  by_cases hm : m = p
  · rw [hm, h.here, Function.update_self]
  · rw [h.elsewhere m hm, Function.update_of_ne hm]
    rfl

namespace Stores

variable (h : a.Stores t)

include h

theorem create (made : Kind) : (a.create made).Stores (t.create made) where
  numbered := h.numbered.create made
  size := by rw [size_create, h.size, Tree.next_create]
  kind n := by
    have hkind := h.kind n
    rw [Tree.kind?] at hkind
    rw [kind?_create, Tree.kind?, Tree.find?_create h.numbered, h.size, hkind]
    split
    · rfl
    · split <;> rfl
  links := by
    have hholds := h.holds.create made
    rw [h.size, ← Tree.children_create h.numbered] at hholds
    exact hholds.links_eq (Tree.strung_of_nodup (h.numbered.create made).nodup)
  marked := by
    rw [marked_create, h.marked, Tree.create]
    split <;> rfl

theorem append (hn : n < a.size) (hp : p < a.size) (habove : ¬ Above a.links n p) :
    (a.append p n).Stores (t.append p n) := by
  obtain ⟨x, hfind⟩ := exists_find? (h.mem_ids hn)
  have hmoved := Tree.moved_append h.numbered hfind (h.mem_ids hp) (h.not_mem_descendants hn hp habove)
  exact h.of_kept hmoved.toKept (h.numbered.append p n) (Tree.next_append t p n) (alike_append a p n)
    (h.holds.append hn habove hp) (children_eq_of_moved hmoved)

theorem prepend (hn : n < a.size) (hp : p < a.size) (habove : ¬ Above a.links n p) :
    (a.prepend p n).Stores (t.prepend p n) := by
  obtain ⟨x, hfind⟩ := exists_find? (h.mem_ids hn)
  have hmoved := Tree.moved_prepend h.numbered hfind (h.mem_ids hp) (h.not_mem_descendants hn hp habove)
  exact h.of_kept hmoved.toKept (h.numbered.prepend p n) (Tree.next_prepend t p n) (alike_prepend a p n)
    (h.holds.prepend hn habove hp) (children_eq_of_moved hmoved)

section Beside

variable (hn : n < a.size) (hne : anchor ≠ n) (hp : (a.links anchor).parent = some p)
  (habove : ¬ Above a.links n p)

include hn hne hp habove

theorem insertBefore : (a.insertBefore anchor n).Stores (t.insertBefore anchor n) := by
  obtain ⟨x, hfind⟩ := exists_find? (h.mem_ids hn)
  have hout := h.anchor_not_mem_descendants hn hne hp habove
  obtain ⟨l, r, hsplit, hmoved⟩ := Tree.moved_insertBefore h.numbered hfind (h.links ▸ hp) hout
  exact h.of_kept hmoved.toKept (h.numbered.insertBefore anchor n) (Tree.next_insertBefore t anchor n)
    (alike_insertBefore a anchor n) (h.holds.insertBefore hn habove hsplit) (children_eq_of_moved hmoved)

theorem insertAfter : (a.insertAfter anchor n).Stores (t.insertAfter anchor n) := by
  obtain ⟨x, hfind⟩ := exists_find? (h.mem_ids hn)
  have hout := h.anchor_not_mem_descendants hn hne hp habove
  obtain ⟨l, r, hsplit, hmoved⟩ := Tree.moved_insertAfter h.numbered hfind (h.links ▸ hp) hout
  exact h.of_kept hmoved.toKept (h.numbered.insertAfter anchor n) (Tree.next_insertAfter t anchor n)
    (alike_insertAfter a anchor n) (h.holds.insertAfter hn habove hsplit) (children_eq_of_moved hmoved)

theorem replace : (a.replace anchor n).Stores (t.replace anchor n) := by
  obtain ⟨x, hfind⟩ := exists_find? (h.mem_ids hn)
  have hout := h.anchor_not_mem_descendants hn hne hp habove
  obtain ⟨l, r, hsplit, hmoved, -⟩ := Tree.replaced h.numbered hfind (h.links ▸ hp) hout
  exact h.of_kept hmoved.toKept (h.numbered.replace anchor n) (Tree.next_replace t anchor n)
    (alike_replace a anchor n) (h.holds.replace hn habove hsplit) (children_eq_of_moved hmoved)

end Beside

theorem detach (n : NodeId) : (a.detach n).Stores (t.detach n) := by
  have hdetached := Tree.detached h.numbered n
  exact h.of_kept hdetached.toKept (h.numbered.detach n) (Tree.next_detach t n) (alike_detach a n)
    (h.holds.detach n) (funext hdetached.children)

theorem clear (hp : p < a.size) : (a.clear p).Stores (t.clear p) := by
  have hcleared := Tree.cleared h.numbered (h.mem_ids hp)
  refine h.of_kept hcleared.toKept (h.numbered.clear p) rfl (alike_clearWithin a p a.size) (h.holds.clear p) ?_
  funext m
  by_cases hm : m = p
  · rw [hm, hcleared.here, Function.update_self]
  · rw [hcleared.untouched m hm, Function.update_of_ne hm]

theorem mark (n : NodeId) : (a.mark n).Stores (t.mark n) :=
  ⟨⟨h.numbered.nodup, h.numbered.bound⟩, h.size, h.kind, h.links, rfl⟩

/-- An edit of nodes of the arena that puts none below itself does the same to the arena and to the tree. -/
theorem patch_of_not_above {e : Edit} (hnodes : ∀ m ∈ e.nodes, m < a.size)
    (habove : ∀ {n p}, a.moves? e = some (n, p) → ¬ Above a.links n p) : (e.patch a).Stores (e.apply t) := by
  cases e with
  | create kind => exact h.create kind
  | append p n => exact h.append (hnodes n (by simp [Edit.nodes])) (hnodes p List.mem_cons_self) (habove rfl)
  | prepend p n => exact h.prepend (hnodes n (by simp [Edit.nodes])) (hnodes p List.mem_cons_self) (habove rfl)
  | insertBefore anchor n =>
    rcases idle_or_beside a anchor n with hidle | ⟨p, hne, hp⟩
    · rw [Edit.patch, Edit.apply, insertBefore_idle hidle, Tree.insertBefore_idle (h.idle hidle)]
      exact h
    · exact h.insertBefore (hnodes n (by simp [Edit.nodes])) hne hp (habove (beside?_eq_some.2 ⟨hne, rfl, hp⟩))
  | insertAfter anchor n =>
    rcases idle_or_beside a anchor n with hidle | ⟨p, hne, hp⟩
    · rw [Edit.patch, Edit.apply, insertAfter_idle hidle, Tree.insertAfter_idle (h.idle hidle)]
      exact h
    · exact h.insertAfter (hnodes n (by simp [Edit.nodes])) hne hp (habove (beside?_eq_some.2 ⟨hne, rfl, hp⟩))
  | replace old new =>
    have hn := hnodes new (by simp [Edit.nodes])
    rcases idle_or_beside a old new with hidle | ⟨p, hne, hp⟩
    · rw [Edit.patch, Edit.apply, replace_idle hidle, Tree.replace_idle (h.mem_ids hn) (h.idle hidle)]
      exact h
    · exact h.replace hn hne hp (habove (beside?_eq_some.2 ⟨hne, rfl, hp⟩))
  | detach n => exact h.detach n
  | clear p => exact h.clear (hnodes p List.mem_cons_self)
  | mark n => exact h.mark n

/-- An edit that fits does the same to the arena and to the tree. -/
theorem patch {e : Edit} (hfits : e.fits a = true) : (e.patch a).Stores (e.apply t) :=
  h.patch_of_not_above (fits_iff.1 hfits).1 fun hmoves => h.holds.not_above_of_fits hfits hmoves

end Stores

theorem stores_run {edits : List Edit} (h : a.Stores t) (hadmits : a.admits edits = true) :
    (a.edit edits).Stores (t.edit edits) := by
  induction edits generalizing a t with
  | nil => exact h
  | cons e edits ih =>
    obtain ⟨hfits, hrest⟩ := (Bool.and_eq_true_iff ..).1 hadmits
    exact ih (h.patch hfits) hrest

theorem stores_empty : empty.Stores Tree.empty where
  numbered := .empty
  size := rfl
  kind n := by
    cases n <;> rfl
  links := by
    have hlists : Tree.empty.children = fun _ => [] := by
      funext m
      rw [Tree.children_eq_childIds, childIds, Tree.empty, tree, Forest.find?]
      split <;> rfl
    exact holds_empty.links_eq (hlists ▸ Tree.strung_of_nodup Tree.Numbered.empty.nodup)
  marked := rfl

/-- The arena and the forest, each after the same edits of the empty document, are one tree. -/
theorem stores_edit {edits : List Edit} (h : empty.admits edits = true) :
    (empty.edit edits).Stores (Tree.empty.edit edits) :=
  stores_run stores_empty h

end Arena

end HtmlTemplate
