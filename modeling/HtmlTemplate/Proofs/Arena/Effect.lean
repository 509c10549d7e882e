import HtmlTemplate.Proofs.Arena.Edits

/-! # Edits of an arena as edits of child lists

`Edit.Effect` says of each edit what it does to the lists of children and that it leaves all else alone, and
`effect_patch` that it does so in every arena whose links agree. As that includes that the links agree afterwards, they
do after any run of edits of the empty document (`linked_edit`).
-/

namespace HtmlTemplate

namespace Arena

variable {a b : Arena} {m n p anchor : NodeId} {list : List NodeId}

/-! ## What an edit leaves alone -/

/-- The children of `p`, without `n`. -/
def others (a : Arena) (n p : NodeId) : List NodeId :=
  (a.children p).filter (· ≠ n)

/-- Every node is what it was, the same one is marked, and the links agree. -/
structure Kept (a b : Arena) : Prop where
  kind : ∀ m, b.kind? m = a.kind? m
  marked : b.marked = a.marked
  linked : Linked b.links

/-- Node `n` was moved to below `p`, whose children are `list` now. It is gone from where it was, no other
child list has changed, and nothing has changed below `n`. -/
structure Moved (a b : Arena) (n p : NodeId) (list : List NodeId) : Prop extends Kept a b where
  parent : (b.links n).parent = some p
  here : b.children p = list
  elsewhere : ∀ m, m ≠ p → b.children m = a.others n m
  untouched : ∀ m, m ≠ p → (a.links n).parent ≠ some m → b.children m = a.children m
  subtree : ∀ m, Above a.links n m → b.children m = a.children m

/-- Node `n` was put where `anchor` is among the children of its parent, so that `there` stands in place of
`anchor` now. Where `anchor` is `n` or has no parent, nothing was done. -/
structure Placed (a b : Arena) (anchor n : NodeId) (there : List NodeId) : Prop where
  idle : anchor = n ∨ (a.links anchor).parent = none → b = a
  moved : ∀ p, anchor ≠ n → (a.links anchor).parent = some p →
    ∃ l r, a.others n p = l ++ anchor :: r ∧ a.Moved b n p (l ++ (there ++ r))

/-- Node `n` was taken out. Its former parent has lost it, and no other child list has changed. -/
structure Detached (a b : Arena) (n : NodeId) : Prop extends Kept a b where
  loose : (b.links n).parent = none
  children : ∀ m, b.children m = a.others n m
  untouched : ∀ m, (a.links n).parent ≠ some m → b.children m = a.children m

/-- All children of `p` were taken out. No other child list has changed. -/
structure Cleared (a b : Arena) (p : NodeId) : Prop extends Kept a b where
  here : b.children p = []
  untouched : ∀ m, m ≠ p → b.children m = a.children m
  loose : ∀ n ∈ a.children p, (b.links n).parent = none

/-- A node was made beside the others, a conditional with its two branches. -/
structure Created (a b : Arena) (made : Kind) : Prop where
  kind : b.kind? a.size = some made
  loose : (b.links a.size).parent = none
  children : b.children a.size = if made.isConditional then [a.size + 1, a.size + 2] else []
  branches : made.isConditional = true → ∀ m ∈ b.children a.size, b.kind? m = some .branch
  untouched : ∀ m, m < a.size → b.kind? m = a.kind? m ∧ b.children m = a.children m
  marked : b.marked = a.marked
  linked : Linked b.links

end Arena

/-- What an edit does, said of the child lists: `a` is the arena before it and `b` the one after. -/
def Edit.Effect (a b : Arena) : Edit → Prop
  | create kind => a.Created b kind
  | append p n => a.Moved b n p (a.others n p ++ [n])
  | prepend p n => a.Moved b n p (n :: a.others n p)
  | insertBefore anchor n => a.Placed b anchor n [n, anchor]
  | insertAfter anchor n => a.Placed b anchor n [anchor, n]
  | replace old new => a.Placed b old new [new] ∧ (old ≠ new → (b.links old).parent = none)
  | detach n => a.Detached b n
  | clear p => a.Cleared b p
  | mark n => b = { a with marked := some n }

namespace Arena

variable {a b : Arena} {m n p anchor old : NodeId} {list l r : List NodeId}

theorem holds_children (h : Linked a.links) : a.Holds a.children := by
  obtain ⟨lists, hlists⟩ := exists_holds h
  have hchildren : a.children = lists := funext hlists.children_eq
  rwa [hchildren]

namespace Holds

variable (h : a.Holds a.children)

include h

theorem others_of_ne (hm : (a.links n).parent ≠ some m) : a.others n m = a.children m :=
  filter_ne_of_not_mem fun hn => hm ((h.parent m n).1 hn)

theorem moved (h' : b.Holds (Function.update (without n a.children) p list)) (halike : Alike a b)
    (hn : n ∈ list) (hloop : ¬ Above a.links n p) : Moved a b n p list := by
  have hhere : b.children p = list := by rw [h'.children_eq, Function.update_self]
  have helsewhere : ∀ m, m ≠ p → b.children m = a.others n m := by
    intro m hm
    rw [h'.children_eq, Function.update_of_ne hm]
    rfl
  have huntouched : ∀ m, m ≠ p → (a.links n).parent ≠ some m → b.children m = a.children m := by
    intro m hm hparent
    rw [helsewhere m hm, h.others_of_ne hparent]
  refine ⟨⟨halike.kind, halike.marked, h'.linked⟩, ?_, hhere, helsewhere, huntouched, fun m habove => ?_⟩
  · rw [← h'.parent, Function.update_self]
    exact hn
  · refine huntouched m ?_ fun hparent => h.grounded.not_above_parent hparent habove
    rintro rfl
    exact hloop habove

theorem detached (n : NodeId) : Detached a (a.detach n) n := by
  have h' := h.detach n
  have halike := alike_detach a n
  refine ⟨⟨halike.kind, halike.marked, h'.linked⟩, parent_detach_self h.toStrung n, h'.children_eq, fun m hm => ?_⟩
  rw [h'.children_eq]
  exact h.others_of_ne hm

theorem cleared (p : NodeId) : Cleared a (a.clear p) p := by
  have h' := h.clear p
  have halike := alike_clearWithin a p a.size
  refine ⟨⟨halike.kind, halike.marked, h'.linked⟩, ?_, fun m hm => ?_, fun n hn => ?_⟩
  · rw [h'.children_eq, Function.update_self]
  · rw [h'.children_eq, Function.update_of_ne hm]
  · refine h'.parent_eq_none fun q hmem => ?_
    by_cases hq : q = p
    · rw [hq, Function.update_self] at hmem
      exact List.not_mem_nil hmem
    · rw [Function.update_of_ne hq] at hmem
      exact hq (h.eq_of_mem hmem hn)

theorem created (made : Kind) : Created a (a.create made) made := by
  have h' := h.create made
  have hkind := kind?_create a made
  have hchildren : (a.create made).children a.size =
      if made.isConditional then [a.size + 1, a.size + 2] else [] := by
    rw [h'.children_eq]
    split
    · rw [Function.update_self]
    · exact h.eq_nil_of_size_le (Nat.le_refl _)
  refine ⟨?_, h'.parent_eq_none fun q => ?_, hchildren, fun hmade m hm => ?_, fun m hm => ⟨?_, ?_⟩,
    marked_create a made, h'.linked⟩
  · rw [hkind, if_pos rfl]
  · have hout := h.not_mem_of_size_le (Nat.le_refl a.size)
    split
    · by_cases hq : q = a.size
      · rw [hq, Function.update_self]
        simp
      · rw [Function.update_of_ne hq]
        exact hout q
    · exact hout q
  · rw [hchildren, if_pos hmade] at hm
    rw [hkind]
    grind
  · rw [hkind]
    grind
  · rw [h'.children_eq]
    split
    · rw [Function.update_of_ne (Nat.ne_of_lt hm)]
    · rfl

section Placing

variable (hn : n < a.size)

include hn

theorem placed_insertBefore (hloop : a.loopsBeside anchor n = false) :
    Placed a (a.insertBefore anchor n) anchor n [n, anchor] := by
  refine ⟨insertBefore_idle, fun p hne hp => ?_⟩
  obtain ⟨l, r, hsplit⟩ := h.exists_split hne hp
  have habove := h.not_above_of_beside hne hp hloop
  exact ⟨l, r, hsplit, h.moved (h.insertBefore hn habove hsplit) (alike_insertBefore ..) (by simp) habove⟩

theorem placed_insertAfter (hloop : (Edit.insertAfter anchor n).loops a = false) :
    Placed a (a.insertAfter anchor n) anchor n [anchor, n] := by
  refine ⟨insertAfter_idle, fun p hne hp => ?_⟩
  obtain ⟨l, r, hsplit⟩ := h.exists_split hne hp
  have habove := h.not_above_of_insertAfter hne hp hloop
  exact ⟨l, r, hsplit, h.moved (h.insertAfter hn habove hsplit) (alike_insertAfter ..) (by simp) habove⟩

theorem placed_replace (hloop : a.loopsBeside old n = false) :
    Placed a (a.replace old n) old n [n] ∧ (old ≠ n → ((a.replace old n).links old).parent = none) := by
  refine ⟨⟨replace_idle, fun p hne hp => ?_⟩, fun hne => ?_⟩
  · obtain ⟨l, r, hsplit⟩ := h.exists_split hne hp
    have habove := h.not_above_of_beside hne hp hloop
    exact ⟨l, r, hsplit, h.moved (h.replace hn habove hsplit) (alike_replace ..) (by simp) habove⟩
  · cases hp : (a.links old).parent with
    | none => rw [replace_idle (Or.inr hp), hp]
    | some p =>
      obtain ⟨l, r, hsplit⟩ := h.exists_split hne hp
      have hbefore := h.insertBefore hn (h.not_above_of_beside hne hp hloop) hsplit
      rw [replace_eq hne hp]
      exact parent_detach_self hbefore.toStrung old

end Placing

theorem effect {e : Edit} (hfits : e.fits a = true) : e.Effect a (e.patch a) := by
  obtain ⟨hnodes, hloops⟩ := fits_iff.1 hfits
  cases e with
  | create kind => exact h.created kind
  | append p n =>
    have hp := hnodes p List.mem_cons_self
    have habove := h.not_above hp hloops
    exact h.moved (h.append (hnodes n (by simp [Edit.nodes])) habove hp) (alike_append ..) (by simp) habove
  | prepend p n =>
    have hp := hnodes p List.mem_cons_self
    have habove := h.not_above_of_prepend hp hloops
    exact h.moved (h.prepend (hnodes n (by simp [Edit.nodes])) habove hp) (alike_prepend ..) (by simp) habove
  | insertBefore anchor n => exact h.placed_insertBefore (hnodes n (by simp [Edit.nodes])) hloops
  | insertAfter anchor n => exact h.placed_insertAfter (hnodes n (by simp [Edit.nodes])) hloops
  | replace old new => exact h.placed_replace (hnodes new (by simp [Edit.nodes])) hloops
  | detach n => exact h.detached n
  | clear p => exact h.cleared p
  | mark n => rfl

end Holds

/-! ## Runs of edits -/

theorem Placed.linked {there : List NodeId} (h : a.Placed b anchor n there) (ha : Linked a.links) :
    Linked b.links := by
  rcases idle_or_beside a anchor n with hidle | ⟨p, hne, hp⟩
  · rw [h.idle hidle]
    exact ha
  · obtain ⟨l, r, -, hmoved⟩ := h.moved p hne hp
    exact hmoved.linked

theorem linked_of_effect (ha : Linked a.links) {e : Edit} (h : e.Effect a b) : Linked b.links := by
  cases e with
  | create kind => exact h.linked
  | append p n => exact h.linked
  | prepend p n => exact h.linked
  | insertBefore anchor n => exact Placed.linked h ha
  | insertAfter anchor n => exact Placed.linked h ha
  | replace old new => exact h.1.linked ha
  | detach n => exact h.linked
  | clear p => exact h.linked
  | mark n =>
    rw [show b = _ from h]
    exact ha

theorem linked_run {edits : List Edit} (ha : Linked a.links) (h : a.admits edits = true) :
    Linked (a.edit edits).links := by
  induction edits generalizing a with
  | nil => exact ha
  | cons e edits ih =>
    obtain ⟨hfits, hrest⟩ := (Bool.and_eq_true_iff ..).1 h
    exact ih (linked_of_effect ha ((holds_children ha).effect hfits)) hrest

/-- An edit of an arena is an edit of the child lists, as long as it names nodes of the arena and does not
put a node below itself. -/
theorem effect_patch (ha : Linked a.links) {e : Edit} (hfits : e.fits a = true) : e.Effect a (e.patch a) :=
  (holds_children ha).effect hfits

/-- A loop is replaced by one of the texts in it. -/
theorem effect_patch_unwrapped :
    let a := empty.edit [.create (.loop "xs as x"), .create (.text "a"), .create (.text "b"), .create (.text "c"),
      .append 0 1, .append 1 2, .append 1 3, .append 0 4]
    Linked a.links ∧ (Edit.replace 1 3).fits a = true ∧
      (Edit.replace 1 3).Effect a ((Edit.replace 1 3).patch a) := by
  intro a
  have ha : Linked a.links := linked_run holds_empty.linked (by decide)
  exact ⟨ha, by decide, effect_patch ha (by decide)⟩

/-- The links agree after every run of edits of the empty document, as long as each edit names nodes that
there are and does not put a node below itself. -/
theorem linked_edit {edits : List Edit} (h : empty.admits edits = true) : Linked (empty.edit edits).links :=
  linked_run holds_empty.linked h

/-- Moves within one list, past the first and the last node of it, next to where a node is already and beside a
node without a parent, and a replacement that is taken from what it replaces. -/
theorem linked_edit_moves :
    let edits : List Edit :=
      [.create .branch, .create .branch, .create .branch, .create .branch, .append 0 1, .append 1 2, .append 1 3,
        .prepend 1 4, .insertAfter 2 3, .insertBefore 3 2, .insertAfter 3 4, .prepend 1 4, .insertAfter 4 3,
        .replace 1 3, .insertBefore 1 2, .append 3 2, .replace 3 2, .clear 1, .detach 2, .mark 2]
    empty.admits edits = true ∧ Linked (empty.edit edits).links :=
  ⟨by decide, linked_edit (by decide)⟩

end Arena

end HtmlTemplate
