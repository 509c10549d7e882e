import HtmlTemplate.Proofs.Arena.Patches
import Mathlib.Data.List.Perm.Subperm

/-! # Edits of an arena

What each edit does to the lists of children that the links of an arena hold. The edits that are made of others follow
from those: each of them comes down to one node that is taken out of its list and put into another, or the same, at a
place that is told by a neighbour. Where an edit finds the node at its place already it does nothing, and that comes to
the same.
-/

namespace HtmlTemplate

namespace Arena

variable {a b : Arena} {lists : NodeId → List NodeId} {m n p q anchor : NodeId} {l r : List NodeId} {made : Kind}

/-! ## Reading the links -/

theorem walk_eq {link : NodeId → Option NodeId} {start : Option NodeId} {bound : Nat}
    (h : Along link start l) (hbound : l.length ≤ bound) : walk link bound start = l := by
  induction h generalizing bound with
  | done => cases bound <;> rfl
  | step _ ih =>
    cases bound with
    | zero => cases hbound
    | succ bound => rw [walk, ih (Nat.le_of_succ_le_succ hbound)]

theorem length_le_size (hl : l.Nodup) (hsize : ∀ m ∈ l, m < a.size) : l.length ≤ a.size := by
  have hsub : l ⊆ List.range a.size := fun m hm => List.mem_range.2 (hsize m hm)
  have hle := (hl.subperm hsub).length_le
  rwa [List.length_range] at hle

theorem Holds.children_eq (h : a.Holds lists) (p : NodeId) : a.children p = lists p :=
  walk_eq (h.along_next p) (length_le_size (h.nodup p) fun _ hm => lt_size_of_mem h.toStrung hm)

/-- The way up from a node of the arena, which `isAbove` follows to its end. -/
theorem Holds.exists_up (h : a.Holds lists) (hn : n < a.size) :
    ∃ up, Along (fun k => (a.links k).parent) (some n) up ∧ ∀ m, a.isAbove m n = true ↔ m ∈ up := by
  obtain ⟨up, hup⟩ := h.grounded n
  have hsize : ∀ m ∈ up, m < a.size := by
    have hway : ∀ {start l}, Along (fun k => (a.links k).parent) start l →
        (∀ k, start = some k → k < a.size) → ∀ m ∈ l, m < a.size := by
      intro start l hl
      induction hl with
      | done => exact fun _ => List.forall_mem_nil _
      | @step k l _ ih =>
        intro hk
        refine List.forall_mem_cons.2 ⟨hk k rfl, ih fun p hp => ?_⟩
        exact lt_size_of_ne_nil h.toStrung (List.ne_nil_of_mem ((h.parent p k).2 hp))
    exact hway hup fun k hk => Option.some.inj hk ▸ hn
  refine ⟨up, hup, fun m => ?_⟩
  rw [isAbove, walk_eq hup (length_le_size hup.nodup hsize), List.contains_iff_mem]

theorem Holds.isAbove_iff (h : a.Holds lists) (hn : n < a.size) : a.isAbove m n = true ↔ Above a.links m n := by
  obtain ⟨up, hup, hiff⟩ := h.exists_up hn
  rw [hiff]
  exact ⟨above_of_mem hup rfl, fun habove => mem_of_above habove hup⟩

theorem size_alloc (a : Arena) (kind : Kind) : (a.alloc kind).size = a.size + 1 :=
  Array.size_push ..

theorem getElem?_alloc (a : Arena) (kind : Kind) (m : NodeId) :
    (a.alloc kind).slots[m]? = if m = a.size then some ⟨.bare, kind⟩ else a.slots[m]? :=
  Array.getElem?_push

theorem kind?_alloc (a : Arena) (kind : Kind) (m : NodeId) :
    (a.alloc kind).kind? m = if m = a.size then some kind else a.kind? m := by
  rw [kind?, kind?, getElem?_alloc]
  split <;> rfl

theorem links_alloc (a : Arena) (kind : Kind) : (a.alloc kind).links = a.links := by
  funext m
  by_cases hm : m = a.size
  · rw [hm, links_of_size_le (Nat.le_refl a.size), links, getElem?_alloc, if_pos rfl]
    rfl
  · rw [links, links, getElem?_alloc, if_neg hm]

theorem holds_empty : empty.Holds fun _ => [] := by
  have hbare : empty.links = fun _ => .bare := by
    rw [empty, links_alloc]
    rfl
  refine ⟨⟨fun p l r h => ?_, fun _ => List.nodup_nil, fun p n => ?_, fun n _ => ?_⟩, fun n => ⟨[n], .step ?_⟩⟩
  · obtain ⟨rfl, rfl⟩ := List.append_eq_nil_iff.1 h.symm
    rw [hbare]
    exact ⟨rfl, rfl⟩
  · rw [hbare]
    simp [Links.bare]
  · rw [hbare]
    exact ⟨rfl, rfl⟩
  · rw [hbare]
    exact .done

/-! ## Lists after a move -/

theorem replace_eq {old : NodeId} (hne : old ≠ n) (hp : (a.links old).parent = some p) :
    a.replace old n = (a.insertBefore old n).detach old := by
  rw [replace, if_neg]
  simp [hne, hp]

namespace Holds

variable (h : a.Holds lists)

include h

/-- A list is put back as it was. -/
theorem update_without (hn : n ∈ lists p) : Function.update (without n lists) p (lists p) = lists := by
  funext q
  by_cases hq : q = p
  · rw [hq, Function.update_self]
  · rw [Function.update_of_ne hq, h.without_of_ne hn hq]

omit h in
theorem mem_of_split (hsplit : lists p = l ++ anchor :: r) : anchor ∈ lists p := by
  rw [hsplit]
  simp

theorem exists_split (hne : anchor ≠ n) (hp : (a.links anchor).parent = some p) :
    ∃ l r, without n lists p = l ++ anchor :: r :=
  List.append_of_mem (List.mem_filter.2 ⟨(h.parent p anchor).2 hp, decide_eq_true hne⟩)

variable (hn : n < a.size) (hloop : ¬ Above a.links n p)

include hn hloop

theorem prepend (hp : p < a.size) :
    (a.prepend p n).Holds (Function.update (without n lists) p (n :: without n lists p)) := by
  have hfirst := h.first p
  cases hl : lists p with
  | nil =>
    have hprepend : a.prepend p n = a.append p n := by
      rw [Arena.prepend, hfirst, hl]
      rfl
    have happend := h.append hn hloop hp
    rw [hprepend]
    rwa [without, hl] at happend ⊢
  | cons c rest =>
    have hprepend : a.prepend p n = a.insertBefore c n := by
      rw [Arena.prepend, hfirst, hl]
      rfl
    rw [hprepend]
    have hsplit : lists p = [] ++ c :: rest := hl
    by_cases hc : c = n
    · -- The node is the first one already.
      subst hc
      have hsame : c :: without c lists p = lists p := by
        rw [h.without_self hsplit, hl]
        rfl
      rw [insertBefore_idle (Or.inl rfl), hsame, h.update_without (mem_of_split hsplit)]
      exact h
    · have hrest : without n lists p = [] ++ c :: rest.filter (· ≠ n) := by
        rw [without, hl, filter_ne_cons hc]
        rfl
      rw [hrest]
      exact h.insertBefore hn hloop hrest

variable (hsplit : without n lists p = l ++ anchor :: r)

include hsplit

theorem insertAfter :
    (a.insertAfter anchor n).Holds (Function.update (without n lists) p (l ++ anchor :: n :: r)) := by
  obtain ⟨hanchor, hne⟩ := List.mem_filter.1 (mem_of_split hsplit)
  have hne : anchor ≠ n := of_decide_eq_true hne
  have hparent := (h.parent p anchor).1 hanchor
  obtain ⟨l₀, r₀, hsplit₀⟩ := List.append_of_mem hanchor
  obtain ⟨rfl, rfl⟩ : l = l₀.filter (· ≠ n) ∧ r = r₀.filter (· ≠ n) := by
    have hout := (h.detach n).not_mem_around hsplit
    rw [List.mem_append, not_or] at hout
    rw [without, hsplit₀, List.filter_append, filter_ne_cons hne] at hsplit
    have hsame := (List.append_cons_inj_of_notMem hout.1 hout.2).1 hsplit.symm
    exact ⟨hsame.1, hsame.2.2⟩
  have hnext := h.next hsplit₀
  cases r₀ with
  | nil =>
    have hafter : a.insertAfter anchor n = a.append p n := by
      rw [Arena.insertAfter, if_neg hne, hparent, hnext]
      rfl
    have happend := h.append hn hloop (lt_size_of_ne_nil h.toStrung (List.ne_nil_of_mem hanchor))
    rw [hsplit, List.append_assoc] at happend
    rw [hafter]
    exact happend
  | cons m r₀ =>
    have hafter : a.insertAfter anchor n = if m = n then a else a.insertBefore m n := by
      rw [Arena.insertAfter, if_neg hne, hparent, hnext]
      rfl
    by_cases hm : m = n
    · -- The node is where it should be.
      subst hm
      have hsplit' : lists p = (l₀ ++ [anchor]) ++ m :: r₀ := by
        rw [hsplit₀, List.append_assoc]
        rfl
      have hout := h.not_mem_around hsplit'
      rw [List.append_assoc, List.mem_append, not_or, List.singleton_append, List.mem_cons, not_or] at hout
      have hsame : l₀.filter (· ≠ m) ++ anchor :: m :: (m :: r₀).filter (· ≠ m) = lists p := by
        rw [filter_ne_of_not_mem hout.1, List.filter_cons_of_neg (by simp), filter_ne_of_not_mem hout.2.2, hsplit₀]
      rw [hafter, if_pos rfl, hsame, h.update_without (mem_of_split hsplit')]
      exact h
    · rw [filter_ne_cons hm] at hsplit ⊢
      have hsplit' : without n lists p = (l₀.filter (· ≠ n) ++ [anchor]) ++ m :: r₀.filter (· ≠ n) := by
        rw [hsplit, List.append_assoc]
        rfl
      have hbefore := h.insertBefore hn hloop hsplit'
      rw [List.append_assoc] at hbefore
      rw [hafter, if_neg hm]
      exact hbefore

theorem replace : (a.replace anchor n).Holds (Function.update (without n lists) p (l ++ n :: r)) := by
  obtain ⟨hanchor, hne⟩ := List.mem_filter.1 (mem_of_split hsplit)
  have hbefore := h.insertBefore hn hloop hsplit
  have hhere := (Function.update_self p (l ++ n :: anchor :: r) (without n lists)).trans (List.append_cons ..)
  have hlists : without anchor (Function.update (without n lists) p (l ++ n :: anchor :: r)) =
      Function.update (without n lists) p (l ++ n :: r) := by
    funext q
    by_cases hq : q = p
    · rw [hq, hbefore.without_self hhere, Function.update_self, List.append_assoc]
      rfl
    · rw [hbefore.without_of_ne (mem_of_split hhere) hq, Function.update_of_ne hq, Function.update_of_ne hq]
  rw [replace_eq (of_decide_eq_true hne) ((h.parent p anchor).1 hanchor), ← hlists]
  exact hbefore.detach anchor

end Holds

theorem Holds.clearWithin (h : a.Holds lists) {rounds : Nat} (hrounds : (lists p).length ≤ rounds) :
    (a.clearWithin p rounds).Holds (Function.update lists p []) := by
  have hfirst := h.first p
  induction rounds generalizing a lists with
  | zero =>
    have hnil := List.eq_nil_of_length_eq_zero (Nat.le_zero.1 hrounds)
    rw [← hnil, Function.update_eq_self]
    exact h
  | succ rounds ih =>
    rw [Arena.clearWithin]
    cases hl : lists p with
    | nil =>
      have hsame : Function.update lists p [] = lists := by rw [← hl, Function.update_eq_self]
      rw [hl] at hfirst
      rw [hfirst, hsame]
      exact h
    | cons c rest =>
      rw [hl] at hfirst
      rw [hfirst]
      have hdetach := h.detach c
      have hrest : without c lists p = rest := h.without_self (show lists p = [] ++ c :: rest from hl)
      have hlists : Function.update (without c lists) p [] = Function.update lists p [] := by
        funext q
        by_cases hq : q = p
        · rw [hq, Function.update_self, Function.update_self]
        · rw [Function.update_of_ne hq, Function.update_of_ne hq, h.without_of_ne (hl ▸ List.mem_cons_self) hq]
      rw [← hlists]
      refine ih hdetach ?_ (hdetach.first p)
      rw [hl] at hrounds
      rw [hrest]
      exact Nat.le_of_succ_le_succ hrounds

theorem Holds.clear (h : a.Holds lists) (p : NodeId) : (a.clear p).Holds (Function.update lists p []) :=
  h.clearWithin (length_le_size (h.nodup p) fun _ hm => lt_size_of_mem h.toStrung hm)

/-! ## New nodes -/

theorem Holds.alloc (h : a.Holds lists) (kind : Kind) : (a.alloc kind).Holds lists := by
  constructor
  · rw [links_alloc]
    exact h.toStrung
  · rw [links_alloc]
    exact h.grounded

theorem Holds.not_mem_of_size_le (h : a.Holds lists) (hm : a.size ≤ m) (q : NodeId) : m ∉ lists q :=
  fun hmem => Nat.not_lt.2 hm (lt_size_of_mem h.toStrung hmem)

theorem Holds.eq_nil_of_size_le (h : a.Holds lists) (hm : a.size ≤ m) : lists m = [] := by
  by_contra hne
  exact Nat.not_lt.2 hm (lt_size_of_ne_nil h.toStrung hne)

/-- A node that is in no list is put at the end of the list of another such node. -/
theorem Holds.append_loose (h : a.Holds lists) (hn : n < a.size) (hp : p < a.size) (hne : n ≠ p)
    (hnout : ∀ q, n ∉ lists q) (hpout : ∀ q, p ∉ lists q) :
    (a.append p n).Holds (Function.update lists p (lists p ++ [n])) := by
  have hloop : ¬ Above a.links n p := by
    rintro (_ | ⟨hparent, -⟩)
    · exact hne rfl
    · exact hpout _ ((h.parent _ p).2 hparent)
  have hsame : without n lists = lists := funext fun q => filter_ne_of_not_mem (hnout q)
  have happend := h.append hn hloop hp
  rwa [hsame] at happend

/-- A new conditional holds its two branches. -/
theorem Holds.create (h : a.Holds lists) (made : Kind) :
    (a.create made).Holds
      (if made.isConditional then Function.update lists a.size [a.size + 1, a.size + 2] else lists) := by
  have hmade := h.alloc made
  rw [Arena.create]
  split
  · have hbranches := (hmade.alloc .branch).alloc .branch
    have hlt (k : Nat) (hk : k < 3) : a.size + k < (((a.alloc made).alloc .branch).alloc .branch).size := by
      rw [size_alloc, size_alloc, size_alloc]
      omega
    have hfirst := hbranches.append_loose (p := a.size) (hlt 1 (by omega)) (hlt 0 (by omega)) (by simp)
      (h.not_mem_of_size_le (by omega)) (h.not_mem_of_size_le (Nat.le_refl _))
    rw [h.eq_nil_of_size_le (Nat.le_refl _), List.nil_append] at hfirst
    have hnew {m : NodeId} (hm : a.size ≤ m) (hne : m ≠ a.size + 1) (q : NodeId) :
        m ∉ Function.update lists a.size [a.size + 1] q := by
      by_cases hq : q = a.size
      · rw [hq, Function.update_self, List.mem_singleton]
        exact hne
      · rw [Function.update_of_ne hq]
        exact h.not_mem_of_size_le hm q
    have hsize := (alike_append (((a.alloc made).alloc .branch).alloc .branch) a.size (a.size + 1)).size
    have hsecond := hfirst.append_loose (p := a.size) (Nat.lt_of_lt_of_eq (hlt 2 (by omega)) hsize.symm)
      (Nat.lt_of_lt_of_eq (hlt 0 (by omega)) hsize.symm) (by simp)
      (hnew (by omega) (by simp)) (hnew (Nat.le_refl _) (by simp))
    rwa [Function.update_self, Function.update_idem, List.singleton_append] at hsecond
  · exact hmade

theorem alike_create (h : made.isConditional = true) :
    Alike (((a.alloc made).alloc .branch).alloc .branch) (a.create made) := by
  rw [Arena.create, if_pos h]
  exact (alike_append ..).trans (alike_append ..)

theorem marked_create (a : Arena) (made : Kind) : (a.create made).marked = a.marked := by
  by_cases hmade : made.isConditional = true
  · exact (alike_create hmade).marked
  · rw [Arena.create, if_neg hmade]
    rfl

theorem size_create (a : Arena) (made : Kind) :
    (a.create made).size = if made.isConditional then a.size + 3 else a.size + 1 := by
  split
  · rename_i hmade
    rw [(alike_create hmade).size, size_alloc, size_alloc, size_alloc]
  · rename_i hmade
    rw [Arena.create, if_neg hmade, size_alloc]

theorem kind?_create (a : Arena) (made : Kind) (m : NodeId) :
    (a.create made).kind? m =
      if m = a.size then some made
      else if made.isConditional ∧ (m = a.size + 1 ∨ m = a.size + 2) then some .branch
      else a.kind? m := by
  by_cases hmade : made.isConditional = true
  · rw [(alike_create hmade).kind, kind?_alloc, kind?_alloc, kind?_alloc, size_alloc, size_alloc]
    grind
  · rw [Arena.create, if_neg hmade, kind?_alloc]
    simp [hmade]

/-! ## What is stored beside the links -/

theorem alike_prepend (a : Arena) (p n : NodeId) : Alike a (a.prepend p n) := by
  unfold prepend
  split
  · exact alike_insertBefore ..
  · exact alike_append ..

theorem alike_insertAfter (a : Arena) (anchor n : NodeId) : Alike a (a.insertAfter anchor n) := by
  unfold insertAfter
  split
  · exact .refl a
  · split
    · exact .refl a
    · split
      · split
        · exact .refl a
        · exact alike_insertBefore ..
      · exact alike_append ..

theorem alike_replace (a : Arena) (old new : NodeId) : Alike a (a.replace old new) := by
  unfold replace
  split
  · exact .refl a
  · exact (alike_insertBefore ..).trans (alike_detach ..)

theorem alike_clearWithin (a : Arena) (p : NodeId) (rounds : Nat) : Alike a (a.clearWithin p rounds) := by
  induction rounds generalizing a with
  | zero => exact .refl a
  | succ rounds ih =>
    unfold clearWithin
    split
    · exact (alike_detach ..).trans (ih _)
    · exact .refl a

theorem insertAfter_idle (h : anchor = n ∨ (a.links anchor).parent = none) : a.insertAfter anchor n = a := by
  unfold insertAfter
  split
  · rfl
  · rename_i hne
    rw [h.resolve_left hne]

theorem replace_idle {old : NodeId} (h : old = n ∨ (a.links old).parent = none) : a.replace old n = a := by
  rw [replace, if_pos h]

/-- Beside a node that is itself or has no parent, nothing is put. -/
theorem idle_or_beside (a : Arena) (anchor n : NodeId) :
    (anchor = n ∨ (a.links anchor).parent = none) ∨ ∃ p, anchor ≠ n ∧ (a.links anchor).parent = some p := by
  cases hp : (a.links anchor).parent with
  | none => exact Or.inl (Or.inr rfl)
  | some p =>
    by_cases hne : anchor = n
    · exact Or.inl (Or.inl hne)
    · exact Or.inr ⟨p, hne, rfl⟩

/-! ## Edits that put no node below itself -/

/-- Node `n` and the parent that it gets beside `anchor`, if it is moved there at all. -/
def beside? (a : Arena) (anchor n : NodeId) : Option (NodeId × NodeId) :=
  if anchor = n then none else (a.links anchor).parent.map (n, ·)

/-- The node that an edit moves, if it moves one, and its parent from then on. -/
def moves? (a : Arena) : Edit → Option (NodeId × NodeId)
  | .append p n | .prepend p n => some (n, p)
  | .insertBefore anchor n | .insertAfter anchor n | .replace anchor n => a.beside? anchor n
  | .create _ | .detach _ | .clear _ | .mark _ => none

theorem beside?_eq_some :
    a.beside? anchor n = some (m, p) ↔ anchor ≠ n ∧ n = m ∧ (a.links anchor).parent = some p := by
  unfold beside?
  split
  · rename_i heq
    simp [heq]
  · rename_i hne
    simp [hne, and_comm]

theorem fits_iff {e : Edit} : e.fits a = true ↔ (∀ m ∈ e.nodes, m < a.size) ∧ e.loops a = false := by
  simp [Edit.fits]

namespace Holds

variable (h : a.Holds lists)

include h

theorem not_above (hp : p < a.size) (hloop : a.isAbove n p = false) : ¬ Above a.links n p := fun habove => by
  rw [(h.isAbove_iff hp).2 habove] at hloop
  cases hloop

theorem parent_lt_size (hp : (a.links n).parent = some p) : p < a.size :=
  lt_size_of_ne_nil h.toStrung (List.ne_nil_of_mem ((h.parent p n).2 hp))

theorem not_above_of_beside (hne : anchor ≠ n) (hp : (a.links anchor).parent = some p)
    (hloop : a.loopsBeside anchor n = false) : ¬ Above a.links n p := by
  refine h.not_above (h.parent_lt_size hp) ?_
  rwa [loopsBeside, hp, Option.any_some, bne_iff_ne.2 hne, Bool.true_and] at hloop

theorem parent_of_first (hfirst : (a.links p).first = some n) : (a.links n).parent = some p := by
  rw [h.first p] at hfirst
  exact (h.parent p n).1 (List.mem_of_head? hfirst)

theorem parent_of_next (hp : (a.links anchor).parent = some p) (hnext : (a.links anchor).next = some n) :
    (a.links n).parent = some p := by
  obtain ⟨l, r, hsplit⟩ := List.append_of_mem ((h.parent p anchor).2 hp)
  rw [h.next hsplit] at hnext
  rw [← h.parent, hsplit]
  exact List.mem_append_right l (List.mem_cons_of_mem anchor (List.mem_of_head? hnext))

/-- A node that is a child of `p` already is not above it. -/
theorem not_above_of_prepend (hp : p < a.size) (hloop : (Edit.prepend p n).loops a = false) :
    ¬ Above a.links n p := by
  rw [Edit.loops] at hloop
  split at hloop
  · rename_i first hfirst
    have hparent := h.parent_of_first hfirst
    by_cases hne : first = n
    · exact h.grounded.not_above_parent (hne ▸ hparent)
    · exact h.not_above_of_beside hne hparent hloop
  · exact h.not_above hp hloop

theorem not_above_of_insertAfter (hne : anchor ≠ n) (hp : (a.links anchor).parent = some p)
    (hloop : (Edit.insertAfter anchor n).loops a = false) : ¬ Above a.links n p := by
  rw [Edit.loops, bne_iff_ne.2 hne, Bool.true_and, hp, Option.any_some] at hloop
  split at hloop
  · rename_i next hnext
    have hparent := h.parent_of_next hp hnext
    by_cases hne' : next = n
    · exact h.grounded.not_above_parent (hne' ▸ hparent)
    · exact h.not_above_of_beside hne' hparent hloop
  · exact h.not_above (h.parent_lt_size hp) hloop

theorem not_above_of_fits {e : Edit} (hfits : e.fits a = true) (hmoves : a.moves? e = some (n, p)) :
    ¬ Above a.links n p := by
  obtain ⟨hnodes, hloops⟩ := fits_iff.1 hfits
  cases e with
  | append q m =>
    obtain ⟨rfl, rfl⟩ := Prod.mk.inj (Option.some.inj hmoves)
    exact h.not_above (hnodes q List.mem_cons_self) hloops
  | prepend q m =>
    obtain ⟨rfl, rfl⟩ := Prod.mk.inj (Option.some.inj hmoves)
    exact h.not_above_of_prepend (hnodes q List.mem_cons_self) hloops
  | insertBefore anchor m =>
    obtain ⟨hne, rfl, hp⟩ := beside?_eq_some.1 hmoves
    exact h.not_above_of_beside hne hp hloops
  | insertAfter anchor m =>
    obtain ⟨hne, rfl, hp⟩ := beside?_eq_some.1 hmoves
    exact h.not_above_of_insertAfter hne hp hloops
  | replace anchor m =>
    obtain ⟨hne, rfl, hp⟩ := beside?_eq_some.1 hmoves
    exact h.not_above_of_beside hne hp hloops
  | create | detach | clear | mark => cases hmoves

end Holds

end Arena

end HtmlTemplate
