import HtmlTemplate.Proofs.Tree.Linked

/-! # Patches of an arena

An edit writes one link of one slot after the other. What that comes to is said of all links at once: a node is taken
out by linking its neighbours past it (`links_detach`), and put in by linking it with both (`links_append`,
`links_insertBefore`). So the links hold lists of children before and after (`Holds`), and the lists differ by one node
that is taken out or put in.
-/

namespace HtmlTemplate

namespace Arena

variable {a b : Arena} {lists : NodeId → List NodeId} {m n p q anchor : NodeId} {x y : Option NodeId}

/-! ## One slot -/

theorem links_of_size_le (h : a.size ≤ n) : a.links n = .bare := by
  have hnone : a.slots[n]? = none := Array.getElem?_eq_none h
  rw [links, hnone]
  rfl

theorem lt_size_of_links_ne (h : a.links n ≠ .bare) : n < a.size :=
  Nat.lt_of_not_le fun hle => h (links_of_size_le hle)

theorem getElem?_relink (a : Arena) (n m : NodeId) (f : Links → Links) :
    (a.relink n f).slots[m]? =
      if n = m then a.slots[m]?.map (fun s => { s with toLinks := f s.toLinks }) else a.slots[m]? :=
  Array.getElem?_modify

theorem links_relink (hn : n < a.size) (f : Links → Links) (m : NodeId) :
    (a.relink n f).links m = if m = n then f (a.links m) else a.links m := by
  rw [links, links, getElem?_relink]
  by_cases hm : m = n
  · subst hm
    rw [if_pos rfl, if_pos rfl, Array.getElem?_eq_getElem hn]
    rfl
  · rw [if_neg (Ne.symm hm), if_neg hm]

/-- What is stored beside the links is the same. -/
structure Alike (a b : Arena) : Prop where
  size : b.size = a.size
  kind : ∀ m, b.kind? m = a.kind? m
  marked : b.marked = a.marked

theorem Alike.refl (a : Arena) : Alike a a :=
  ⟨rfl, fun _ => rfl, rfl⟩

theorem Alike.trans {c : Arena} (h : Alike a b) (h' : Alike b c) : Alike a c :=
  ⟨h'.size.trans h.size, fun m => (h'.kind m).trans (h.kind m), h'.marked.trans h.marked⟩

theorem Alike.relink (h : Alike a b) (n : NodeId) (f : Links → Links) : Alike a (b.relink n f) := by
  refine ⟨?_, fun m => ?_, h.marked⟩
  · rw [← h.size, Arena.size, Arena.size, Arena.relink, Array.size_modify]
  · rw [← h.kind m, kind?, kind?, getElem?_relink]
    split
    · rw [Option.map_map]
      rfl
    · rfl

/-! ## Two neighbours -/

/-- Makes `y` the node right of `x` below `p`. -/
def setRight (a : Arena) (p : NodeId) (x y : Option NodeId) : Arena :=
  match x with
  | some m => a.relink m ({ · with next := y })
  | none => a.relink p ({ · with first := y })

/-- Makes `x` the node left of `y` below `p`. -/
def setLeft (a : Arena) (p : NodeId) (y x : Option NodeId) : Arena :=
  match y with
  | some m => a.relink m ({ · with previous := x })
  | none => a.relink p ({ · with last := x })

theorem Alike.setRight (h : Alike a b) (p : NodeId) (x y : Option NodeId) : Alike a (b.setRight p x y) := by
  unfold Arena.setRight
  split
  · exact h.relink ..
  · exact h.relink ..

theorem Alike.setLeft (h : Alike a b) (p : NodeId) (y x : Option NodeId) : Alike a (b.setLeft p y x) := by
  unfold Arena.setLeft
  split
  · exact h.relink ..
  · exact h.relink ..

theorem links_setRight (hx : x.getD p < a.size) (m : NodeId) :
    (a.setRight p x y).links m =
      { a.links m with
        next := if x = some m then y else (a.links m).next
        first := if x = none ∧ m = p then y else (a.links m).first } := by
  cases x with
  | none =>
    rw [setRight, links_relink (show p < a.size from hx)]
    by_cases hm : m = p <;> simp [hm]
  | some k =>
    rw [setRight, links_relink (show k < a.size from hx)]
    by_cases hm : m = k
    · simp [hm]
    · simp [hm, Ne.symm hm]

theorem links_setLeft (hy : y.getD p < a.size) (m : NodeId) :
    (a.setLeft p y x).links m =
      { a.links m with
        previous := if y = some m then x else (a.links m).previous
        last := if y = none ∧ m = p then x else (a.links m).last } := by
  cases y with
  | none =>
    rw [setLeft, links_relink (show p < a.size from hy)]
    by_cases hm : m = p <;> simp [hm]
  | some k =>
    rw [setLeft, links_relink (show k < a.size from hy)]
    by_cases hm : m = k
    · simp [hm]
    · simp [hm, Ne.symm hm]

/-! ## Taking a node out -/

theorem detach_of_parent (hp : (a.links n).parent = some p) :
    a.detach n = ((a.setRight p (a.links n).previous (a.links n).next).setLeft p (a.links n).next
      (a.links n).previous).relink n ({ · with parent := none, previous := none, next := none }) := by
  rw [detach, hp]
  cases (a.links n).previous <;> cases (a.links n).next <;> rfl

theorem alike_detach (a : Arena) (n : NodeId) : Alike a (a.detach n) := by
  cases hp : (a.links n).parent with
  | none =>
    rw [detach, hp]
    refine Alike.relink ?_ _ _
    cases (a.links n).previous <;> cases (a.links n).next <;> simp only [Alike.refl, Alike.relink]
  | some p =>
    rw [detach_of_parent hp]
    exact (((Alike.refl a).setRight ..).setLeft ..).relink ..

/-- Where the links of a node do not change, no links do. -/
theorem links_relink_self {f : Links → Links} (hf : f (a.links n) = a.links n) : (a.relink n f).links = a.links := by
  funext m
  by_cases hn : n < a.size
  · rw [links_relink hn]
    split
    · rename_i hm
      rw [hm, hf]
    · rfl
  · have hnone : a.slots[n]? = none := Array.getElem?_eq_none (Nat.le_of_not_lt hn)
    rw [links, links, getElem?_relink]
    split
    · rename_i hm
      rw [← hm, hnone]
      rfl
    · rfl

section Strung

variable (h : Strung a.links lists)

include h

theorem lt_size_of_mem (hn : n ∈ lists p) : n < a.size := by
  refine lt_size_of_links_ne fun hbare => ?_
  have hparent := (h.parent p n).1 hn
  rw [hbare] at hparent
  cases hparent

theorem lt_size_of_ne_nil (hp : lists p ≠ []) : p < a.size := by
  refine lt_size_of_links_ne fun hbare => hp ?_
  have hfirst := h.first p
  rw [hbare] at hfirst
  exact List.head?_eq_none_iff.1 hfirst.symm

theorem getD_lt_size (hp : p < a.size) (hx : ∀ m, x = some m → m ∈ lists p) : x.getD p < a.size := by
  cases x with
  | none => exact hp
  | some m => exact lt_size_of_mem h (hx m rfl)

theorem links_detach (hp : (a.links n).parent = some p) : (a.detach n).links = unlink a.links p n := by
  have hn := (h.parent p n).2 hp
  obtain ⟨l, r, hsplit⟩ := List.append_of_mem hn
  have hsize : p < a.size := lt_size_of_ne_nil h (List.ne_nil_of_mem hn)
  have hprevious : (a.links n).previous.getD p < a.size := by
    refine getD_lt_size h hsize fun m hm => ?_
    rw [hsplit]
    exact List.mem_append_left _ (List.mem_of_getLast? ((h.previous hsplit).symm.trans hm))
  have hnext : (a.links n).next.getD p < a.size := by
    refine getD_lt_size h hsize fun m hm => ?_
    rw [hsplit]
    exact List.mem_append_right _ (List.mem_cons_of_mem n (List.mem_of_head? ((h.next hsplit).symm.trans hm)))
  have hright : (a.setRight p (a.links n).previous (a.links n).next).size = a.size :=
    ((Alike.refl a).setRight ..).size
  have hleft := (((Alike.refl a).setRight p (a.links n).previous (a.links n).next).setLeft p (a.links n).next
    (a.links n).previous).size
  funext m
  rw [detach_of_parent hp, links_relink (hleft ▸ lt_size_of_mem h hn), links_setLeft (hright ▸ hnext),
    links_setRight hprevious]
  rfl

theorem links_detach_of_loose (hp : (a.links n).parent = none) : (a.detach n).links = a.links := by
  obtain ⟨hprevious, hnext⟩ := h.alone n hp
  rw [detach, hp, hprevious, hnext]
  refine links_relink_self ?_
  generalize a.links n = own at hp hprevious hnext
  cases own
  simp_all

theorem strung_detach (n : NodeId) : Strung (a.detach n).links (without n lists) := by
  cases hp : (a.links n).parent with
  | none =>
    have hlists : without n lists = lists := by
      funext m
      exact filter_ne_of_not_mem (h.not_mem_of_parent_eq_none hp m)
    rw [links_detach_of_loose h hp, hlists]
    exact h
  | some p =>
    rw [links_detach h hp]
    exact h.unlink hp

theorem parent_detach_self (n : NodeId) : ((a.detach n).links n).parent = none := by
  cases hp : ((a.detach n).links n).parent with
  | none => rfl
  | some p =>
    have hmem := ((strung_detach h n).parent p n).2 hp
    exact absurd rfl (of_decide_eq_true (List.mem_filter.1 hmem).2)

end Strung

/-! ## Putting a node in -/

theorem append_eq (a : Arena) (p n : NodeId) :
    a.append p n = (((a.detach n).relink n
      ({ · with parent := some p, previous := ((a.detach n).links p).last })).setRight p
        ((a.detach n).links p).last (some n)).setLeft p none (some n) := by
  rw [append]
  cases ((a.detach n).links p).last <;> rfl

theorem insertBefore_eq (hne : anchor ≠ n) (hp : (a.links anchor).parent = some p) :
    a.insertBefore anchor n = (((a.detach n).relink n ({ · with
      parent := some p, previous := ((a.detach n).links anchor).previous, next := some anchor })).setLeft p
        (some anchor) (some n)).setRight p ((a.detach n).links anchor).previous (some n) := by
  rw [insertBefore, if_neg hne, hp]
  dsimp only
  cases ((a.detach n).links anchor).previous <;> rfl

theorem alike_append (a : Arena) (p n : NodeId) : Alike a (a.append p n) := by
  rw [append_eq]
  exact (((alike_detach a n).relink ..).setRight ..).setLeft ..

theorem insertBefore_idle (h : anchor = n ∨ (a.links anchor).parent = none) : a.insertBefore anchor n = a := by
  unfold insertBefore
  split
  · rfl
  · rename_i hne
    rw [h.resolve_left hne]

theorem alike_insertBefore (a : Arena) (anchor n : NodeId) : Alike a (a.insertBefore anchor n) := by
  by_cases hne : anchor = n
  · rw [insertBefore_idle (Or.inl hne)]
    exact .refl a
  · cases hp : (a.links anchor).parent with
    | none =>
      rw [insertBefore_idle (Or.inr hp)]
      exact .refl a
    | some p =>
      rw [insertBefore_eq hne hp]
      exact (((alike_detach a n).relink ..).setLeft ..).setRight ..

section Strung

variable (h : Strung a.links lists) (hn : n < a.size)

include h hn

theorem links_append (hp : p < a.size) :
    (a.append p n).links =
      link (a.detach n).links p (without n lists p).getLast? n ([] : List NodeId).head? := by
  have hdetached := strung_detach h n
  have hloose := parent_detach_self h n
  have hsize := (alike_detach a n).size
  have hlast : ∀ m, (without n lists p).getLast? = some m → m ∈ without n lists p :=
    fun m hm => List.mem_of_getLast? hm
  have hself : (without n lists p).getLast? ≠ some n := fun he =>
    hdetached.not_mem_of_parent_eq_none hloose p (hlast n he)
  have hnext := (hdetached.alone n hloose).2
  have hown := (alike_detach a n).relink n
    ({ · with parent := some p, previous := (without n lists p).getLast? })
  have hright := hown.setRight p (without n lists p).getLast? (some n)
  have hslot : (without n lists p).getLast?.getD p < a.size := hsize ▸ getD_lt_size hdetached (hsize ▸ hp) hlast
  funext m
  rw [append_eq, hdetached.last p, links_setLeft (hright.size ▸ hp), links_setRight (hown.size ▸ hslot),
    links_relink (hsize ▸ hn)]
  by_cases hm : m = n
  · subst hm
    simp [link, weld, hself, hnext]
  · simp [link, weld, hm, Ne.symm hm]

theorem links_insertBefore {l r : List NodeId} (hsplit : without n lists p = l ++ anchor :: r) :
    (a.insertBefore anchor n).links = link (a.detach n).links p l.getLast? n (anchor :: r).head? := by
  have hdetached := strung_detach h n
  have hloose := parent_detach_self h n
  have hsize := (alike_detach a n).size
  have hmem : anchor ∈ without n lists p := by
    rw [hsplit]
    simp
  obtain ⟨hanchor, hne⟩ := List.mem_filter.1 hmem
  have hlast : ∀ m, l.getLast? = some m → m ∈ without n lists p :=
    fun m hm => hsplit ▸ List.mem_append_left _ (List.mem_of_getLast? hm)
  have hself : l.getLast? ≠ some n := fun he => hdetached.not_mem_of_parent_eq_none hloose p (hlast n he)
  have hown := (alike_detach a n).relink n
    ({ · with parent := some p, previous := l.getLast?, next := some anchor })
  have hleft := hown.setLeft p (some anchor) (some n)
  have hslot : l.getLast?.getD p < a.size :=
    hsize ▸ getD_lt_size hdetached (lt_size_of_ne_nil hdetached (List.ne_nil_of_mem hmem)) hlast
  funext m
  rw [insertBefore_eq (of_decide_eq_true hne) ((h.parent p anchor).1 hanchor), hdetached.previous hsplit,
    links_setRight (hleft.size ▸ hslot),
    links_setLeft (y := some anchor) (hown.size ▸ lt_size_of_mem h hanchor), links_relink (hsize ▸ hn)]
  by_cases hm : m = n
  · subst hm
    simp [link, weld, hself]
  · simp [link, weld, hm, Ne.symm hm]

end Strung

/-! ## The arena and its lists -/

/-- The links of the arena agree, and hold these lists of children. -/
structure Holds (a : Arena) (lists : NodeId → List NodeId) : Prop extends Strung a.links lists where
  grounded : Grounded a.links

theorem Holds.linked (h : a.Holds lists) : Linked a.links :=
  h.toStrung.linked h.grounded

theorem exists_holds (h : Linked a.links) : ∃ lists, a.Holds lists := by
  obtain ⟨lists, hlists⟩ := h.exists_strung
  exact ⟨lists, hlists, h.grounded⟩

theorem above_of_unlink {links : NodeId → Links} (h : Above (unlink links p n) m q) : Above links m q := by
  induction h with
  | self => exact .self
  | up hp _ ih =>
    rw [parent_unlink] at hp
    split at hp
    · cases hp
    · exact .up hp ih

namespace Holds

variable {l r : List NodeId}

theorem detach (h : a.Holds lists) (n : NodeId) : (a.detach n).Holds (without n lists) := by
  refine ⟨strung_detach h.toStrung n, ?_⟩
  cases hp : (a.links n).parent with
  | none =>
    rw [links_detach_of_loose h.toStrung hp]
    exact h.grounded
  | some p =>
    rw [links_detach h.toStrung hp]
    exact h.grounded.unlink

theorem not_above_detach (h : a.Holds lists) (hp : ¬ Above a.links n p) : ¬ Above (a.detach n).links n p := by
  cases hparent : (a.links n).parent with
  | none => rwa [links_detach_of_loose h.toStrung hparent]
  | some q =>
    rw [links_detach h.toStrung hparent]
    exact fun habove => hp (above_of_unlink habove)

variable (h : a.Holds lists) (hn : n < a.size) (hloop : ¬ Above a.links n p)

include h hn hloop

theorem append (hp : p < a.size) :
    (a.append p n).Holds (Function.update (without n lists) p (without n lists p ++ [n])) := by
  constructor
  · rw [links_append h.toStrung hn hp]
    exact (strung_detach h.toStrung n).link (List.append_nil _).symm (parent_detach_self h.toStrung n)
  · rw [links_append h.toStrung hn hp]
    exact (h.detach n).grounded.link (h.not_above_detach hloop)

theorem insertBefore (hsplit : without n lists p = l ++ anchor :: r) :
    (a.insertBefore anchor n).Holds (Function.update (without n lists) p (l ++ n :: anchor :: r)) := by
  constructor
  · rw [links_insertBefore h.toStrung hn hsplit]
    exact (strung_detach h.toStrung n).link hsplit (parent_detach_self h.toStrung n)
  · rw [links_insertBefore h.toStrung hn hsplit]
    exact (h.detach n).grounded.link (h.not_above_detach hloop)

end Holds

end Arena

end HtmlTemplate
