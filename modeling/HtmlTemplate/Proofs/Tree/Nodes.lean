import HtmlTemplate.Proofs.Tree.Steps

/-! # Which nodes there are after a step

A step makes new nodes or changes one element, and leaves every other node what it is. `Keeps` bounds
what the steps of a list may make and write, and `exists_of_mem_follow` says what the nodes are then:
the old ones, at most revised, and new ones of the kinds that may be made.
-/

namespace HtmlTemplate

open Forest Context

/-- A statement that runs in its place in the output. -/
def Kind.isStatement : Kind → Bool
  | .code f => f.isStatement && !f.isEager
  | _ => false

namespace Node

/-- The node is the same, unless it is element `n`, which may have got attributes named in `names`. -/
def Revised (names : List String) (n : NodeId) (y x : Node) : Prop :=
  x = y ∨ x.id = n ∧ y.id = n ∧ ∃ e e', y.kind = .element e ∧ x.kind = .element e' ∧
    ∀ attr, e'.has attr = true → e.has attr = true ∨ attr ∈ names

variable {names : List String} {n : NodeId} {x y z : Node}

theorem Revised.refl (x : Node) : Revised names n x x := Or.inl rfl

theorem Revised.trans (hyx : Revised names n y x) (hxz : Revised names n x z) : Revised names n y z := by
  rcases hyx with rfl | ⟨hx, hy, e, e', hye, hxe, hadds⟩
  · exact hxz
  · rcases hxz with rfl | ⟨hz, -, e₁, e₂, hxe₁, hze, hadds'⟩
    · exact Or.inr ⟨hx, hy, e, e', hye, hxe, hadds⟩
    · rw [hxe, Kind.element.injEq] at hxe₁
      subst hxe₁
      refine Or.inr ⟨hz, hy, e, e₂, hye, hze, fun attr hattr => ?_⟩
      rcases hadds' attr hattr with hattr | hattr
      · exact hadds attr hattr
      · exact Or.inr hattr

theorem Revised.id_eq (h : Revised names n y x) : x.id = y.id := by
  rcases h with rfl | ⟨hx, hy, -⟩
  · rfl
  · rw [hx, hy]

theorem Revised.eq_of_ne (h : Revised names n y x) (hx : x.id ≠ n) : x = y :=
  h.resolve_right fun h => hx h.1

theorem Revised.eq_of_not_isElement (h : Revised names n y x) (hy : y.kind.isElement = false) :
    x = y := by
  rcases h with rfl | ⟨-, -, e, -, hye, -⟩
  · rfl
  · rw [hye] at hy
    cases hy

theorem Revised.isElement (h : Revised names n y x) (hx : x.kind.isElement = true) :
    y.kind.isElement = true := by
  rcases h with rfl | ⟨-, -, e, -, hye, -⟩
  · exact hx
  · rw [hye]
    rfl

end Node

/-- What the step makes is of the given kinds, and it changes no element but `n`, and that only by
attributes named in `names`. -/
def Step.Keeps (names : List String) (n : NodeId) (made : Kind → Prop) : Step → Prop
  | .edit (.create k) => made k
  | .edit _ => True
  | .element m f => m = n ∧ ∀ e attr, (f e).has attr = true → e.has attr = true ∨ attr ∈ names

namespace Tree

variable {t : Tree} {names : List String} {n : NodeId} {made : Kind → Prop} {x : Node}

theorem mem_create {kind : Kind} (hx : x ∈ (t.create kind).forest.preorder) :
    x ∈ t.forest.preorder ∨ t.next ≤ x.id ∧ (x.kind = kind ∨ x.kind = .branch) := by
  unfold create at hx
  split at hx
  · simp only [tree, preorder_append, preorder_cons, preorder_nil, List.append_nil, List.nil_append,
      List.mem_append, List.mem_cons, List.not_mem_nil, or_false] at hx
    rcases hx with hx | rfl | rfl | rfl
    · exact Or.inl hx
    · exact Or.inr ⟨Nat.le_refl _, Or.inl rfl⟩
    · exact Or.inr ⟨Nat.le_add_right .., Or.inr rfl⟩
    · exact Or.inr ⟨Nat.le_add_right .., Or.inr rfl⟩
  · simp only [tree, preorder_append, preorder_cons, preorder_nil, List.append_nil,
      List.mem_append, List.mem_singleton] at hx
    rcases hx with hx | rfl
    · exact Or.inl hx
    · exact Or.inr ⟨Nat.le_refl _, Or.inl rfl⟩

theorem mem_mapElement (ht : t.Numbered) {f : Element → Element}
    (hx : x ∈ (t.mapElement n f).forest.preorder) :
    x ∈ t.forest.preorder ∨ x.id = n ∧
      ∃ e, (⟨n, .element e⟩ : Node) ∈ t.forest.preorder ∧ x.kind = .element (f e) := by
  have hkind := (kind?_eq_some_iff (ht.mapElement n f).nodup).2 hx
  rw [kind?_mapElement ht.nodup] at hkind
  split at hkind
  · rename_i hid
    obtain ⟨k, hk, hmap⟩ := Option.map_eq_some_iff.1 hkind
    have hmem := (kind?_eq_some_iff ht.nodup).1 hk
    cases k with
    | element e => exact Or.inr ⟨hid, e, hid ▸ hmem, hmap.symm⟩
    | document | text _ | code _ | conditional _ | branch | loop _ =>
      refine Or.inl ?_
      rw [show x = ⟨x.id, x.kind⟩ from rfl, ← hmap]
      exact hmem
  · exact Or.inl ((kind?_eq_some_iff ht.nodup).1 hkind)

/-- An edit leaves every node what it is, and what it makes is new. -/
theorem mem_edit (ht : t.Numbered) {e : Edit} (hx : x ∈ (e.apply t).forest.preorder) :
    x ∈ t.forest.preorder ∨
      t.next ≤ x.id ∧ ∃ kind, e = .create kind ∧ (x.kind = kind ∨ x.kind = .branch) := by
  cases e with
  | create kind => exact (mem_create hx).imp_right fun h => ⟨h.1, kind, rfl, h.2⟩
  | append p m => exact Or.inl ((append_perm ht.nodup p m).subset hx)
  | prepend p m => exact Or.inl ((prepend_perm ht.nodup p m).subset hx)
  | insertBefore anchor m => exact Or.inl ((insertBefore_perm ht.nodup anchor m).subset hx)
  | insertAfter anchor m => exact Or.inl ((insertAfter_perm ht.nodup anchor m).subset hx)
  | replace old new => exact Or.inl ((replace_perm ht.nodup old new).subset hx)
  | detach m => exact Or.inl ((detach_perm ht.nodup m).subset hx)
  | clear m => exact Or.inl ((clear_perm ht.nodup m).subset hx)
  | mark m => exact Or.inl hx

theorem exists_of_mem_step (ht : t.Numbered) (hbranch : made .branch) {s : Step}
    (hs : s.Keeps names n made) (hx : x ∈ (s.apply t).forest.preorder) :
    (∃ y ∈ t.forest.preorder, Node.Revised names n y x) ∨ t.next ≤ x.id ∧ made x.kind := by
  have hsame : x ∈ t.forest.preorder →
      (∃ y ∈ t.forest.preorder, Node.Revised names n y x) ∨ t.next ≤ x.id ∧ made x.kind :=
    fun h => Or.inl ⟨x, h, Node.Revised.refl x⟩
  cases s with
  | element m f =>
    obtain ⟨rfl, hadds⟩ := hs
    rcases mem_mapElement ht hx with hx | ⟨hid, e, hmem, hkind⟩
    · exact hsame hx
    · exact Or.inl ⟨_, hmem, Or.inr ⟨hid, rfl, e, f e, rfl, hkind, hadds e⟩⟩
  | edit e =>
    rcases mem_edit ht hx with hx | ⟨hnew, kind, rfl, hkind⟩
    · exact hsame hx
    · refine Or.inr ⟨hnew, ?_⟩
      rcases hkind with hkind | hkind
      · rw [hkind]
        exact hs
      · rw [hkind]
        exact hbranch

theorem next_le_step (t : Tree) (s : Step) : t.next ≤ (s.apply t).next := by
  cases s with
  | edit e => exact next_le_apply t e
  | element n f => exact Nat.le_refl _

theorem next_le_follow (t : Tree) (steps : List Step) : t.next ≤ (t.follow steps).next := by
  induction steps generalizing t with
  | nil => exact Nat.le_refl _
  | cons s steps ih => exact Nat.le_trans (next_le_step t s) (ih (s.apply t))

/-- The nodes of the tree to which steps lead. -/
theorem exists_of_mem_follow (ht : t.Numbered) (hmade : ∀ k, made k → k.isElement = false)
    (hbranch : made .branch) {steps : List Step} (hsteps : ∀ s ∈ steps, s.Keeps names n made)
    (hx : x ∈ (t.follow steps).forest.preorder) :
    (∃ y ∈ t.forest.preorder, Node.Revised names n y x) ∨ t.next ≤ x.id ∧ made x.kind := by
  induction steps generalizing t with
  | nil => exact Or.inl ⟨x, hx, Node.Revised.refl x⟩
  | cons s steps ih =>
    rw [List.forall_mem_cons] at hsteps
    have hnext := next_le_step t s
    rcases ih (ht.step s) hsteps.2 hx with ⟨y, hy, hyx⟩ | ⟨hid, hkind⟩
    · rcases exists_of_mem_step ht hbranch hsteps.1 hy with ⟨z, hz, hzy⟩ | ⟨hid, hkind⟩
      · exact Or.inl ⟨z, hz, hzy.trans hyx⟩
      · -- Nothing new is an element, so nothing new is revised.
        rw [hyx.eq_of_not_isElement (hmade _ hkind)]
        exact Or.inr ⟨hid, hkind⟩
    · exact Or.inr ⟨Nat.le_trans hnext hid, hkind⟩

end Tree

end HtmlTemplate
