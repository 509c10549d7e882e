import HtmlTemplate.Proofs.Tree.Document
import HtmlTemplate.Proofs.Tree.Structure

/-! # Trees that change step by step

A step is an edit or a change of one element. Along steps that are sound, each in the tree that the
ones before it left, every tree keeps its shape (`Sound.structured`).
-/

namespace HtmlTemplate

open Forest Context

inductive Step where
  | edit (e : Edit)
  | element (n : NodeId) (f : Element → Element)

namespace Step

def apply (t : Tree) : Step → Tree
  | edit e => e.apply t
  | element n f => t.mapElement n f

/-- A step that would put a node below itself. -/
def Cyclic (t : Tree) : Step → Prop
  | edit e => e.Cyclic t
  | element _ _ => False

/-- A step that puts a node only where it may stand, and never below itself. -/
def Sound (t : Tree) : Step → Prop
  | edit e => e.Fits t ∧ ¬ e.Cyclic t
  | element _ _ => True

end Step

namespace Tree

/-- The tree after a list of steps. -/
def follow (t : Tree) (steps : List Step) : Tree :=
  steps.foldl Step.apply t

/-- Every step is sound in the tree that the steps before it left. -/
def Sound (t : Tree) : List Step → Prop
  | [] => True
  | s :: steps => s.Sound t ∧ (s.apply t).Sound steps

variable {t : Tree}

@[simp] theorem follow_nil (t : Tree) : t.follow [] = t := rfl

@[simp] theorem follow_cons (t : Tree) (s : Step) (steps : List Step) :
    t.follow (s :: steps) = (s.apply t).follow steps := rfl

theorem follow_append (t : Tree) (steps more : List Step) :
    t.follow (steps ++ more) = (t.follow steps).follow more :=
  List.foldl_append ..

theorem sound_append {steps more : List Step} :
    t.Sound (steps ++ more) ↔ t.Sound steps ∧ (t.follow steps).Sound more := by
  induction steps generalizing t with
  | nil => simp [Sound]
  | cons s steps ih =>
    rw [List.cons_append, Sound, Sound, ih, and_assoc]
    rfl

theorem Shaped.step (ht : t.Shaped) {s : Step} (h : s.Sound t) : (s.apply t).Shaped := by
  cases s with
  | edit e => exact ht.apply h.1
  | element n f => exact ht.mapElement n f

theorem Shaped.follow (ht : t.Shaped) {steps : List Step} (h : t.Sound steps) :
    (t.follow steps).Shaped := by
  induction steps generalizing t with
  | nil => exact ht
  | cons s steps ih => exact ih (ht.step h.1) h.2

/-- Along sound steps every tree is structured, and no step closes a cycle. -/
theorem Sound.structured (ht : t.Shaped) {steps : List Step} (h : t.Sound steps) (k : Nat) :
    Structured (t.follow (steps.take k)) ∧
      ¬ ∃ s, steps[k]? = some s ∧ s.Cyclic (t.follow (steps.take k)) := by
  rw [← List.take_append_drop k steps, sound_append] at h
  refine ⟨(ht.follow h.1).structured, ?_⟩
  rintro ⟨s, hs, hcyclic⟩
  have hnext := h.2
  rw [List.drop_eq_getElem?_toList_append, hs] at hnext
  cases s with
  | edit e => exact hnext.1.2 hcyclic
  | element n f => exact hcyclic

/-! ## What a node is, after a step -/

theorem kind?_mapElement (ht : t.forest.ids.Nodup) (n m : NodeId) (f : Element → Element) :
    (t.mapElement n f).kind? m =
      if m = n then (t.kind? m).map (Kind.mapElement f) else t.kind? m := by
  by_cases hn : n ∈ t.forest.ids
  · obtain ⟨ks, l, a, c, r, rfl, h⟩ := exists_close hn
    have hf : (t.mapElement a.id f).forest =
        close ks (l ++ cons ⟨a.id, a.kind.mapElement f⟩ c r) := mapKind_at ht h _
    have hnodup : (t.mapElement a.id f).forest.ids.Nodup := ids_mapElement ht a.id f ▸ ht
    split
    · rename_i hm
      subst hm
      rw [kind?_at ht h]
      exact kind?_at hnodup hf
    · rename_i hm
      refine Option.ext fun k => ?_
      rw [kind?_eq_some_iff hnodup, kind?_eq_some_iff ht, hf, h]
      have h₁ := (preorder_close_perm ks l (tree ⟨a.id, a.kind.mapElement f⟩ c) r).mem_iff
        (a := ⟨m, k⟩)
      have h₂ := (preorder_close_perm ks l (tree a c) r).mem_iff (a := ⟨m, k⟩)
      refine h₁.trans (Iff.trans ?_ h₂.symm)
      have hne : ∀ x : Node, x.id = a.id → (⟨m, k⟩ : Node) ≠ x := by
        rintro x hx rfl
        exact hm hx
      simp [tree, hne a rfl, hne ⟨a.id, a.kind.mapElement f⟩ rfl]
  · have hsame : t.mapElement n f = t := by
      unfold Tree.mapElement
      rw [mapKind_eq_replaceAt, replaceAt_of_not_mem _ hn]
    rw [hsame]
    split
    · rename_i hm
      rw [hm, kind?, find?_of_not_mem hn]
      rfl
    · rfl

theorem IsKind.step {p : Kind → Bool} (hp : ∀ k f, p (Kind.mapElement f k) = p k) {n : NodeId}
    (h : t.IsKind p n) (ht : t.Numbered) (s : Step) : (s.apply t).IsKind p n := by
  cases s with
  | edit e => exact h.apply ht e
  | element m f =>
    obtain ⟨k, hk, hpk⟩ := h
    unfold IsKind
    rw [Step.apply, kind?_mapElement ht.nodup, hk]
    split
    · exact ⟨_, rfl, by rw [hp, hpk]⟩
    · exact ⟨k, rfl, hpk⟩

theorem Numbered.step (ht : t.Numbered) (s : Step) : (s.apply t).Numbered := by
  cases s with
  | edit e => exact ht.apply e
  | element n f => exact ht.mapElement n f

theorem Numbered.follow (ht : t.Numbered) (steps : List Step) : (t.follow steps).Numbered := by
  induction steps generalizing t with
  | nil => exact ht
  | cons s steps ih => exact ih (ht.step s)

theorem IsKind.follow {p : Kind → Bool} (hp : ∀ k f, p (Kind.mapElement f k) = p k) {n : NodeId}
    (h : t.IsKind p n) (ht : t.Numbered) (steps : List Step) : (t.follow steps).IsKind p n := by
  induction steps generalizing t with
  | nil => exact h
  | cons s steps ih => exact ih (h.step hp ht s) (ht.step s)

/-! ## Kinds of siblings -/

/-- What stands beside a free node of the document is free. -/
theorem Shaped.isFree_roots {ks : Context} {f loose : Forest Node} {next : NodeId}
    {marked : Option NodeId} (ht : (around ks f loose next marked).Shaped) {x y : Node}
    (hx : x ∈ f.roots) (hfree : x.kind.isFree = true) (hy : y ∈ f.roots) : y.kind.isFree = true := by
  have ho := ht.orderly
  rw [around_forest, orderly_close] at ho
  obtain ⟨k, js, hks⟩ := List.exists_cons_of_ne_nil (documentFrame_ne_nil ks loose)
  rw [hks, Admits] at ho
  have hadmits := ho.2.1
  have hopen := Kind.isOpen_of_admits hadmits (List.mem_map_of_mem hx) hfree
  exact (Kind.admits_of_isOpen hopen _).1 hadmits _ (List.mem_map_of_mem hy)

theorem Shaped.exists_branches {ks : Context} {l f r : Forest Node} {b : Node} (ht : t.Shaped)
    (h : t.forest = close ks (l ++ cons b f r)) (hb : b.kind.isConditional = true) :
    ∃ (k₁ k₂ : Node) (c₁ c₂ : Forest Node), f = cons k₁ c₁ (tree k₂ c₂) ∧
      k₁.kind = .branch ∧ k₂.kind = .branch := by
  have hadmits := ht.admits_below (kind?_at ht.numbered.nodup h)
  rw [below_at ht.numbered.nodup h] at hadmits
  cases hk : b.kind <;> rw [hk] at hb <;> try cases hb
  rw [hk, Kind.admits] at hadmits
  exact exists_of_rootKinds hadmits

/-! ## Being below a loose node -/

theorem Shaped.exists_content (ht : t.Shaped) :
    ∃ content loose : Forest Node, t.forest = cons ⟨root, .document⟩ content loose ∧
      t = around [] content loose t.next t.marked := by
  obtain ⟨content, loose, hf, -⟩ := ht.exists_around
  refine ⟨content, loose, hf, ?_⟩
  rw [around, close_nil, ← hf]

theorem Shaped.exists_place (ht : t.Shaped) {n : NodeId} (hn : t.isAttached n = true)
    (hroot : n ≠ root) :
    ∃ (ks : Context) (l : Forest Node) (a : Node) (c r loose : Forest Node), a.id = n ∧
      t = around ks (l ++ cons a c r) loose t.next t.marked := by
  obtain ⟨content, loose, hf, ht'⟩ := ht.exists_content
  have hmem : n ∈ content.ids := by
    refine Classical.byContradiction fun hno => ?_
    by_cases hl : n ∈ loose.ids
    · have hloose := isAttached_loose (ht' ▸ ht.numbered.nodup) hl
      rw [← ht', hn] at hloose
      cases hloose
    · -- A number that is not in use has nothing above it.
      have hout : n ∉ t.forest.ids := by
        rw [hf]
        simp [hroot, hno, hl]
      rw [isAttached, ancestors, (above?_eq_none_iff _ _ _).2 hout] at hn
      simp [hroot] at hn
  obtain ⟨ks, l, a, c, r, ha, hc⟩ := exists_close hmem
  exact ⟨ks, l, a, c, r, loose, ha, by rw [ht', hc]; rfl⟩

theorem Shaped.isAttached_of_mem_ancestors (ht : t.Shaped) {m n : NodeId}
    (hn : t.isAttached n = true) (hm : m ∈ t.ancestors n) : t.isAttached m = true := by
  by_cases hroot : n = root
  · have hnone : t.ancestors root = [] := by
      obtain ⟨content, loose, hf, -⟩ := ht.exists_around
      have hr : t.forest = close [] (nil ++ cons ⟨root, .document⟩ content loose) := hf
      exact ancestors_at ht.numbered.nodup hr
    rw [hroot, hnone] at hm
    exact absurd hm List.not_mem_nil
  · obtain ⟨ks, l, a, c, r, loose, rfl, h⟩ := ht.exists_place hn hroot
    have hnodup := ht.numbered.nodup
    rw [h] at hnodup hm ⊢
    rw [ancestors_at hnodup (around_forest ..), above_append, List.mem_append] at hm
    rcases hm with hm | hm
    · refine isAttached_of_mem hnodup ?_
      rw [ids_close]
      exact List.mem_append_left _ (mem_leading_of_mem_above hm)
    · have hm' : m = root := by simpa [documentFrame] using hm
      rw [hm']
      rfl

theorem Shaped.not_isAbove (ht : t.Shaped) {m n : NodeId} (hn : t.isAttached n = true)
    (hm : t.isAttached m = false) : ¬ t.IsAbove m n := by
  rintro (rfl | h)
  · rw [hn] at hm
    cases hm
  · rw [ht.isAttached_of_mem_ancestors hn h] at hm
    cases hm

theorem ancestors_of_parent? (ht : t.forest.ids.Nodup) {n p : NodeId} (h : t.parent? n = some p) :
    t.ancestors n = p :: t.ancestors p := by
  obtain ⟨k, ks, l, a, c, r, rfl, rfl, hf⟩ := exists_of_parent? ht h
  have hk : t.forest = close ks (k.before ++ cons k.node (l ++ cons a c r) k.after) := hf
  rw [ancestors_at ht hf, ancestors_at ht hk, above_cons]

theorem Shaped.not_isAbove_parent (ht : t.Shaped) {m n : NodeId} (hn : t.isAttached n = true)
    (hm : t.isAttached m = false) : ¬ ∃ p, t.parent? n = some p ∧ t.IsAbove m p := by
  rintro ⟨p, hp, habove⟩
  refine ht.not_isAbove ?_ hm habove
  refine ht.isAttached_of_mem_ancestors hn ?_
  rw [ancestors_of_parent? ht.numbered.nodup hp]
  exact List.mem_cons_self

section Sibling

variable {ks : Context} {l f m d r : Forest Node} {b u : Node} (ht : t.forest.ids.Nodup)
  (h : t.forest = close ks (l ++ cons b f (m ++ cons u d r)))

include ht h

theorem apart_sibling : u.id ∉ above ks ∧ u.id ≠ b.id ∧ u.id ∉ f.ids := by
  have hu : t.forest = close ks ((l ++ cons b f m) ++ cons u d r) := by
    rw [h, Forest.append_assoc, cons_append]
  obtain ⟨hlead, hbefore, -, -, -⟩ := apart_of_nodup (hu ▸ ht)
  simp only [ids_append, ids_cons, List.mem_append, List.mem_cons, not_or] at hbefore
  exact ⟨fun hm => hlead (mem_leading_of_mem_above hm), hbefore.2.1, hbefore.2.2.1⟩

theorem not_isAbove_sibling : ¬ t.IsAbove u.id b.id := by
  obtain ⟨habove, hb, -⟩ := apart_sibling ht h
  rintro (he | hm)
  · exact hb he
  · exact habove (ancestors_at ht h ▸ hm)

theorem not_isAbove_nephew {kl kc kr : Forest Node} {k : Node} (hf : f = kl ++ cons k kc kr) :
    ¬ t.IsAbove u.id k.id := by
  subst hf
  have hk : t.forest = close (⟨l, b, m ++ cons u d r⟩ :: ks) (kl ++ cons k kc kr) := h
  obtain ⟨habove, hb, hf⟩ := apart_sibling ht h
  simp only [ids_append, ids_cons, List.mem_append, List.mem_cons, not_or] at hf
  rintro (he | hm)
  · exact hf.2.1 he
  · rw [ancestors_at ht hk, above_cons, List.mem_cons] at hm
    exact hm.elim hb habove

end Sibling

section Loose

variable {m n : NodeId} (ht : t.Shaped) (hn : t.isAttached n = true) (hm : t.isAttached m = false)
  (hfree : t.IsKind Kind.isFree m)

include ht hn hm hfree

theorem Shaped.sound_insertBefore (hk : t.IsKind Kind.isFree n) :
    (Step.edit (.insertBefore n m)).Sound t :=
  ⟨⟨hk, hfree⟩, fun h => ht.not_isAbove_parent hn hm h.2⟩

theorem Shaped.sound_insertAfter (hk : t.IsKind Kind.isFree n) :
    (Step.edit (.insertAfter n m)).Sound t :=
  ⟨⟨hk, hfree⟩, fun h => ht.not_isAbove_parent hn hm h.2.2⟩

theorem Shaped.sound_replace (hk : t.IsKind Kind.isFree n) : (Step.edit (.replace n m)).Sound t :=
  ⟨⟨hk, hfree⟩, fun h => ht.not_isAbove_parent hn hm h.2⟩

theorem Shaped.sound_append (hk : t.IsKind Kind.isOpen n) : (Step.edit (.append n m)).Sound t :=
  ⟨⟨hk, hfree⟩, ht.not_isAbove hn hm⟩

theorem Shaped.sound_prepend (hk : t.IsKind Kind.isOpen n) : (Step.edit (.prepend n m)).Sound t := by
  refine ⟨⟨hk, hfree⟩, ?_⟩
  rw [Edit.Cyclic]
  split
  · exact fun h => ht.not_isAbove hn hm h.2
  · exact ht.not_isAbove hn hm

end Loose

end Tree

end HtmlTemplate
