import HtmlTemplate.Proofs.Tree.Shape

/-! # The structure of a document as its nodes see it

`Structured` says what a node finds around it in a tree of the right shape, and `Edit.Cyclic` when an
edit would put a node below itself.
-/

namespace HtmlTemplate

open Forest Context

/-- The links agree, and every node stands where its kind may stand. -/
structure Structured (t : Tree) : Prop where
  linked : Linked t.links
  root_parent : t.parent? Tree.root = none
  conditional : ∀ n, t.isConditional n = true → ∃ b₁ b₂, t.children n = [b₁, b₂] ∧
    t.kind? b₁ = some .branch ∧ t.kind? b₂ = some .branch
  branch : ∀ n, t.kind? n = some .branch → t.isAttached n = true →
    ∃ p, t.parent? n = some p ∧ t.isConditional p = true
  document : ∀ n, t.kind? n = some .document ↔ n = Tree.root
  text : ∀ n s, t.kind? n = some (.text s) → t.children n = []
  code : ∀ n f, t.kind? n = some (.code f) → t.children n = []

/-- Node `a` is node `n` or above it. -/
def Tree.IsAbove (t : Tree) (a n : NodeId) : Prop :=
  a = n ∨ a ∈ t.ancestors n

/-- An edit that would put a node below itself. Putting a node beside itself changes nothing and is
not such an edit. -/
def Edit.Cyclic (t : Tree) : Edit → Prop
  | append p n => t.IsAbove n p
  | prepend p n =>
    match t.firstChild? p with
    | some first => first ≠ n ∧ t.IsAbove n p
    | none => t.IsAbove n p
  | insertBefore anchor n => anchor ≠ n ∧ ∃ p, t.parent? anchor = some p ∧ t.IsAbove n p
  | insertAfter anchor n =>
    anchor ≠ n ∧ t.nextSibling? anchor ≠ some n ∧ ∃ p, t.parent? anchor = some p ∧ t.IsAbove n p
  | replace old new => old ≠ new ∧ ∃ p, t.parent? old = some p ∧ t.IsAbove new p
  | create _ | detach _ | clear _ | mark _ => False

namespace Tree

variable {t : Tree}

theorem mem_ids_of_kind? {n : NodeId} {k : Kind} (h : t.kind? n = some k) : n ∈ t.forest.ids := by
  have hkind : t.IsKind (fun _ => true) n := ⟨k, h, rfl⟩
  exact hkind.mem_ids

theorem Shaped.admits_below (ht : t.Shaped) {n : NodeId} {k : Kind} (h : t.kind? n = some k) :
    k.admits (t.below n).rootKinds := by
  obtain ⟨ks, l, a, c, r, rfl, hf⟩ := exists_close (mem_ids_of_kind? h)
  rw [kind?_at ht.numbered.nodup hf, Option.some.injEq] at h
  have ho := ht.orderly
  rw [hf, orderly_close] at ho
  have hs := ho.1
  simp only [sorted_append, sorted_cons] at hs
  rw [below_at ht.numbered.nodup hf, ← h]
  exact hs.2.1

theorem kinds_children (ht : t.forest.ids.Nodup) (n : NodeId) :
    (t.children n).map t.kind? = (t.below n).rootKinds.map some := by
  by_cases hn : n ∈ t.forest.ids
  · obtain ⟨ks, l, a, c, r, rfl, hf⟩ := exists_close hn
    rw [children_at ht hf, below_at ht hf, rootIds, rootKinds, List.map_map, List.map_map]
    refine List.map_congr_left fun x hx => ?_
    show t.kind? x.id = some x.kind
    obtain ⟨l', d, r', rfl⟩ := exists_mem_roots hx
    have hx' : t.forest = close (⟨l, a, r⟩ :: ks) (l' ++ cons x d r') := hf
    exact kind?_at ht hx'
  · rw [children, below, find?_of_not_mem hn]
    rfl

end Tree

theorem Kind.document_not_mem_of_admits {k : Kind} {below : List Kind} (h : k.admits below) :
    Kind.document ∉ below := by
  have hfree : (∀ x ∈ below, x.isFree = true) → Kind.document ∉ below := fun hall hm => by
    cases hall _ hm
  cases k with
  | conditional test =>
    rw [admits] at h
    simp [h]
  | text s =>
    rw [admits] at h
    simp [h]
  | code f =>
    rw [admits] at h
    simp [h]
  | document => exact hfree h
  | element e => exact hfree h
  | branch => exact hfree h
  | loop binding => exact hfree h

/-- Only a conditional has a branch below it. -/
theorem Kind.isConditional_of_admits {k : Kind} {below : List Kind} (h : k.admits below)
    (hb : Kind.branch ∈ below) : k.isConditional = true := by
  cases k with
  | conditional test => rfl
  | text s =>
    rw [admits] at h
    exact absurd (h ▸ hb) List.not_mem_nil
  | code f =>
    rw [admits] at h
    exact absurd (h ▸ hb) List.not_mem_nil
  | document => cases h _ hb
  | element e => cases h _ hb
  | branch => cases h _ hb
  | loop binding => cases h _ hb

theorem Forest.Sorted.not_document {f : Forest Node} (h : f.Sorted)
    (htop : Kind.document ∉ f.rootKinds) {x : Node} (hx : x ∈ f.preorder) : x.kind ≠ .document := by
  induction f with
  | nil => exact absurd hx List.not_mem_nil
  | cons a c r ihc ihr =>
    obtain ⟨ha, hc, hr⟩ := h
    rw [rootKinds_cons, List.mem_cons, not_or] at htop
    rw [preorder_cons, List.mem_cons, List.mem_append] at hx
    rcases hx with rfl | hx | hx
    · exact fun e => htop.1 e.symm
    · exact ihc hc (Kind.document_not_mem_of_admits ha) hx
    · exact ihr hr htop.2 hx

namespace Tree

variable {t : Tree}

/-- The document stands at the top, with number `root`, and in no other place. -/
theorem Shaped.exists_around (ht : t.Shaped) :
    ∃ content loose : Forest Node, t.forest = cons ⟨root, .document⟩ content loose ∧
      ∀ x ∈ content.preorder ++ loose.preorder, x.kind ≠ .document := by
  obtain ⟨hs, rest, hrest, hfree⟩ := ht.orderly
  have hroot := ht.rooted
  cases hf : t.forest with
  | nil =>
    rw [hf] at hrest
    cases hrest
  | cons a c r =>
    rw [hf, rootKinds_cons, List.cons.injEq] at hrest
    rw [hf, sorted_cons] at hs
    have hloose : Kind.document ∉ r.rootKinds := by
      intro hm
      rw [hrest.2] at hm
      cases hfree _ hm
    have hno : ∀ x ∈ c.preorder ++ r.preorder, x.kind ≠ .document := by
      intro x hx
      rcases List.mem_append.1 hx with hx | hx
      · exact hs.2.1.not_document (Kind.document_not_mem_of_admits hs.1) hx
      · exact hs.2.2.not_document hloose hx
    rw [hf, preorder_cons, List.mem_cons] at hroot
    rcases hroot with hroot | hroot
    · exact ⟨c, r, by rw [hroot], hno⟩
    · exact absurd rfl (hno _ hroot)

theorem Shaped.nodup_descendants_root (ht : t.Shaped) : (t.descendants root).Nodup := by
  obtain ⟨content, loose, hf, -⟩ := ht.exists_around
  have hn := ht.numbered.nodup
  rw [hf, ids_cons, ← List.cons_append] at hn
  rw [descendants, find?, hf, Forest.find?, if_pos rfl]
  exact hn.of_append_left

theorem Shaped.kind?_document_iff (ht : t.Shaped) (n : NodeId) :
    t.kind? n = some .document ↔ n = root := by
  have hn := ht.numbered.nodup
  rw [kind?_eq_some_iff hn]
  refine ⟨fun h => ?_, fun h => by rw [h]; exact ht.rooted⟩
  obtain ⟨content, loose, hf, hno⟩ := ht.exists_around
  rw [hf, preorder_cons, List.mem_cons] at h
  rcases h with h | h
  · exact congrArg Node.id h
  · exact absurd rfl (hno _ h)

theorem Shaped.children_conditional (ht : t.Shaped) {n : NodeId} (h : t.isConditional n = true) :
    ∃ b₁ b₂, t.children n = [b₁, b₂] ∧ t.kind? b₁ = some .branch ∧ t.kind? b₂ = some .branch := by
  obtain ⟨test, htest⟩ : ∃ test, t.kind? n = some (.conditional test) := by
    unfold isConditional at h
    cases hk : t.kind? n with
    | none => simp [hk] at h
    | some k => cases k <;> simp [hk, Kind.isConditional] at h ⊢
  have hbelow := ht.admits_below htest
  have hkinds := kinds_children ht.numbered.nodup n
  rw [Kind.admits] at hbelow
  rw [hbelow] at hkinds
  obtain ⟨b₁, rest, hchildren, h₁, hrest⟩ := List.map_eq_cons_iff.1 hkinds
  obtain ⟨b₂, rest', rfl, h₂, hrest'⟩ := List.map_eq_cons_iff.1 hrest
  rw [List.map_eq_nil_iff.1 hrest'] at hchildren
  exact ⟨b₁, b₂, hchildren, h₁, h₂⟩

theorem Shaped.parent_branch (ht : t.Shaped) {n : NodeId} (h : t.kind? n = some .branch) :
    ∃ p, t.parent? n = some p ∧ t.isConditional p = true := by
  have hn := ht.numbered.nodup
  obtain ⟨ks, l, a, c, r, rfl, hf⟩ := exists_close (mem_ids_of_kind? h)
  rw [kind?_at hn hf, Option.some.injEq] at h
  have ho := ht.orderly
  rw [hf, orderly_close, rootKinds_append, rootKinds_cons, h] at ho
  cases ks with
  | nil =>
    -- At the top stand the document and free nodes only.
    obtain ⟨-, rest, hrest, hfree⟩ := ho
    have hmem : Kind.branch ∈ Kind.document :: rest := by
      rw [← hrest]
      simp
    rw [List.mem_cons] at hmem
    rcases hmem with hmem | hmem
    · cases hmem
    · cases hfree _ hmem
  | cons k ks =>
    have hk : t.forest = close ks (k.before ++ cons k.node (l ++ cons a c r) k.after) := hf
    refine ⟨k.node.id, parent?_at hn hf, ?_⟩
    rw [isConditional, kind?_at hn hk]
    exact Kind.isConditional_of_admits ho.2.1 (by simp)

theorem Shaped.children_leaf (ht : t.Shaped) {n : NodeId} {k : Kind} (h : t.kind? n = some k)
    (hk : ∀ below, k.admits below → below = []) : t.children n = [] := by
  have hkinds := kinds_children ht.numbered.nodup n
  rw [hk _ (ht.admits_below h)] at hkinds
  exact List.map_eq_nil_iff.1 hkinds

theorem Shaped.structured (ht : t.Shaped) : Structured t where
  linked := linked_of_nodup ht.numbered.nodup
  root_parent := by
    obtain ⟨content, loose, hf, -⟩ := ht.exists_around
    have hroot : t.forest = close [] (nil ++ cons ⟨root, .document⟩ content loose) := hf
    exact parent?_at ht.numbered.nodup hroot
  conditional := fun n h => ht.children_conditional h
  branch := fun n h _ => ht.parent_branch h
  document := ht.kind?_document_iff
  text := fun n s h => ht.children_leaf h fun _ hb => hb
  code := fun n f h => ht.children_leaf h fun _ hb => hb

end Tree

end HtmlTemplate
