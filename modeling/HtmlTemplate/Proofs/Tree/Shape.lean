import HtmlTemplate.Proofs.Tree.Links
import Mathlib.Data.List.Nodup

/-! # The shape of a document

A document stands at the top and nowhere else, a conditional has two branches below it and branches
stand nowhere else, and text and code have nothing below them. An edit that puts a node where its
kind fits keeps the shape (`Shaped.apply`).
-/

namespace HtmlTemplate

open Forest Context

namespace Kind

/-- Kinds that may stand below any node that may have something below it. -/
def isFree : Kind → Bool
  | document | branch => false
  | _ => true

/-- Kinds below which free kinds may stand. -/
def isOpen : Kind → Bool
  | document | element _ | branch | loop _ => true
  | _ => false

def isElement : Kind → Bool
  | element _ => true
  | _ => false

/-- Whether nodes of the given kinds may stand below a node of kind `k`. -/
def admits (k : Kind) (below : List Kind) : Prop :=
  match k with
  | conditional _ => below = [branch, branch]
  | text _ | code _ => below = []
  | _ => ∀ x ∈ below, x.isFree = true

theorem exists_element {k : Kind} (h : k.isElement = true) : ∃ e, k = element e := by
  cases k <;> simp_all [isElement]

theorem element?_eq_none {k : Kind} (h : k.isElement = false) : k.element? = none := by
  cases k <;> simp_all [isElement, element?]

theorem isFree_of_isElement {k : Kind} (h : k.isElement = true) : k.isFree = true := by
  cases k <;> simp_all [isElement, isFree]

theorem isOpen_of_isElement {k : Kind} (h : k.isElement = true) : k.isOpen = true := by
  cases k <;> simp_all [isElement, isOpen]

theorem isFree_of_isLoop {k : Kind} (h : k.isLoop = true) : k.isFree = true := by
  cases k <;> simp_all [isLoop, isFree]

theorem isOpen_of_isLoop {k : Kind} (h : k.isLoop = true) : k.isOpen = true := by
  cases k <;> simp_all [isLoop, isOpen]

theorem isFree_of_isConditional {k : Kind} (h : k.isConditional = true) : k.isFree = true := by
  cases k <;> simp_all [isConditional, isFree]

theorem admits_of_isOpen {k : Kind} (h : k.isOpen = true) (below : List Kind) :
    k.admits below ↔ ∀ x ∈ below, x.isFree = true := by
  cases k <;> simp_all [isOpen, admits]

theorem isOpen_of_admits {k x : Kind} {below : List Kind} (h : k.admits below) (hx : x ∈ below)
    (hfree : x.isFree = true) : k.isOpen = true := by
  cases k with
  | conditional test =>
    rw [admits] at h
    subst h
    simp only [List.mem_cons, List.not_mem_nil, or_false, or_self] at hx
    subst hx
    exact hfree
  | text s =>
    rw [admits] at h
    exact absurd (h ▸ hx) List.not_mem_nil
  | code f =>
    rw [admits] at h
    exact absurd (h ▸ hx) List.not_mem_nil
  | document => rfl
  | element e => rfl
  | branch => rfl
  | loop binding => rfl

end Kind

namespace Forest

/-- The kinds of the nodes at the top. -/
def rootKinds (f : Forest Node) : List Kind :=
  f.roots.map Node.kind

@[simp] theorem rootKinds_nil : (nil : Forest Node).rootKinds = [] := rfl

@[simp] theorem rootKinds_cons (a : Node) (c r : Forest Node) :
    (cons a c r).rootKinds = a.kind :: r.rootKinds := rfl

@[simp] theorem rootKinds_append (f g : Forest Node) :
    (f ++ g).rootKinds = f.rootKinds ++ g.rootKinds := by
  simp [rootKinds]

@[simp] theorem rootKinds_tree (a : Node) (c : Forest Node) : (tree a c).rootKinds = [a.kind] := rfl

theorem exists_of_rootKinds {f : Forest Node} {k₁ k₂ : Kind} (h : f.rootKinds = [k₁, k₂]) :
    ∃ (a₁ a₂ : Node) (c₁ c₂ : Forest Node), f = cons a₁ c₁ (tree a₂ c₂) ∧ a₁.kind = k₁ ∧
      a₂.kind = k₂ := by
  cases f with
  | nil => cases h
  | cons a₁ c₁ f =>
    rw [rootKinds_cons, List.cons.injEq] at h
    obtain ⟨h₁, h⟩ := h
    cases f with
    | nil => cases h
    | cons a₂ c₂ f =>
      rw [rootKinds_cons, List.cons.injEq] at h
      obtain ⟨h₂, h⟩ := h
      cases f with
      | nil => exact ⟨a₁, a₂, c₁, c₂, rfl, h₁, h₂⟩
      | cons a₃ c₃ f => cases h

/-- Every node admits what stands below it. -/
def Sorted : Forest Node → Prop
  | nil => True
  | cons a c r => a.kind.admits c.rootKinds ∧ Sorted c ∧ Sorted r

@[simp] theorem sorted_nil : Sorted nil := trivial

@[simp] theorem sorted_cons (a : Node) (c r : Forest Node) :
    Sorted (cons a c r) ↔ a.kind.admits c.rootKinds ∧ Sorted c ∧ Sorted r := Iff.rfl

@[simp] theorem sorted_append (f g : Forest Node) : Sorted (f ++ g) ↔ Sorted f ∧ Sorted g := by
  induction f with
  | nil => simp
  | cons a c r _ ih => simp [ih, and_assoc]

@[simp] theorem sorted_tree (a : Node) (c : Forest Node) :
    Sorted (tree a c) ↔ a.kind.admits c.rootKinds ∧ Sorted c := by
  simp [tree]

/-- The document comes first at the top, and free nodes after it. -/
def Topped (below : List Kind) : Prop :=
  ∃ rest : List Kind, below = .document :: rest ∧ ∀ x ∈ rest, x.isFree = true

/-- Every node stands where its kind may stand. -/
def Orderly (f : Forest Node) : Prop :=
  f.Sorted ∧ Topped f.rootKinds

theorem Orderly.append {f g : Forest Node} (hf : f.Orderly) (hg : g.Sorted)
    (hfree : ∀ x ∈ g.rootKinds, x.isFree = true) : (f ++ g).Orderly := by
  obtain ⟨rest, hrest, hr⟩ := hf.2
  refine ⟨(sorted_append ..).2 ⟨hf.1, hg⟩, rest ++ g.rootKinds, ?_, ?_⟩
  · rw [rootKinds_append, hrest]
    rfl
  · intro x hx
    rcases List.mem_append.1 hx with hx | hx
    · exact hr x hx
    · exact hfree x hx

end Forest

namespace Context

/-- Whether nodes of the given kinds may stand in the gap of a context. -/
def Admits : Context → List Kind → Prop
  | [], below => Topped below
  | k :: ks, below => k.node.kind.admits below ∧ Sorted k.before ∧ Sorted k.after ∧
      Admits ks (k.before.rootKinds ++ k.node.kind :: k.after.rootKinds)

theorem orderly_close (ks : Context) (f : Forest Node) :
    (close ks f).Orderly ↔ f.Sorted ∧ Admits ks f.rootKinds := by
  induction ks generalizing f with
  | nil => rfl
  | cons k ks ih =>
    rw [close_cons, ih, Admits]
    simp only [sorted_append, sorted_cons, rootKinds_append, rootKinds_cons]
    constructor
    · rintro ⟨⟨hb, ha, hf, hr⟩, hks⟩
      exact ⟨hf, ha, hb, hr, hks⟩
    · rintro ⟨hf, ha, hb, hr, hks⟩
      exact ⟨⟨hb, ha, hf, hr⟩, hks⟩

theorem Admits.replace {ks : Context} {x : Kind} {l s r : List Kind} (h : Admits ks (l ++ x :: r))
    (hx : x.isFree = true) (hs : ∀ y ∈ s, y.isFree = true) : Admits ks (l ++ (s ++ r)) := by
  cases ks with
  | nil =>
    obtain ⟨rest, hrest, hfree⟩ := h
    cases l with
    | nil =>
      rw [List.nil_append, List.cons.injEq] at hrest
      rw [hrest.1] at hx
      cases hx
    | cons y l =>
      rw [List.cons_append, List.cons.injEq] at hrest
      refine ⟨l ++ (s ++ r), by rw [hrest.1]; rfl, ?_⟩
      intro z hz
      rw [← hrest.2] at hfree
      simp only [List.mem_append, List.mem_cons] at hz hfree
      rcases hz with hz | hz | hz
      · exact hfree z (Or.inl hz)
      · exact hs z hz
      · exact hfree z (Or.inr (Or.inr hz))
  | cons k ks =>
    obtain ⟨hk, hb, ha, hks⟩ := h
    have hopen := Kind.isOpen_of_admits hk (by simp) hx
    refine ⟨?_, hb, ha, hks⟩
    rw [Kind.admits_of_isOpen hopen] at hk ⊢
    intro z hz
    simp only [List.mem_append, List.mem_cons] at hz hk
    rcases hz with hz | hz | hz
    · exact hk z (Or.inl hz)
    · exact hs z hz
    · exact hk z (Or.inr (Or.inr hz))

end Context

/-! ## Nodes and their kinds -/

namespace Tree

variable {t : Tree}

theorem mem_preorder_at (ks : Context) (l c r : Forest Node) (a : Node) :
    a ∈ (close ks (l ++ cons a c r)).preorder := by
  refine (preorder_close_perm ks l (tree a c) r).mem_iff.2 (List.mem_append_left _ ?_)
  simp [tree]

theorem kind?_eq_some_iff (ht : t.forest.ids.Nodup) {n : NodeId} {k : Kind} :
    t.kind? n = some k ↔ ⟨n, k⟩ ∈ t.forest.preorder := by
  constructor
  · intro h
    have hn : n ∈ t.forest.ids := by
      refine Classical.byContradiction fun hn => ?_
      rw [kind?, find?_of_not_mem hn] at h
      cases h
    obtain ⟨ks, l, a, c, r, rfl, hf⟩ := exists_close hn
    rw [kind?_at ht hf, Option.some.injEq] at h
    rw [hf, ← h]
    exact mem_preorder_at ks l c r a
  · intro h
    have hn : n ∈ t.forest.ids := List.mem_map.2 ⟨⟨n, k⟩, h, rfl⟩
    obtain ⟨ks, l, a, c, r, ha, hf⟩ := exists_close hn
    have hmem : a ∈ t.forest.preorder := hf ▸ mem_preorder_at ks l c r a
    have hinj : a = ⟨n, k⟩ := List.inj_on_of_nodup_map ht hmem h ha
    have hkind := kind?_at ht hf
    rw [hinj] at hkind
    exact hkind

/-- Node `n` is of a kind in `p`. -/
def IsKind (t : Tree) (p : Kind → Bool) (n : NodeId) : Prop :=
  ∃ k, t.kind? n = some k ∧ p k = true

theorem isKind_at {ks : Context} {l c r : Forest Node} {a : Node} {p : Kind → Bool}
    (ht : t.forest.ids.Nodup) (h : t.forest = close ks (l ++ cons a c r)) (ha : p a.kind = true) :
    t.IsKind p a.id :=
  ⟨a.kind, kind?_at ht h, ha⟩

theorem IsKind.imp {p q : Kind → Bool} {n : NodeId} (h : t.IsKind p n)
    (hpq : ∀ {k : Kind}, p k = true → q k = true) : t.IsKind q n := by
  obtain ⟨k, hk, hp⟩ := h
  exact ⟨k, hk, hpq hp⟩

theorem isKind_of_any {p : Kind → Bool} {n : NodeId} (h : (t.kind? n).any p = true) :
    t.IsKind p n :=
  (Option.any_eq_true ..).1 h

theorem IsKind.of_kind? {p : Kind → Bool} {n : NodeId} {k : Kind} (hp : t.IsKind p n)
    (h : t.kind? n = some k) : p k = true := by
  obtain ⟨k', hk', hpk⟩ := hp
  rw [h, Option.some.injEq] at hk'
  rw [hk', hpk]

theorem IsKind.mem_ids {p : Kind → Bool} {n : NodeId} (hp : t.IsKind p n) : n ∈ t.forest.ids := by
  obtain ⟨k, hk, -⟩ := hp
  refine Classical.byContradiction fun hn => ?_
  rw [kind?, find?_of_not_mem hn] at hk
  cases hk

theorem IsKind.exists_close {p : Kind → Bool} {n : NodeId} (hp : t.IsKind p n)
    (ht : t.forest.ids.Nodup) : ∃ (ks : Context) (l : Forest Node) (a : Node) (c r : Forest Node),
      a.id = n ∧ t.forest = close ks (l ++ cons a c r) ∧ p a.kind = true := by
  obtain ⟨ks, l, a, c, r, rfl, h⟩ := HtmlTemplate.exists_close hp.mem_ids
  exact ⟨ks, l, a, c, r, rfl, h, hp.of_kind? (kind?_at ht h)⟩

theorem IsKind.apply {p : Kind → Bool} {n : NodeId} (hp : t.IsKind p n) (ht : t.Numbered)
    (e : Edit) : (e.apply t).IsKind p n := by
  obtain ⟨k, hk, hpk⟩ := hp
  rw [kind?_eq_some_iff ht.nodup] at hk
  exact ⟨k, (kind?_eq_some_iff (ht.apply e).nodup).2 (subset_apply ht e hk), hpk⟩

/-! ## Edits that fit -/

theorem orderly_create (ho : t.forest.Orderly) {kind : Kind} (hk : kind.isFree = true) :
    (t.create kind).forest.Orderly := by
  cases kind with
  | conditional test => exact ho.append (by simp [tree, Kind.admits]) (by simpa using hk)
  | document => cases hk
  | branch => cases hk
  | element e => exact ho.append (by simp [tree, Kind.admits]) (by simpa using hk)
  | text s => exact ho.append (by simp [tree, Kind.admits]) (by simpa using hk)
  | code f => exact ho.append (by simp [tree, Kind.admits]) (by simpa using hk)
  | loop binding => exact ho.append (by simp [tree, Kind.admits]) (by simpa using hk)

theorem orderly_take {ks : Context} {l c r : Forest Node} {a : Node}
    (ho : (close ks (l ++ cons a c r)).Orderly) (ha : a.kind.isFree = true) :
    (tree a c).Sorted ∧ (close ks (l ++ r)).Orderly := by
  obtain ⟨hs, hks⟩ := (orderly_close ..).1 ho
  simp only [sorted_append, sorted_cons] at hs
  rw [rootKinds_append, rootKinds_cons] at hks
  refine ⟨(sorted_tree ..).2 ⟨hs.2.1, hs.2.2.1⟩, (orderly_close ..).2 ⟨?_, ?_⟩⟩
  · exact (sorted_append ..).2 ⟨hs.1, hs.2.2.2⟩
  · rw [rootKinds_append]
    exact hks.replace ha (List.forall_mem_nil _)

theorem orderly_detach (ht : t.forest.ids.Nodup) (ho : t.forest.Orderly) {n : NodeId}
    (hn : t.IsKind Kind.isFree n) : (t.detach n).forest.Orderly := by
  obtain ⟨ks, l, a, c, r, rfl, h, ha⟩ := hn.exists_close ht
  unfold Tree.detach
  rw [subtree?_at ht h]
  split
  · rename_i p s hp hs
    cases hs
    obtain ⟨htree, hrest⟩ := orderly_take (h ▸ ho) ha
    show (t.forest.remove a.id ++ tree a c).Orderly
    rw [remove_at ht h]
    exact hrest.append htree (by simpa using ha)
  · exact ho

/-- A free node may be moved to wherever free nodes may stand. -/
theorem orderly_move (ht : t.forest.ids.Nodup) (ho : t.forest.Orderly) {n target : NodeId}
    (hn : t.IsKind Kind.isFree n) {place : Forest Node → Forest Node → Forest Node}
    {g : Forest Node → Node → Forest Node → Forest Node} (htarget : target ∈ t.forest.ids)
    (hplace : ∀ s f, place s f = f.replaceAt target (g s))
    (hg : ∀ (ks : Context) (l : Forest Node) (b : Node) (d r : Forest Node) (a : Node)
      (c : Forest Node), t.kind? target = some b.kind → a.kind.isFree = true → (tree a c).Sorted →
      (l ++ cons b d r).Sorted → Admits ks (l ++ cons b d r).rootKinds →
      (l ++ (g (tree a c) b d ++ r)).Sorted ∧ Admits ks (l ++ (g (tree a c) b d ++ r)).rootKinds) :
    (t.move n target place).forest.Orderly := by
  obtain ⟨ks, l, a, c, r, rfl, h, ha⟩ := hn.exists_close ht
  have hsub := subtree?_at ht h
  unfold Tree.move
  rw [hsub]
  simp only []
  split
  · exact ho
  · rename_i hout
    obtain ⟨htree, hrest⟩ := orderly_take (h ▸ ho) ha
    have hnodup := nodup_remove ht hsub
    rw [remove_at ht h] at hnodup
    obtain ⟨js, l', b, d, r', rfl, h'⟩ := HtmlTemplate.exists_close
      (mem_remove ht hsub htarget hout)
    rw [remove_at ht h] at h'
    have hkind : t.kind? b.id = some b.kind := by
      rw [kind?_eq_some_iff ht, h]
      refine (preorder_close_perm ks l (tree a c) r).mem_iff.2 (List.mem_append_right _ ?_)
      rw [h']
      exact mem_preorder_at js l' d r' b
    show (place (tree a c) (t.forest.remove a.id)).Orderly
    rw [hplace, remove_at ht h, replaceAt_at hnodup h', orderly_close]
    rw [h', orderly_close] at hrest
    exact hg js l' b d r' a c hkind ha htree hrest.1 hrest.2

theorem sorted_below {ks : Context} {l d d' r : Forest Node} {b : Node} {a : Node}
    {c : Forest Node} (hb : b.kind.isOpen = true) (ha : a.kind.isFree = true)
    (htree : (tree a c).Sorted) (hs : (l ++ cons b d r).Sorted)
    (hks : Admits ks (l ++ cons b d r).rootKinds) (hd : d' = d ++ tree a c ∨ d' = tree a c ++ d) :
    (l ++ (tree b d' ++ r)).Sorted ∧ Admits ks (l ++ (tree b d' ++ r)).rootKinds := by
  simp only [sorted_append, sorted_cons] at hs
  refine ⟨?_, by simpa using hks⟩
  rw [tree_append, sorted_append, sorted_cons]
  have hadmits := (Kind.admits_of_isOpen hb _).1 hs.2.1
  refine ⟨hs.1, ?_, ?_, hs.2.2.2⟩
  · rw [Kind.admits_of_isOpen hb]
    rcases hd with rfl | rfl
    · intro x hx
      rw [rootKinds_append, List.mem_append, rootKinds_tree, List.mem_singleton] at hx
      rcases hx with hx | rfl
      · exact hadmits x hx
      · exact ha
    · intro x hx
      rw [rootKinds_append, List.mem_append, rootKinds_tree, List.mem_singleton] at hx
      rcases hx with rfl | hx
      · exact ha
      · exact hadmits x hx
  · rcases hd with rfl | rfl
    · exact (sorted_append ..).2 ⟨hs.2.2.1, htree⟩
    · exact (sorted_append ..).2 ⟨htree, hs.2.2.1⟩

theorem sorted_beside {ks : Context} {l d r s : Forest Node} {b : Node} {a : Node}
    {c : Forest Node} (hb : b.kind.isFree = true) (ha : a.kind.isFree = true)
    (htree : (tree a c).Sorted) (hs : (l ++ cons b d r).Sorted)
    (hks : Admits ks (l ++ cons b d r).rootKinds)
    (hd : s = tree a c ++ tree b d ∨ s = tree b d ++ tree a c) :
    (l ++ (s ++ r)).Sorted ∧ Admits ks (l ++ (s ++ r)).rootKinds := by
  rw [rootKinds_append, rootKinds_cons] at hks
  simp only [sorted_append, sorted_cons] at hs
  have hkinds : ∀ x ∈ s.rootKinds, x.isFree = true := by
    rcases hd with rfl | rfl <;> simp [ha, hb]
  refine ⟨?_, ?_⟩
  · rw [sorted_append, sorted_append]
    refine ⟨hs.1, ?_, hs.2.2.2⟩
    rcases hd with rfl | rfl
    · exact (sorted_append ..).2 ⟨htree, (sorted_tree ..).2 ⟨hs.2.1, hs.2.2.1⟩⟩
    · exact (sorted_append ..).2 ⟨(sorted_tree ..).2 ⟨hs.2.1, hs.2.2.1⟩, htree⟩
  · rw [rootKinds_append, rootKinds_append]
    exact hks.replace hb hkinds

theorem orderly_append (ht : t.forest.ids.Nodup) (ho : t.forest.Orderly) {p n : NodeId}
    (hp : t.IsKind Kind.isOpen p) (hn : t.IsKind Kind.isFree n) : (t.append p n).forest.Orderly := by
  unfold Tree.append
  split
  · refine orderly_move ht ho hn hp.mem_ids (fun s f => mapChildren_eq_replaceAt p _ f) ?_
    intro ks l b d r a c hb ha htree hs hks
    exact sorted_below (hp.of_kind? hb) ha htree hs hks (Or.inl rfl)
  · exact ho

theorem orderly_prepend (ht : t.forest.ids.Nodup) (ho : t.forest.Orderly) {p n : NodeId}
    (hp : t.IsKind Kind.isOpen p) (hn : t.IsKind Kind.isFree n) :
    (t.prepend p n).forest.Orderly := by
  unfold Tree.prepend
  split
  · refine orderly_move ht ho hn hp.mem_ids (fun s f => mapChildren_eq_replaceAt p _ f) ?_
    intro ks l b d r a c hb ha htree hs hks
    exact sorted_below (hp.of_kind? hb) ha htree hs hks (Or.inr rfl)
  · exact ho

theorem orderly_insertBefore (ht : t.forest.ids.Nodup) (ho : t.forest.Orderly) {anchor n : NodeId}
    (hanchor : t.IsKind Kind.isFree anchor) (hn : t.IsKind Kind.isFree n) :
    (t.insertBefore anchor n).forest.Orderly := by
  unfold Tree.insertBefore
  split
  · refine orderly_move ht ho hn hanchor.mem_ids
      (fun s f => insertBefore_eq_replaceAt anchor s f) ?_
    intro ks l b d r a c hb ha htree hs hks
    exact sorted_beside (hanchor.of_kind? hb) ha htree hs hks (Or.inl rfl)
  · exact ho

theorem orderly_insertAfter (ht : t.forest.ids.Nodup) (ho : t.forest.Orderly) {anchor n : NodeId}
    (hanchor : t.IsKind Kind.isFree anchor) (hn : t.IsKind Kind.isFree n) :
    (t.insertAfter anchor n).forest.Orderly := by
  unfold Tree.insertAfter
  split
  · refine orderly_move ht ho hn hanchor.mem_ids
      (fun s f => insertAfter_eq_replaceAt anchor s f) ?_
    intro ks l b d r a c hb ha htree hs hks
    exact sorted_beside (hanchor.of_kind? hb) ha htree hs hks (Or.inr rfl)
  · exact ho

theorem orderly_replace (ht : t.Numbered) (ho : t.forest.Orderly) {old new : NodeId}
    (hold : t.IsKind Kind.isFree old) (hnew : t.IsKind Kind.isFree new) :
    (t.replace old new).forest.Orderly := by
  unfold Tree.replace
  split
  · exact ho
  · exact orderly_detach (ht.insertBefore old new).nodup
      (orderly_insertBefore ht.nodup ho hold hnew) (hold.apply ht (.insertBefore old new))

theorem orderly_clear (ht : t.forest.ids.Nodup) (ho : t.forest.Orderly) {n : NodeId}
    (hn : t.IsKind Kind.isOpen n) : (t.clear n).forest.Orderly := by
  obtain ⟨ks, l, a, c, r, rfl, h, ha⟩ := hn.exists_close ht
  have hat := h ▸ ho
  rw [orderly_close] at hat
  obtain ⟨hs, hks⟩ := hat
  simp only [sorted_append, sorted_cons] at hs
  have hclose : (close ks (l ++ cons a nil r)).Orderly := by
    refine (orderly_close ..).2 ⟨?_, by simpa using hks⟩
    rw [sorted_append, sorted_cons]
    exact ⟨hs.1, (Kind.admits_of_isOpen ha _).2 (List.forall_mem_nil _), sorted_nil, hs.2.2.2⟩
  show (t.forest.mapChildren a.id (fun _ => nil) ++ t.below a.id).Orderly
  rw [mapChildren_at ht h, below_at ht h]
  exact hclose.append hs.2.2.1 ((Kind.admits_of_isOpen ha _).1 hs.2.1)

theorem orderly_mapElement (ht : t.forest.ids.Nodup) (ho : t.forest.Orderly) (n : NodeId)
    (g : Element → Element) : (t.mapElement n g).forest.Orderly := by
  show (t.forest.mapKind n (Kind.mapElement g)).Orderly
  by_cases hn : n ∈ t.forest.ids
  · obtain ⟨ks, l, a, c, r, rfl, h⟩ := HtmlTemplate.exists_close hn
    have hat := h ▸ ho
    rw [mapKind_at ht h]
    rw [orderly_close] at hat ⊢
    obtain ⟨hs, hks⟩ := hat
    simp only [sorted_append, sorted_cons, rootKinds_append, rootKinds_cons] at hs hks ⊢
    cases hk : a.kind <;> rw [hk] at hs hks
    case element e =>
      have hfree : ∀ y ∈ [Kind.element (g e)], y.isFree = true := by simp [Kind.isFree]
      exact ⟨hs, hks.replace rfl hfree⟩
    all_goals exact ⟨hs, hks⟩
  · rw [mapKind_eq_replaceAt, replaceAt_of_not_mem _ hn]
    exact ho

end Tree

/-- An edit puts nodes only where their kind may stand. -/
def Edit.Fits (t : Tree) : Edit → Prop
  | create kind => kind.isFree = true
  | append p n | prepend p n => t.IsKind Kind.isOpen p ∧ t.IsKind Kind.isFree n
  | insertBefore anchor n | insertAfter anchor n =>
    t.IsKind Kind.isFree anchor ∧ t.IsKind Kind.isFree n
  | replace old new => t.IsKind Kind.isFree old ∧ t.IsKind Kind.isFree new
  | detach n => t.IsKind Kind.isFree n
  | clear n => t.IsKind Kind.isOpen n
  | mark _ => True

namespace Tree

variable {t : Tree}

/-- A tree with the document at its top, in which every node stands where its kind may stand. -/
structure Shaped (t : Tree) : Prop where
  numbered : t.Numbered
  orderly : t.forest.Orderly
  rooted : ⟨root, .document⟩ ∈ t.forest.preorder

theorem Shaped.apply (ht : t.Shaped) {e : Edit} (h : e.Fits t) : (e.apply t).Shaped := by
  refine ⟨ht.numbered.apply e, ?_, subset_apply ht.numbered e ht.rooted⟩
  have hn := ht.numbered.nodup
  cases e with
  | create kind => exact orderly_create ht.orderly h
  | append p n => exact orderly_append hn ht.orderly h.1 h.2
  | prepend p n => exact orderly_prepend hn ht.orderly h.1 h.2
  | insertBefore anchor n => exact orderly_insertBefore hn ht.orderly h.1 h.2
  | insertAfter anchor n => exact orderly_insertAfter hn ht.orderly h.1 h.2
  | replace old new => exact orderly_replace ht.numbered ht.orderly h.1 h.2
  | detach n => exact orderly_detach hn ht.orderly h
  | clear n => exact orderly_clear hn ht.orderly h
  | mark n => exact ht.orderly

theorem Shaped.mapElement (ht : t.Shaped) (n : NodeId) (g : Element → Element) :
    (t.mapElement n g).Shaped := by
  refine ⟨ht.numbered.mapElement n g, orderly_mapElement ht.numbered.nodup ht.orderly n g, ?_⟩
  show ⟨root, .document⟩ ∈ (t.forest.mapKind n (Kind.mapElement g)).preorder
  have h := ht.rooted
  by_cases hn : n ∈ t.forest.ids
  · obtain ⟨ks, l, a, c, r, rfl, hf⟩ := HtmlTemplate.exists_close hn
    rw [mapKind_at ht.numbered.nodup hf]
    have hsplit := List.mem_append.1 ((preorder_close_perm ks l (tree a c) r).mem_iff.1 (hf ▸ h))
    refine (preorder_close_perm ks l (tree _ c) r).mem_iff.2
      (List.mem_append.2 (hsplit.imp_left ?_))
    intro hm
    simp only [tree, preorder_cons, preorder_nil, List.append_nil, List.mem_cons] at hm ⊢
    refine hm.imp_left fun he => ?_
    rw [← he]
    rfl
  · rw [mapKind_eq_replaceAt, replaceAt_of_not_mem _ hn]
    exact h

end Tree

end HtmlTemplate
