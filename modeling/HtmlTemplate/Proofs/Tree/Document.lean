import HtmlTemplate.Proofs.Tree.Numbering

/-! # The document and the trees beside it

A tree whose first part is the document is written as what stands at a place in the document, with
the trees beside the document behind it. Every edit of a node at that place is an equation between
such trees.
-/

namespace HtmlTemplate

open Forest Context

/-- The document itself, above all its content and before the loose trees. -/
def documentFrame (loose : Forest Node) : Frame :=
  ⟨nil, ⟨Tree.root, .document⟩, loose⟩

namespace Tree

/-- The tree whose document has `f` at the place `ks`, with the trees `loose` beside it. -/
def around (ks : Context) (f loose : Forest Node) (next : NodeId) (marked : Option NodeId) : Tree :=
  ⟨cons ⟨root, .document⟩ (close ks f) loose, next, marked⟩

variable {ks : Context} {f l c d r loose : Forest Node} {a b x : Node} {next : NodeId}
  {marked : Option NodeId}

theorem around_forest (ks : Context) (f loose : Forest Node) (next : NodeId)
    (marked : Option NodeId) :
    (around ks f loose next marked).forest = close (ks ++ [documentFrame loose]) f := by
  rw [close_append]
  rfl

theorem around_root (ks : Context) (f loose : Forest Node) (next : NodeId) (marked : Option NodeId) :
    (around ks f loose next marked).forest =
      close [] (nil ++ cons ⟨root, .document⟩ (close ks f) loose) := rfl

theorem around_append (js ks : Context) (f loose : Forest Node) (next : NodeId)
    (marked : Option NodeId) :
    around (js ++ ks) f loose next marked = around ks (close js f) loose next marked := by
  rw [around, close_append]
  rfl

theorem ids_around (ks : Context) (f loose : Forest Node) (next : NodeId) (marked : Option NodeId) :
    (around ks f loose next marked).forest.ids = root :: ((close ks f).ids ++ loose.ids) := by
  rw [around, ids_cons]

theorem mem_ids_around : a.id ∈ (around ks (l ++ cons a c r) loose next marked).forest.ids := by
  rw [around_forest]
  simp [ids_close]

theorem documentFrame_ne_nil (ks : Context) (loose : Forest Node) :
    ks ++ [documentFrame loose] ≠ [] :=
  List.append_ne_nil_of_right_ne_nil ks (List.cons_ne_nil _ _)

theorem below_root : (around ks f loose next marked).below root = close ks f := by
  rw [below, find?, around, Forest.find?, if_pos rfl]

theorem descendants_root :
    (around ks f loose next marked).descendants root = root :: (close ks f).ids := by
  rw [descendants, find?, around, Forest.find?, if_pos rfl]

/-! ## Being in the document -/

theorem root_not_mem (ht : (around ks f loose next marked).forest.ids.Nodup) :
    root ∉ (close ks f).ids ∧ root ∉ loose.ids := by
  rw [ids_around, List.nodup_cons, List.mem_append, not_or] at ht
  exact ht.1

theorem isAttached_of_mem (ht : (around ks f loose next marked).forest.ids.Nodup) {n : NodeId}
    (hn : n ∈ (close ks f).ids) : (around ks f loose next marked).isAttached n = true := by
  obtain ⟨js, l, a, c, r, rfl, h⟩ := exists_close hn
  have hf : (around ks f loose next marked).forest =
      close (js ++ [documentFrame loose]) (l ++ cons a c r) := by
    rw [close_append, ← h]
    rfl
  rw [isAttached, ancestors_at ht hf, above_append]
  simp [documentFrame]

theorem isAttached_loose (ht : (around ks f loose next marked).forest.ids.Nodup) {n : NodeId}
    (hn : n ∈ loose.ids) : (around ks f loose next marked).isAttached n = false := by
  have hroot := (root_not_mem ht).2
  obtain ⟨js, l, a, c, r, rfl, h⟩ := exists_close hn
  have hne : a.id ≠ root := fun e => hroot (e ▸ hn)
  have hup : root ∉ above js := by
    intro hm
    apply hroot
    rw [h, ids_close]
    exact List.mem_append_left _ (mem_leading_of_mem_above hm)
  -- The place among the loose trees is a place in the forest once the document stands before it.
  rcases List.eq_nil_or_concat js with rfl | ⟨js, k, rfl⟩
  · have hf : (around ks f loose next marked).forest =
        close [] (cons ⟨root, .document⟩ (close ks f) l ++ cons a c r) := by
      rw [around, h]
      rfl
    rw [isAttached, ancestors_at ht hf]
    simpa using hne
  · have hf : (around ks f loose next marked).forest =
        close (js ++ [⟨cons ⟨root, .document⟩ (close ks f) k.before, k.node, k.after⟩])
          (l ++ cons a c r) := by
      rw [around, h, List.concat_eq_append, close_append, close_append]
      rfl
    rw [List.concat_eq_append, above_append, List.mem_append, not_or] at hup
    rw [isAttached, ancestors_at ht hf, above_append]
    simp [hne, hup.1, show root ≠ k.node.id by simpa using hup.2]

theorem nodup_content (ht : (around ks f loose next marked).forest.ids.Nodup) :
    (close ks f).ids.Nodup :=
  (List.nodup_append.1 (List.nodup_cons.1 (ids_around .. ▸ ht)).2).1

theorem ne_root_of_mem (ht : (around ks f loose next marked).forest.ids.Nodup) {n : NodeId}
    (hn : n ∈ (close ks f).ids) : n ≠ root :=
  fun h => (root_not_mem ht).1 (h ▸ hn)

theorem mem_of_isAttached (ht : (around ks f loose next marked).forest.ids.Nodup) {n : NodeId}
    (hroot : n ≠ root) (h : (around ks f loose next marked).isAttached n = true) :
    n ∈ (close ks f).ids := by
  refine Classical.byContradiction fun hout => ?_
  have hgone : (around ks f loose next marked).isAttached n = false := by
    by_cases hn : n ∈ loose.ids
    · exact isAttached_loose ht hn
    · have hnot : n ∉ (around ks f loose next marked).forest.ids := by
        rw [ids_around]
        simp [hroot, hout, hn]
      rw [isAttached, ancestors, (above?_eq_none_iff n [] _).2 hnot]
      simpa using hroot
  rw [hgone] at h
  cases h

theorem exists_parent_around (ht : (around ks (l ++ cons a c r) loose next marked).forest.ids.Nodup) :
    ∃ p, (around ks (l ++ cons a c r) loose next marked).parent? a.id = some p := by
  rw [parent?_at ht (around_forest ..), above_append]
  cases ks with
  | nil => exact ⟨_, rfl⟩
  | cons k ks => exact ⟨_, rfl⟩

theorem following?_around (ht : (around ks (l ++ cons a c r) loose next marked).forest.ids.Nodup) :
    (around ks (l ++ cons a c r) loose next marked).following? a.id =
      (r ++ rest ks).first?.map Node.id := by
  have hroot := (root_not_mem ht).1
  have ha : a.id ∈ (close ks (l ++ cons a c r)).ids := by simp [ids_close]
  have hne : root ≠ a.id := fun e => hroot (e ▸ ha)
  have hin := (List.nodup_cons.1 (ids_around .. ▸ ht)).2
  obtain ⟨hk, hl, -, -, -⟩ := apart_of_nodup (List.nodup_append.1 hin).1
  have hf : (close ks (l ++ cons a c r)).following? a.id none =
      some ((r ++ rest ks).first?.map Node.id) := by
    rw [following?_close none hk (by simp), following?_append, (following?_eq_none_iff _ _ l).2 hl,
      Forest.following?, if_pos rfl, ← first?_map_id_append]
    cases (r ++ rest ks).first?.map Node.id <;> rfl
  rw [Tree.following?, around, followingWithin?, if_neg hne, hf]
  rfl

theorem following?_root : (around ks f loose next marked).following? root = none := by
  rw [Tree.following?, around, followingWithin?, if_pos rfl]
  rfl

/-! ## Making a node -/

theorem create_around {kind : Kind} (hk : kind.isConditional = false) :
    (around ks f loose next marked).create kind =
      around ks f (loose ++ tree ⟨next, kind⟩ nil) (next + 1) marked := by
  unfold create
  rw [hk]
  rfl

/-- Whatever is made is the last of the loose trees. -/
theorem exists_create_around (ks : Context) (f loose : Forest Node) (next : NodeId)
    (marked : Option NodeId) (kind : Kind) : ∃ (d : Forest Node) (next' : NodeId),
    (around ks f loose next marked).create kind =
      around ks f (loose ++ tree ⟨next, kind⟩ d) next' marked := by
  unfold create
  split
  · exact ⟨_, _, rfl⟩
  · exact ⟨_, _, rfl⟩

/-- A conditional is made with two branches below it. -/
def branches (next : NodeId) : Forest Node :=
  cons ⟨next + 1, .branch⟩ nil (tree ⟨next + 2, .branch⟩ nil)

theorem create_conditional (test : String) :
    (around ks f loose next marked).create (.conditional test) =
      around ks f (loose ++ tree ⟨next, .conditional test⟩ (branches next)) (next + 3) marked := rfl

/-! ## Putting a loose tree into the document -/

section Loose

theorem forest_loose (ks : Context) (f loose d after : Forest Node) (x : Node) (next : NodeId)
    (marked : Option NodeId) :
    (around ks f (loose ++ cons x d after) next marked).forest =
      close [] ((around ks f loose next marked).forest ++ cons x d after) := rfl

theorem move_loose {after : Forest Node}
    (ht : (around ks f (loose ++ cons x d after) next marked).forest.ids.Nodup)
    {target : NodeId} (htarget : target ∈ (around ks f loose next marked).forest.ids)
    (place : Forest Node → Forest Node → Forest Node) :
    (around ks f (loose ++ cons x d after) next marked).move x.id target place =
      ⟨place (tree x d) (around ks f (loose ++ after) next marked).forest, next, marked⟩ := by
  have hx := forest_loose ks f loose d after x next marked
  have hout : target ∉ (tree x d).ids := by
    intro hm
    rw [hx, close_nil, ids_append] at ht
    refine (List.nodup_append.1 ht).2.2 target htarget target ?_ rfl
    rw [ids_cons, ← List.cons_append]
    exact List.mem_append_left _ (by simpa using hm)
  have hremove : (around ks f (loose ++ cons x d after) next marked).forest.remove x.id =
      (around ks f (loose ++ after) next marked).forest := by
    rw [remove_at ht hx, close_nil]
    rfl
  unfold move
  rw [subtree?_at ht hx]
  simp only [if_neg hout, hremove]
  rfl

theorem nodup_of_loose {after : Forest Node}
    (ht : (around ks f (loose ++ cons x d after) next marked).forest.ids.Nodup) :
    (around ks f (loose ++ after) next marked).forest.ids.Nodup := by
  have h := nodup_remove ht (subtree?_at ht (forest_loose ks f loose d after x next marked))
  rwa [remove_at ht (forest_loose ks f loose d after x next marked)] at h

theorem append_loose {after : Forest Node}
    (ht : (around ks (l ++ cons b c r) (loose ++ cons x d after) next marked).forest.ids.Nodup) :
    (around ks (l ++ cons b c r) (loose ++ cons x d after) next marked).append b.id x.id =
      around ks (l ++ cons b (c ++ tree x d) r) (loose ++ after) next marked := by
  have hb := around_forest ks (l ++ cons b c r) (loose ++ after) next marked
  unfold append
  rw [find?_at ht (around_forest ..)]
  simp only []
  rw [move_loose ht mem_ids_around, mapChildren_at (nodup_of_loose ht) hb, close_append]
  rfl

end Loose

/-! ## Putting the last loose tree into the document -/

section Last

theorem forest_last (ks : Context) (f loose d : Forest Node) (x : Node) (next : NodeId)
    (marked : Option NodeId) :
    (around ks f (loose ++ tree x d) next marked).forest =
      close [] ((around ks f loose next marked).forest ++ cons x d nil) := rfl

theorem nodup_of_last (ht : (around ks f (loose ++ tree x d) next marked).forest.ids.Nodup) :
    (around ks f loose next marked).forest.ids.Nodup := by
  have h := nodup_of_loose ht
  rwa [Forest.append_nil] at h

theorem move_last (ht : (around ks f (loose ++ tree x d) next marked).forest.ids.Nodup)
    {target : NodeId} (htarget : target ∈ (around ks f loose next marked).forest.ids)
    (place : Forest Node → Forest Node → Forest Node) :
    (around ks f (loose ++ tree x d) next marked).move x.id target place =
      ⟨place (tree x d) (around ks f loose next marked).forest, next, marked⟩ := by
  have h := move_loose ht htarget place
  rwa [Forest.append_nil] at h

variable (ht : (around ks (l ++ cons b c r) (loose ++ tree x d) next marked).forest.ids.Nodup)

include ht

theorem append_last :
    (around ks (l ++ cons b c r) (loose ++ tree x d) next marked).append b.id x.id =
      around ks (l ++ cons b (c ++ tree x d) r) loose next marked := by
  have h := append_loose ht
  rwa [Forest.append_nil] at h

theorem insertBefore_last :
    (around ks (l ++ cons b c r) (loose ++ tree x d) next marked).insertBefore b.id x.id =
      around ks (l ++ (tree x d ++ cons b c r)) loose next marked := by
  have hb := around_forest ks (l ++ cons b c r) loose next marked
  obtain ⟨p, hp⟩ := exists_parent_around ht
  unfold insertBefore
  rw [hp]
  simp only []
  rw [move_last ht mem_ids_around, insertBefore_at (nodup_of_last ht) hb, close_append]
  rfl

theorem insertAfter_last :
    (around ks (l ++ cons b c r) (loose ++ tree x d) next marked).insertAfter b.id x.id =
      around ks (l ++ cons b c (tree x d ++ r)) loose next marked := by
  have hb := around_forest ks (l ++ cons b c r) loose next marked
  obtain ⟨p, hp⟩ := exists_parent_around ht
  unfold insertAfter
  rw [hp]
  simp only []
  rw [move_last ht mem_ids_around, insertAfter_at (nodup_of_last ht) hb, close_append]
  rfl

end Last

theorem prepend_last (ht : (around ks f (loose ++ tree x d) next marked).forest.ids.Nodup) :
    (around ks f (loose ++ tree x d) next marked).prepend root x.id =
      around [] (tree x d ++ close ks f) loose next marked := by
  have hroot := around_root ks f loose next marked
  have hmem : root ∈ (around ks f loose next marked).forest.ids := by
    rw [ids_around]
    exact List.mem_cons_self
  have hfind : (around ks f (loose ++ tree x d) next marked).find? root =
      some (.document, close ks f) := by
    rw [Tree.find?, around, Forest.find?, if_pos rfl]
  unfold prepend
  rw [hfind]
  simp only []
  rw [move_last ht hmem]
  have h := mapChildren_at (nodup_of_last ht) hroot (tree x d ++ ·)
  rw [show (⟨root, .document⟩ : Node).id = root from rfl] at h
  rw [h]
  rfl

/-! ## Taking trees out of the document -/

section Take

variable (ht : (around ks (l ++ cons a c r) loose next marked).forest.ids.Nodup)

include ht

theorem detach_around :
    (around ks (l ++ cons a c r) loose next marked).detach a.id =
      around ks (l ++ r) (loose ++ tree a c) next marked := by
  have ha := around_forest ks (l ++ cons a c r) loose next marked
  obtain ⟨p, hp⟩ := exists_parent_around ht
  unfold detach
  rw [hp, subtree?_at ht ha]
  simp only []
  rw [remove_at ht ha, close_append]
  rfl

theorem clear_around :
    (around ks (l ++ cons a c r) loose next marked).clear a.id =
      around ks (l ++ cons a nil r) (loose ++ c) next marked := by
  have ha := around_forest ks (l ++ cons a c r) loose next marked
  unfold clear
  rw [mapChildren_at ht ha, below_at ht ha, close_append]
  rfl

theorem mapElement_around (g : Element → Element) :
    (around ks (l ++ cons a c r) loose next marked).mapElement a.id g =
      around ks (l ++ cons ⟨a.id, a.kind.mapElement g⟩ c r) loose next marked := by
  have ha := around_forest ks (l ++ cons a c r) loose next marked
  unfold mapElement
  rw [mapKind_at ht ha, close_append]
  rfl

end Take

theorem replace_last
    (ht : (around ks (l ++ cons a c r) (loose ++ tree x d) next marked).Numbered) :
    (around ks (l ++ cons a c r) (loose ++ tree x d) next marked).replace a.id x.id =
      around ks (l ++ (tree x d ++ r)) (loose ++ tree a c) next marked := by
  have hx := forest_last ks (l ++ cons a c r) loose d x next marked
  have hout : a.id ∉ (around ks (l ++ cons a c r) (loose ++ tree x d) next marked).descendants
      x.id := by
    intro hm
    have hnodup := ht.nodup
    rw [descendants_at hnodup hx] at hm
    rw [hx, close_nil, ids_append] at hnodup
    exact (List.nodup_append.1 hnodup).2.2 a.id mem_ids_around a.id (by simpa using hm) rfl
  obtain ⟨p, hp⟩ := exists_parent_around ht.nodup
  have hif : ¬ (a.id ∈ (around ks (l ++ cons a c r) (loose ++ tree x d) next marked).descendants
      x.id ∨ ((around ks (l ++ cons a c r) (loose ++ tree x d) next marked).parent?
        a.id).isNone = true) := by
    rw [hp]
    simpa using hout
  have hnum := (ht.insertBefore a.id x.id).nodup
  unfold replace
  rw [if_neg hif]
  rw [insertBefore_last ht.nodup, ← Forest.append_assoc] at hnum ⊢
  rw [detach_around hnum, Forest.append_assoc]

/-! ## Moving a tree under the one before it -/

/-- A tree is moved to the end of what is below its previous sibling. -/
theorem append_previous
    (ht : (around ks (l ++ cons b c (cons a d r)) loose next marked).forest.ids.Nodup) :
    (around ks (l ++ cons b c (cons a d r)) loose next marked).append b.id a.id =
      around ks (l ++ cons b (c ++ tree a d) r) loose next marked := by
  have hb := around_forest ks (l ++ cons b c (cons a d r)) loose next marked
  have ha : (around ks (l ++ cons b c (cons a d r)) loose next marked).forest =
      close (ks ++ [documentFrame loose]) ((l ++ tree b c) ++ cons a d r) := by
    rw [hb, Forest.append_assoc, tree_append]
  obtain ⟨-, -, -, hrest, -⟩ := apart_of_nodup (hb ▸ ht)
  have hout : b.id ∉ (tree a d).ids := by
    intro hm
    apply hrest
    rw [ids_cons, ← List.cons_append]
    exact List.mem_append_left _ (by simpa using hm)
  have hrem : (around ks (l ++ cons b c (cons a d r)) loose next marked).forest.remove a.id =
      close (ks ++ [documentFrame loose]) (l ++ cons b c r) := by
    rw [remove_at ht ha, Forest.append_assoc, tree_append]
  have hnodup : (close (ks ++ [documentFrame loose]) (l ++ cons b c r)).ids.Nodup := by
    rw [← hrem]
    exact nodup_remove ht (subtree?_at ht ha)
  unfold append move
  rw [find?_at ht hb, subtree?_at ht ha]
  simp only [if_neg hout, hrem]
  rw [mapChildren_at hnodup rfl, close_append]
  rfl

theorem append_previous_child {kl kc kr : Forest Node} {k : Node}
    (ht : (around ks (l ++ cons b (kl ++ cons k kc kr) (cons a d r)) loose next
      marked).forest.ids.Nodup) :
    (around ks (l ++ cons b (kl ++ cons k kc kr) (cons a d r)) loose next marked).append k.id a.id =
      around ks (l ++ cons b (kl ++ cons k (kc ++ tree a d) kr) r) loose next marked := by
  have hk : (around ks (l ++ cons b (kl ++ cons k kc kr) (cons a d r)) loose next marked).forest =
      close (⟨l, b, cons a d r⟩ :: (ks ++ [documentFrame loose])) (kl ++ cons k kc kr) :=
    around_forest ..
  have ha : (around ks (l ++ cons b (kl ++ cons k kc kr) (cons a d r)) loose next marked).forest =
      close (ks ++ [documentFrame loose]) ((l ++ tree b (kl ++ cons k kc kr)) ++ cons a d r) := by
    rw [around_forest, Forest.append_assoc, tree_append]
  obtain ⟨-, -, -, -, hrest⟩ := apart_of_nodup (hk ▸ ht)
  have hout : k.id ∉ (tree a d).ids := by
    intro hm
    apply hrest
    rw [rest_cons, ids_append, ids_cons, ← List.cons_append, List.append_assoc]
    exact List.mem_append_left _ (by simpa using hm)
  have hrem : (around ks (l ++ cons b (kl ++ cons k kc kr) (cons a d r)) loose next
      marked).forest.remove a.id =
        close (⟨l, b, r⟩ :: (ks ++ [documentFrame loose])) (kl ++ cons k kc kr) := by
    rw [remove_at ht ha, Forest.append_assoc, tree_append]
    rfl
  have hnodup : (close (⟨l, b, r⟩ :: (ks ++ [documentFrame loose])) (kl ++ cons k kc kr)).ids.Nodup := by
    rw [← hrem]
    exact nodup_remove ht (subtree?_at ht ha)
  unfold append move
  rw [find?_at ht hk, subtree?_at ht ha]
  simp only [if_neg hout, hrem]
  rw [mapChildren_at hnodup rfl, close_cons, close_append]
  rfl

end Tree

end HtmlTemplate
