import HtmlTemplate.Proofs.Directive.Settled
import HtmlTemplate.Proofs.Forest.Thin

/-! # Handlers that take nodes out

A pass whose handlers only take nodes out of the document misses an element only after a visit that
lost its way: the element that was visited is gone, and so is the parent it had, or its next sibling is
gone while a later one is not (`LosesWay`). Every other visit goes on at the first node that is left of
those that were ahead (`swept_step`).
-/

namespace HtmlTemplate

open Forest Context HtmlTemplate.Tree

/-- The siblings after a node. -/
def Tree.succeeding (t : Tree) (n : NodeId) : List NodeId :=
  ((t.siblings n).dropWhile (· ≠ n)).tail

namespace Tree

variable {t : Tree} {ks : Context} {f l c r loose : Forest Node} {a : Node} {next n : NodeId}
  {marked : Option NodeId}

theorem succeeding_at (ht : t.forest.ids.Nodup) (h : t.forest = close ks (l ++ cons a c r))
    (hks : ks ≠ []) : t.succeeding a.id = r.rootIds := by
  obtain ⟨-, hl, -, -, -⟩ := apart_of_nodup (h ▸ ht)
  have hne : ∀ m ∈ l.rootIds, decide (m ≠ a.id) = true := by
    intro m hm
    have : m ≠ a.id := fun e => hl (mem_ids_of_mem_rootIds (e ▸ hm))
    simpa using this
  rw [succeeding, siblings_at ht h hks, List.dropWhile_append_of_pos hne]
  simp

end Tree

/-! ## Taking nodes out -/

/-- A step takes some node out, or an attribute off node `n`. -/
inductive Step.Culls (n : NodeId) : Step → Prop
  | detach (m : NodeId) : Culls n (.edit (.detach m))
  | erase (attr : String) : Culls n (.element n (·.erase attr))

theorem Step.Culls.keeps {n : NodeId} {s : Step} (h : s.Culls n) : s.Keeps [] n (· = .branch) := by
  cases h with
  | detach m => exact trivial
  | erase attr => exact ⟨rfl, fun e name hname => Or.inl (Element.has_erase.1 hname).1⟩

namespace Tree

variable {f loose : Forest Node} {next n : NodeId} {marked : Option NodeId}

theorem exists_thin_step (ht : (around [] f loose next marked).Numbered) {s : Step} (hs : s.Culls n) :
    ∃ f' loose' : Forest Node, Thin f f' ∧
      s.apply (around [] f loose next marked) = around [] f' loose' next marked := by
  cases hs with
  | detach m =>
    have hroot : (around [] f loose next marked).parent? root = none :=
      parent?_at ht.nodup (around_root ..)
    show ∃ f' loose', Thin f f' ∧ (around [] f loose next marked).detach m = _
    unfold detach
    split
    · rename_i p s hp _
      have hne : root ≠ m := by
        rintro rfl
        rw [hroot] at hp
        cases hp
      refine ⟨f.remove m, loose.remove m ++ s, Thin.remove m f, ?_⟩
      rw [around, Forest.remove, if_neg hne]
      rfl
    · exact ⟨f, loose, Thin.refl f, rfl⟩
  | erase attr =>
    by_cases hn : root = n
    · refine ⟨f, loose, Thin.refl f, ?_⟩
      rw [Step.apply, mapElement, around, Forest.mapKind, if_pos hn]
      rfl
    · let g := Kind.mapElement (·.erase attr)
      refine ⟨f.mapKind n g, loose.mapKind n g, Thin.mapKind n g f, ?_⟩
      rw [Step.apply, mapElement, around, Forest.mapKind, if_neg hn]
      rfl

theorem exists_thin_follow (ht : (around [] f loose next marked).Numbered) {steps : List Step}
    (hsteps : ∀ s ∈ steps, s.Culls n) :
    ∃ f' loose' : Forest Node, Thin f f' ∧
      (around [] f loose next marked).follow steps = around [] f' loose' next marked := by
  induction steps generalizing f loose with
  | nil => exact ⟨f, loose, Thin.refl f, rfl⟩
  | cons s steps ih =>
    rw [List.forall_mem_cons] at hsteps
    obtain ⟨f₁, loose₁, hthin₁, heq₁⟩ := exists_thin_step ht hsteps.1
    have hnum := ht.step s
    rw [heq₁] at hnum
    obtain ⟨f₂, loose₂, hthin₂, heq₂⟩ := ih hnum hsteps.2
    refine ⟨f₂, loose₂, hthin₁.trans hthin₂, ?_⟩
    rw [follow_cons, heq₁, heq₂]

end Tree

/-- Whatever it is run on, the handler takes nodes out of their places and does nothing else. -/
def Directive.Detaches (x : Directive) : Prop :=
  ∀ (s : Site) (t : Tree), ∃ nodes : List NodeId, (x.run s t).tree = t.edit (nodes.map .detach)

theorem Directive.Detaches.exists_follow {x : Directive} (hx : x.Detaches) (n : NodeId) (s : Site)
    (t : Tree) : ∃ steps, (∀ step ∈ steps, step.Culls n) ∧ (x.run s t).tree = t.follow steps := by
  obtain ⟨nodes, heq⟩ := hx s t
  refine ⟨nodes.map fun m => .edit (.detach m), List.forall_mem_map.2 fun m _ => .detach m, ?_⟩
  rw [heq, edit, follow, List.foldl_map, List.foldl_map]
  rfl

namespace Registry

variable {r : Registry} {d : Dialect} {n : NodeId} {t : Tree} {ds : List (String × Directive)}

theorem exists_follow_runAt (hds : ∀ x ∈ ds, x.2.Detaches) (t : Tree)
    (herror : (runAt d n ds t).error = none) :
    ∃ steps, (∀ step ∈ steps, step.Culls n) ∧ (runAt d n ds t).tree = t.follow steps := by
  induction ds generalizing t with
  | nil => exact ⟨[], List.forall_mem_nil _, rfl⟩
  | cons x ds ih =>
    obtain ⟨attr, x⟩ := x
    rw [List.forall_mem_cons] at hds
    cases hatt : t.isAttached n with
    | false =>
      rw [runAt_gone hatt]
      exact ⟨[], List.forall_mem_nil _, rfl⟩
    | true =>
      obtain ⟨-, hrest, htree⟩ := runAt_cons hatt herror
      obtain ⟨steps, hsteps, heq⟩ := hds.1.exists_follow n
        ⟨d, n, parameter? (t.attribute? n attr)⟩ (t.eraseAttribute n attr)
      obtain ⟨more, hmore, hend⟩ := ih hds.2 _ hrest
      refine ⟨.element n (·.erase attr) :: (steps ++ more), ?_, ?_⟩
      · exact List.forall_mem_cons.2 ⟨.erase attr, List.forall_mem_append.2 ⟨hsteps, hmore⟩⟩
      · rw [htree, hend, heq, follow_cons, follow_append]
        rfl

theorem spares_culls (ht : t.Numbered) {steps : List Step} (hsteps : ∀ s ∈ steps, s.Culls n)
    (m : NodeId) : r.Spares m t (t.follow steps) := by
  have hkeeps : ∀ s ∈ steps, s.Keeps [] n (· = .branch) := fun s hs => (hsteps s hs).keeps
  refine spares_follow (List.forall_mem_nil _) ?_ ?_ ht hkeeps m
  · rintro k rfl
    rfl
  · rfl

/-! ## Where a visit goes on -/

/-- A visit from `t` to `t'` goes on at the wrong place: the node that was visited is gone, and so is
its parent, or its next sibling is while a later one is not. -/
def LosesWay (n : NodeId) (t t' : Tree) : Prop :=
  t'.isAttached n = false ∧
    ((∃ p, t.parent? n = some p ∧ t'.isAttached p = false) ∨
      ∃ m, t.nextSibling? n = some m ∧ t'.isAttached m = false ∧
        ∃ later ∈ t.succeeding n, t'.isAttached later = true)

/-- A pass comes to a node, with this tree. -/
inductive Comes (r : Registry) (d : Dialect) : Option NodeId → Tree → NodeId → Tree → Prop
  | here (n : NodeId) (t : Tree) : Comes r d (some n) t n t
  | later {n m : NodeId} {t t' : Tree} (h : (runAt d n (r.orderedAt t n) t).error = none)
      (hrest : Comes r d (resume t (runAt d n (r.orderedAt t n) t).tree n)
        (runAt d n (r.orderedAt t n) t).tree m t') :
      Comes r d (some n) t m t'

/-- A walk has the trees `ahead` before it, and no directives behind it. -/
def Swept (r : Registry) (ahead : Forest Node) (t : Tree) : Prop :=
  ∃ (ks : Context) (l f loose : Forest Node) (next : NodeId) (marked : Option NodeId),
    t = around ks (l ++ f) loose next marked ∧ t.Numbered ∧ f ++ rest ks = ahead ∧
      ∀ m ∈ leading ks ++ l.ids, r.Carries m [] t

section Step

variable {ks : Context} {l c g f' loose loose' : Forest Node} {a : Node} {next : NodeId}
  {marked : Option NodeId}
  (hnum : (around ks (l ++ cons a c g) loose next marked).Numbered)
  (hnum' : (around [] f' loose' next marked).Numbered)
  (hthin : Thin (close ks (l ++ cons a c g)) f')
  (hquiet : ∀ m ∈ leading ks ++ l.ids, r.Carries m [] (around [] f' loose' next marked))

include hnum hnum' hthin hquiet

/-- The walk goes on below a node that is still there. -/
theorem swept_below (hatt : (around [] f' loose' next marked).isAttached a.id = true)
    (hown : r.Carries a.id [] (around [] f' loose' next marked)) (before : Tree) :
    ∃ ahead, resume before (around [] f' loose' next marked) a.id = ahead.front? ∧
      r.Swept ahead (around [] f' loose' next marked) := by
  have hroot : a.id ≠ root := ne_root_of_mem hnum.nodup (by simp [ids_close])
  have ha : a.id ∈ f'.ids := mem_of_isAttached hnum'.nodup hroot hatt
  obtain ⟨ks', l', b, c', g', rfl, hid, hlead, hl, -, -⟩ :=
    hthin.exists_place ha (nodup_content hnum.nodup)
  refine ⟨c' ++ (g' ++ rest ks'), ?_, ⟨l', b, g'⟩ :: ks', nil, c', loose', next, marked, rfl, hnum',
    rfl, fun m hm => ?_⟩
  · rw [← hid]
    exact resume_attached hnum'
  · have hbefore := hl.ids_subset
    rw [leading_cons, hid, ids_nil, List.append_nil] at hm
    grind

section Gone

variable (hgone : (around [] f' loose' next marked).isAttached a.id = false)

include hgone

/-- The walk goes on with the next sibling of a node that is gone, if that is still there. -/
theorem swept_beside {b : Node} {e more : Forest Node} (hg : g = cons b e more)
    (hatt : (around [] f' loose' next marked).isAttached b.id = true) :
    ∃ ahead, resume (around ks (l ++ cons a c g) loose next marked)
        (around [] f' loose' next marked) a.id = ahead.front? ∧
      r.Swept ahead (around [] f' loose' next marked) := by
  subst hg
  have hsplit : l ++ cons a c (cons b e more) = (l ++ tree a c) ++ cons b e more := by
    rw [Forest.append_assoc, tree_append]
  have hnext : (around ks (l ++ cons a c (cons b e more)) loose next marked).nextSibling? a.id =
      some b.id := nextSibling?_at hnum.nodup (around_forest ..) (documentFrame_ne_nil ks loose)
  have hroot : b.id ≠ root := ne_root_of_mem hnum.nodup (by simp [ids_close])
  have hb : b.id ∈ f'.ids := mem_of_isAttached hnum'.nodup hroot hatt
  have hnodup := nodup_content hnum.nodup
  rw [hsplit] at hthin hnodup
  obtain ⟨ks', l', b', e', more', rfl, hid, hlead, hl, -, -⟩ := hthin.exists_place hb hnodup
  refine ⟨cons b' e' (more' ++ rest ks'), ?_, ks', l', cons b' e' more', loose', next, marked, rfl,
    hnum', rfl, fun m hm => ?_⟩
  · rw [resume, hgone, if_neg Bool.false_ne_true, hnext, Option.filter_some, if_pos hatt, ← hid]
    rfl
  · have hbefore : Thin l l' := by
      refine hl.of_append fun n hn hleft => ?_
      have hin := isAttached_of_mem hnum'.nodup (n := n) (by simp [ids_close, hleft])
      rw [rootIds_tree, List.mem_singleton] at hn
      rw [hn, hgone] at hin
      cases hin
    have hsubset := hbefore.ids_subset
    grind

/-- The walk goes on behind the parent of a node that is gone with all its later siblings. -/
theorem swept_behind (hg : ∀ m ∈ g.rootIds, (around [] f' loose' next marked).isAttached m = false)
    (hp : ∀ p, (around ks (l ++ cons a c g) loose next marked).parent? a.id = some p →
      (around [] f' loose' next marked).isAttached p = true) :
    ∃ ahead, resume (around ks (l ++ cons a c g) loose next marked)
        (around [] f' loose' next marked) a.id = ahead.front? ∧
      r.Swept ahead (around [] f' loose' next marked) := by
  have hnext : (around ks (l ++ cons a c g) loose next marked).nextSibling? a.id = g.rootIds.head? :=
    nextSibling?_at hnum.nodup (around_forest ..) (documentFrame_ne_nil ks loose)
  have hparent := parent?_at hnum.nodup (around_forest ks (l ++ cons a c g) loose next marked)
  have hskip : g.rootIds.head?.filter (around [] f' loose' next marked).isAttached = none := by
    rw [Option.filter_eq_none_iff]
    intro m hm
    rw [hg m (List.mem_of_head? hm)]
    exact Bool.false_ne_true
  have hlost : ∀ {x : Forest Node}, x.ids ⊆ f'.ids → ∀ m ∈ (cons a c g).rootIds, m ∉ x.ids := by
    intro x hx m hm hleft
    have hin : (around [] f' loose' next marked).isAttached m = true :=
      isAttached_of_mem hnum'.nodup (hx hleft)
    rw [rootIds_cons, List.mem_cons] at hm
    rcases hm with rfl | hm
    · rw [hgone] at hin
      cases hin
    · rw [hg m hm] at hin
      cases hin
  rw [resume, hgone, if_neg Bool.false_ne_true, hnext, hskip, hparent]
  cases ks with
  | nil =>
    have hbefore : Thin l f' := Thin.of_append hthin (hlost (List.Subset.refl _))
    refine ⟨nil, ?_, [], f', nil, loose', next, marked, ?_, hnum', rfl, fun m hm => ?_⟩
    · show (around [] f' loose' next marked).following? root = none
      exact following?_root
    · rw [Forest.append_nil]
    · exact hquiet m (hbefore.ids_subset hm)
  | cons k ks =>
    have hroot : k.node.id ≠ root := ne_root_of_mem hnum.nodup (by simp [ids_close])
    have hnodup : (close ks (k.before ++ cons k.node (l ++ cons a c g) k.after)).ids.Nodup :=
      nodup_content hnum.nodup
    have hthin : Thin (close ks (k.before ++ cons k.node (l ++ cons a c g) k.after)) f' := hthin
    have hk : k.node.id ∈ f'.ids := mem_of_isAttached hnum'.nodup hroot (hp _ hparent)
    obtain ⟨ks', l', b, x, g', rfl, hid, hlead, hl, hx, -⟩ :=
      hthin.exists_place hk hnodup
    have hbefore : Thin l x := by
      refine hx.of_append (hlost fun m hm => ?_)
      simp [ids_close, hm]
    refine ⟨g' ++ rest ks', ?_, ks', l' ++ tree b x, g', loose', next, marked, ?_, hnum', rfl, fun m hm => ?_⟩
    · show (around ks' (l' ++ cons b x g') loose' next marked).following? k.node.id = _
      rw [← hid]
      exact following?_around hnum'.nodup
    · rw [around, close_nil, Forest.append_assoc, tree_append]
      rfl
    · have hsubset := hbefore.ids_subset
      have hsubset' := hl.ids_subset
      rw [ids_append, ids_tree, hid] at hm
      rw [leading_cons] at hquiet
      grind

end Gone

/-- A visit that does not lose its way goes on at the first node that is left. -/
theorem swept_step (hown : (around [] f' loose' next marked).isAttached a.id = true →
      r.Carries a.id [] (around [] f' loose' next marked))
    (hway : ¬ LosesWay a.id (around ks (l ++ cons a c g) loose next marked)
      (around [] f' loose' next marked)) :
    ∃ ahead, resume (around ks (l ++ cons a c g) loose next marked)
        (around [] f' loose' next marked) a.id = ahead.front? ∧
      r.Swept ahead (around [] f' loose' next marked) := by
  cases hatt : (around [] f' loose' next marked).isAttached a.id with
  | true => exact swept_below hnum hnum' hthin hquiet hatt (hown hatt) _
  | false =>
    have hplace := around_forest ks (l ++ cons a c g) loose next marked
    have hks := documentFrame_ne_nil ks loose
    rw [LosesWay, nextSibling?_at hnum.nodup hplace hks, succeeding_at hnum.nodup hplace hks, not_and,
      not_or] at hway
    obtain ⟨hparent, hlater⟩ := hway hatt
    have hp : ∀ p, (around ks (l ++ cons a c g) loose next marked).parent? a.id = some p →
        (around [] f' loose' next marked).isAttached p = true := by
      intro p hp
      refine Bool.not_eq_false _ ▸ fun hgone => hparent ⟨p, hp, hgone⟩
    cases hg : g with
    | nil =>
      subst hg
      exact swept_behind hnum hnum' hthin hquiet hatt (List.forall_mem_nil _) hp
    | cons b e more =>
      rw [← hg]
      cases hb : (around [] f' loose' next marked).isAttached b.id with
      | true => exact swept_beside hnum hnum' hthin hquiet hatt hg hb
      | false =>
        refine swept_behind hnum hnum' hthin hquiet hatt (fun m hm => ?_) hp
        refine Bool.eq_false_iff.2 fun hin => hlater ⟨b.id, ?_, hb, m, hm, hin⟩
        rw [hg]
        rfl

end Step

theorem Swept.exists_place {a : Node} {c g : Forest Node} (h : r.Swept (cons a c g) t) :
    ∃ (ks : Context) (l f loose : Forest Node) (next : NodeId) (marked : Option NodeId),
      t = around ks (l ++ cons a c f) loose next marked ∧ t.Numbered ∧
        ∀ m ∈ leading ks ++ l.ids, r.Carries m [] t := by
  obtain ⟨ks, l, f, loose, next, marked, ht, hnum, hahead, hquiet⟩ := h
  obtain ⟨ks', l', f', hclose, -, hlead, -⟩ := exists_first (l := l) hahead
  refine ⟨ks', l', f', loose, next, marked, ?_, hnum, hlead ▸ hquiet⟩
  rw [ht, around, hclose]
  rfl

/-- One visit: it goes on at the first node ahead, or loses its way. -/
theorem Swept.visit_first (hr : ∀ x ∈ r.directives, x.Detaches) {a : Node} {c g : Forest Node}
    (h : r.Swept (cons a c g) t) (herror : (runAt d a.id (r.orderedAt t a.id) t).error = none)
    (hway : ¬ LosesWay a.id t (runAt d a.id (r.orderedAt t a.id) t).tree) :
    ∃ ahead, resume t (runAt d a.id (r.orderedAt t a.id) t).tree a.id = ahead.front? ∧
      r.Swept ahead (runAt d a.id (r.orderedAt t a.id) t).tree := by
  have hds : ∀ x ∈ r.orderedAt t a.id, x.2.Detaches := fun x hx => hr _ (mem_orderedAt r t a.id x hx)
  obtain ⟨ks, l, f, loose, next, marked, ht, hnum, hquiet⟩ := h.exists_place
  obtain ⟨steps, hsteps, hfollow⟩ := exists_follow_runAt hds t herror
  have hown : (runAt d a.id (r.orderedAt t a.id) t).tree.isAttached a.id = true →
      r.Carries a.id [] (runAt d a.id (r.orderedAt t a.id) t).tree := by
    refine carries_runAt hnum (r.carries_orderedAt t a.id) (fun x hx s t' hs ht' => ?_) herror
    obtain ⟨steps, hsteps, heq⟩ := (hds x hx).exists_follow a.id s t'
    rw [heq]
    exact ⟨ht'.follow steps, spares_culls ht' hsteps a.id⟩
  have hquiet' : ∀ m ∈ leading ks ++ l.ids, r.Carries m [] (t.follow steps) :=
    fun m hm => (hquiet m hm).spared (spares_culls hnum hsteps m)
  have hnum' := hnum.follow steps
  rw [hfollow] at hown hway ⊢
  obtain ⟨f', loose', hthin, heq⟩ : ∃ f' loose', Thin (close ks (l ++ cons a c f)) f' ∧
      t.follow steps = around [] f' loose' next marked := by
    rw [ht] at hnum ⊢
    exact exists_thin_follow (f := close ks (l ++ cons a c f)) hnum hsteps
  rw [heq] at hown hway hquiet' hnum' ⊢
  rw [ht] at hway hnum ⊢
  exact swept_step hnum hnum' hthin hquiet' hown hway

/-- A pass sweeps the document, or a visit on its way loses it. -/
theorem swept_visit (hr : ∀ x ∈ r.directives, x.Detaches) {ahead : Forest Node} (h : r.Swept ahead t)
    {visits : Nat} (herror : (r.visit d visits ahead.front? t).error = none) :
    r.Swept nil (r.visit d visits ahead.front? t).tree ∨
      ∃ m t', r.Comes d ahead.front? t m t' ∧
        LosesWay m t' (runAt d m (r.orderedAt t' m) t').tree := by
  induction visits generalizing ahead t with
  | zero =>
    cases ahead with
    | nil => exact Or.inl h
    | cons a c g => cases herror
  | succ visits ih =>
    cases ahead with
    | nil => exact Or.inl h
    | cons a c g =>
      have hfront : (cons a c g).front? = some a.id := rfl
      rw [hfront, Registry.visit] at herror ⊢
      by_cases hway : LosesWay a.id t (runAt d a.id (r.orderedAt t a.id) t).tree
      · exact Or.inr ⟨a.id, t, .here a.id t, hway⟩
      · cases hhere : (runAt d a.id (r.orderedAt t a.id) t).error with
        | some e =>
          simp only [hhere] at herror
          cases herror
        | none =>
          simp only [hhere] at herror ⊢
          obtain ⟨ahead, hresume, hswept⟩ := h.visit_first hr hhere hway
          rw [hresume] at herror ⊢
          refine (ih hswept herror).imp_right ?_
          rintro ⟨m, t', hcomes, hlost⟩
          exact ⟨m, t', .later hhere (hresume ▸ hcomes), hlost⟩

theorem Swept.carried_eq_nil (h : r.Swept nil t) (hn : n ∈ t.descendants root) {e : Element}
    (he : t.element? n = some e) : r.carried e = [] := by
  obtain ⟨ks, l, f, loose, next, marked, rfl, hnum, hahead, hquiet⟩ := h
  obtain ⟨rfl, hrest⟩ := append_eq_nil hahead
  rw [descendants_root, List.mem_cons] at hn
  rcases hn with rfl | hn
  · have hkind := kind?_at hnum.nodup (around_root ks (l ++ nil) loose next marked)
    rw [element?, hkind] at he
    cases he
  · rw [ids_close, hrest, Forest.append_nil, ids_nil, List.append_nil] at hn
    exact carried_eq_nil_iff.2 fun attr hattr =>
      (hquiet n hn e he attr hattr).resolve_left List.not_mem_nil

theorem run_detaching_ofContent {f : Forest Kind} (hf : f.IsMarkup) (hr : ∀ x ∈ r.directives, x.Detaches)
    (herror : (r.run d (ofContent f)).error = none) :
    (∀ n ∈ (r.run d (ofContent f)).tree.descendants root,
        ∀ e, (r.run d (ofContent f)).tree.element? n = some e →
        ∀ name ∈ r.names, e.has (r.lead ++ name) = false) ∨
      ∃ n t, r.Comes d ((ofContent f).firstChild? root) (ofContent f) n t ∧
        LosesWay n t (runAt d n (r.orderedAt t n) t).tree := by
  have hstart : r.Swept (f.numberFrom 1).1 (ofContent f) :=
    ⟨[], nil, (f.numberFrom 1).1, nil, (f.numberFrom 1).2, none, rfl, (shaped_ofContent hf).numbered,
      Forest.append_nil _, fun m hm => absurd hm List.not_mem_nil⟩
  have hcursor : (ofContent f).firstChild? root = (f.numberFrom 1).1.front? := rfl
  unfold run at herror ⊢
  rw [hcursor] at herror ⊢
  generalize r.visitLimit (ofContent f) = visits at herror ⊢
  refine (swept_visit hr hstart herror).imp_left fun hswept n hn e he name hname => ?_
  exact has_eq_false_of_carried (hswept.carried_eq_nil hn he) hname

/-- A pass whose handlers only take nodes out leaves no directive on any element of the document,
unless one of its visits loses its way. -/
theorem run_detaching (lead source : String) (d : Dialect) (r : Registry)
    (hr : ∀ x ∈ r.directives, x.Detaches) :
    let t := Markup.parse lead d source
    let out := r.run d t
    out.error = none →
      (∀ n ∈ out.tree.descendants root, ∀ e, out.tree.element? n = some e →
        ∀ name ∈ r.names, e.has (r.lead ++ name) = false) ∨
      ∃ n t', r.Comes d (t.firstChild? root) t n t' ∧
        LosesWay n t' (runAt d n (r.orderedAt t' n) t').tree :=
  run_detaching_ofContent (Markup.isMarkup_content lead d source) hr

/-- One directive takes its element out together with the next sibling, the other does nothing. -/
def pairwise : Registry :=
  ⟨"j:", [⟨"d", 1, fun s t => ⟨t.edit (((t.nextSibling? s.node).toList ++ [s.node]).map .detach), none⟩⟩,
    ⟨"m", 2, fun _ t => ⟨t, none⟩⟩]⟩

theorem detaches_pairwise : ∀ x ∈ pairwise.directives, x.Detaches :=
  List.forall_mem_cons.2 ⟨fun _ _ => ⟨_, rfl⟩, List.forall_mem_singleton.2 fun _ _ => ⟨[], rfl⟩⟩

theorem run_pairwise : pairwise.run .php (Markup.parse "j:" .php "<br j:d><br><br j:m>") =
    ⟨⟨.cons ⟨0, .document⟩ (.tree ⟨3, .element ⟨"br", [("j:m", .text "")]⟩⟩ .nil)
        (.cons ⟨2, .element ⟨"br", []⟩⟩ .nil (.tree ⟨1, .element ⟨"br", []⟩⟩ .nil)), 4, none⟩,
      [⟨1, "d", none⟩], none⟩ := by
  decide +kernel

/-- The first of three elements goes with the second, and the third is never visited. -/
theorem run_misses_third :
    let out := pairwise.run .php (Markup.parse "j:" .php "<br j:d><br><br j:m>")
    (∀ x ∈ pairwise.directives, x.Detaches) ∧ out.error = none ∧ 3 ∈ out.tree.descendants root ∧
      "m" ∈ pairwise.names ∧ ∃ e, out.tree.element? 3 = some e ∧ e.has (pairwise.lead ++ "m") = true := by
  refine ⟨detaches_pairwise, ?_⟩
  rw [run_pairwise]
  exact ⟨rfl, by decide, by decide, _, rfl, by decide⟩

theorem run_detaching_third :
    let t := Markup.parse "j:" .php "<br j:d><br><br j:m>"
    (∀ x ∈ pairwise.directives, x.Detaches) ∧ (pairwise.run .php t).error = none ∧
      ∃ n t', pairwise.Comes .php (t.firstChild? root) t n t' ∧
        LosesWay n t' (runAt .php n (pairwise.orderedAt t' n) t').tree := by
  have herror := congrArg Run.error run_pairwise
  refine ⟨detaches_pairwise, herror, ?_⟩
  refine (run_detaching "j:" "<br j:d><br><br j:m>" .php pairwise detaches_pairwise
    herror).resolve_left fun hnone => ?_
  rw [run_pairwise] at hnone
  have hthird := hnone 3 (by decide) _ rfl "m" (by decide)
  revert hthird
  decide

end Registry

end HtmlTemplate
