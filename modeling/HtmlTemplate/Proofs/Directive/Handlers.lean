import HtmlTemplate.Directive.Branching
import HtmlTemplate.Directive.Content
import HtmlTemplate.Proofs.Tree.Document

/-! # What the handlers do to a document

Each handler edits the document around its element. Here the element stands at a place `ks` of the
document, between the trees `l` and `r` and above `c`; the equations say what stands there after the
handler ran.
-/

namespace HtmlTemplate.Handler

open Forest Context HtmlTemplate.Tree

variable {ks : Context} {l m c d r loose : Forest Node} {a u : Node} {next : NodeId}
  {marked : Option NodeId} {s : Site} {kind : Kind}

/-! ## New nodes -/

section New

variable (hs : s.node = a.id) (hk : kind.isConditional = false)
  (ht : (around ks (l ++ cons a c r) loose next marked).Numbered)

include hs hk ht

theorem putBefore_around :
    putBefore s kind (around ks (l ++ cons a c r) loose next marked) =
      around ks (l ++ (tree ⟨next, kind⟩ nil ++ cons a c r)) loose (next + 1) marked := by
  have hnum := ht.create kind
  unfold putBefore
  rw [create_around hk] at hnum ⊢
  rw [hs]
  exact insertBefore_last hnum.nodup

theorem putAfter_around :
    putAfter s kind (around ks (l ++ cons a c r) loose next marked) =
      around ks (l ++ cons a c (tree ⟨next, kind⟩ nil ++ r)) loose (next + 1) marked := by
  have hnum := ht.create kind
  unfold putAfter
  rw [create_around hk] at hnum ⊢
  rw [hs]
  exact insertAfter_last hnum.nodup

theorem putInstead_around :
    putInstead s kind (around ks (l ++ cons a c r) loose next marked) =
      around ks (l ++ (tree ⟨next, kind⟩ nil ++ r)) (loose ++ tree a c) (next + 1) marked := by
  have hnum := ht.create kind
  unfold putInstead
  rw [create_around hk] at hnum ⊢
  rw [hs]
  exact replace_last hnum

theorem putBelow_around :
    putBelow s kind (around ks (l ++ cons a c r) loose next marked) =
      around ks (l ++ cons a (tree ⟨next, kind⟩ nil) r) (loose ++ c) (next + 1) marked := by
  have hnum := ht.create kind
  have hclear := hnum.clear a.id
  unfold putBelow
  rw [hs]
  rw [create_around hk] at hnum hclear ⊢
  rw [clear_around hnum.nodup, Forest.append_assoc, tree_append] at hclear ⊢
  exact append_loose hclear.nodup

/-- Two new nodes are put around the element. -/
theorem putAround_around {kind' : Kind} (hk' : kind'.isConditional = false) :
    putAfter s kind' (putBefore s kind (around ks (l ++ cons a c r) loose next marked)) =
      around ks (l ++ (tree ⟨next, kind⟩ nil ++ cons a c (tree ⟨next + 1, kind'⟩ nil ++ r))) loose
        (next + 2) marked := by
  have hnum : (putBefore s kind (around ks (l ++ cons a c r) loose next marked)).Numbered :=
    (ht.create kind).insertBefore s.node next
  have hbefore := putBefore_around hs hk ht
  rw [← Forest.append_assoc] at hbefore ⊢
  rw [hbefore] at hnum ⊢
  exact putAfter_around hs hk' hnum

end New

theorem declareImport_around {v : AttrValue} (hv : s.parameter = some v) {f : Forest Node}
    (ht : (around ks f loose next marked).Numbered) :
    declareImport s (around ks f loose next marked) =
      around [] (tree ⟨next, .code (Fragment.eager (call s .importResource))⟩ nil ++ close ks f) loose
        (next + 1) marked := by
  have hnum := ht.create (.code (Fragment.eager (call s .importResource)))
  unfold declareImport
  rw [hv]
  simp only []
  rw [create_around rfl] at hnum ⊢
  exact prepend_last hnum.nodup

/-! ## Loops and conditions around the element -/

section Wrap

variable (hs : s.node = a.id) (ht : (around ks (l ++ cons a c r) loose next marked).Numbered)

include hs ht

theorem loop_some {v : AttrValue} (hv : s.parameter = some v) :
    loop s (around ks (l ++ cons a c r) loose next marked) =
      { tree := around ks (l ++ cons ⟨next, .loop s.code⟩ (tree a c) r) loose (next + 1) marked } := by
  have hnum := ht.create (.loop s.code)
  have hnum' := hnum.replace a.id next
  unfold loop
  rw [hv, hs]
  simp only []
  rw [create_around rfl] at hnum hnum' ⊢
  have hrep := replace_last hnum
  rw [show (⟨next, .loop s.code⟩ : Node).id = next from rfl, tree_append] at hrep
  rw [hrep] at hnum'
  rw [show (around ks (l ++ cons a c r) loose next marked).next = next from rfl, hrep,
    append_last hnum'.nodup]
  rfl

omit hs ht in
theorem thenBranch?_branches {n : NodeId} {test : String}
    (ht : (around ks (l ++ cons ⟨n, .conditional test⟩ (branches n) r) loose next
      marked).forest.ids.Nodup) :
    (around ks (l ++ cons ⟨n, .conditional test⟩ (branches n) r) loose next marked).thenBranch? n =
      some (n + 1) := by
  have hf := around_forest ks (l ++ cons ⟨n, .conditional test⟩ (branches n) r) loose next marked
  unfold thenBranch? isConditional firstChild?
  rw [show n = (⟨n, .conditional test⟩ : Node).id from rfl, kind?_at ht hf, below_at ht hf]
  rfl

theorem condition_some {v : AttrValue} (hv : s.parameter = some v) :
    condition s (around ks (l ++ cons a c r) loose next marked) =
      { tree := around ks (l ++ cons ⟨next, .conditional s.code⟩
          (cons ⟨next + 1, .branch⟩ (tree a c) (tree ⟨next + 2, .branch⟩ nil)) r)
          loose (next + 3) marked } := by
  have hnum := ht.create (.conditional s.code)
  have hnum' := hnum.replace a.id next
  rw [create_conditional] at hnum hnum'
  have hrep := replace_last hnum
  rw [show (⟨next, .conditional s.code⟩ : Node).id = next from rfl, tree_append] at hrep
  rw [hrep] at hnum'
  have happ : (around ks (l ++ cons ⟨next, .conditional s.code⟩ (branches next) r)
      (loose ++ tree a c) (next + 3) marked).append (next + 1) a.id =
        around ks (l ++ cons ⟨next, .conditional s.code⟩
          (cons ⟨next + 1, .branch⟩ (tree a c) (tree ⟨next + 2, .branch⟩ nil)) r)
          loose (next + 3) marked := by
    have hin : (around (⟨l, ⟨next, .conditional s.code⟩, r⟩ :: ks)
        (nil ++ cons ⟨next + 1, .branch⟩ nil (tree ⟨next + 2, .branch⟩ nil)) (loose ++ tree a c)
        (next + 3) marked).forest.ids.Nodup := hnum'.nodup
    exact append_last hin
  unfold condition
  rw [hv, hs]
  simp only []
  rw [show (around ks (l ++ cons a c r) loose next marked).next = next from rfl,
    create_conditional, hrep, thenBranch?_branches hnum'.nodup]
  simp only []
  rw [happ]

end Wrap

/-! ## Going on with the loop before the element -/

theorem isLoop_at {t : Tree} (ht : t.forest.ids.Nodup) (h : t.forest = close ks (l ++ cons a c r)) :
    t.isLoop a.id = a.kind.isLoop := by
  rw [isLoop, kind?_at ht h]
  rfl

theorem isConditional_at {t : Tree} (ht : t.forest.ids.Nodup)
    (h : t.forest = close ks (l ++ cons a c r)) : t.isConditional a.id = a.kind.isConditional := by
  rw [isConditional, kind?_at ht h]
  rfl

theorem exists_loop_before (ht : (around ks (l ++ cons a c r) loose next marked).Numbered) {n : NodeId}
    (h : ((around ks (l ++ cons a c r) loose next marked).previousSibling? a.id).filter
      (around ks (l ++ cons a c r) loose next marked).isLoop = some n) :
    ∃ (l' : Forest Node) (b : Node) (m : Forest Node), l = l' ++ tree b m ∧ b.id = n ∧
      b.kind.isLoop = true := by
  obtain ⟨hprev, hloop⟩ := Option.filter_eq_some_iff.1 h
  rw [previousSibling?_at ht.nodup (around_forest ..) (documentFrame_ne_nil ks loose)] at hprev
  obtain ⟨l', b, m, rfl, rfl⟩ := exists_last_root hprev
  refine ⟨l', b, m, rfl, rfl, ?_⟩
  have hb : (around ks ((l' ++ tree b m) ++ cons a c r) loose next marked).forest =
      close (ks ++ [documentFrame loose]) (l' ++ cons b m (cons a c r)) := by
    rw [around_forest, Forest.append_assoc, tree_append]
  rwa [isLoop_at ht.nodup hb] at hloop

theorem loop_none {b : Node} (hs : s.node = a.id) (hv : s.parameter = none)
    (hb : b.kind.isLoop = true)
    (ht : (around ks (l ++ cons b m (cons a c r)) loose next marked).Numbered) :
    loop s (around ks (l ++ cons b m (cons a c r)) loose next marked) =
      { tree := around ks (l ++ cons b (m ++ tree a c) r) loose next marked } := by
  have hloop := isLoop_at ht.nodup (around_forest ks (l ++ cons b m (cons a c r)) loose next marked)
  have ha : (around ks (l ++ cons b m (cons a c r)) loose next marked).forest =
      close (ks ++ [documentFrame loose]) ((l ++ tree b m) ++ cons a c r) := by
    rw [around_forest, Forest.append_assoc, tree_append]
  have hprev : (around ks (l ++ cons b m (cons a c r)) loose next marked).previousSibling? a.id =
      some b.id := by
    rw [previousSibling?_at ht.nodup ha (documentFrame_ne_nil ks loose)]
    simp
  unfold loop
  rw [hv, hs]
  simp only []
  rw [hprev, Option.filter_some, hloop, hb]
  simp only [if_true]
  rw [append_previous ht.nodup]

/-! ## Going on with the conditional before the element -/

/-- Trees that stand between a conditional and a node, and the node itself, are moved into one of
the branches in order. -/
theorem appendAll_around {kl kc kr : Forest Node} {b k : Node}
    (ht : (around ks (l ++ cons b (kl ++ cons k kc kr) (m ++ cons u d r)) loose next
      marked).Numbered) :
    (around ks (l ++ cons b (kl ++ cons k kc kr) (m ++ cons u d r)) loose next marked).appendAll k.id
        (m.rootIds ++ [u.id]) =
      around ks (l ++ cons b (kl ++ cons k (kc ++ (m ++ tree u d)) kr) r) loose next marked := by
  induction m generalizing kc with
  | nil => exact append_previous_child ht.nodup
  | cons x dx m _ ih =>
    rw [cons_append] at ht ⊢
    have hstep := append_previous_child ht.nodup
    have hnum := ht.append k.id x.id
    rw [hstep] at hnum
    have h := ih hnum
    unfold appendAll at h ⊢
    rw [rootIds_cons, List.cons_append, List.foldl_cons, hstep, h]
    simp only [Forest.append_assoc, tree_append, cons_append]

/-- A node is the unit of itself unless it is alone in a loop. -/
theorem climbLoops_self {t : Tree} (ht : t.forest.ids.Nodup)
    (h : t.forest = close ks (l ++ cons a c r))
    (hk : ∀ k ∈ ks.head?, k.node.kind.isLoop = true → l ++ r ≠ nil) :
    t.climbLoops a.id (above ks) = a.id := by
  cases ks with
  | nil => rfl
  | cons k ks =>
    have hk' : t.forest = close ks (k.before ++ cons k.node (l ++ cons a c r) k.after) := h
    rw [above_cons, climbLoops, if_neg]
    rintro ⟨hloop, hchildren⟩
    rw [isLoop_at ht hk'] at hloop
    rw [children_at ht hk'] at hchildren
    refine hk k rfl hloop ?_
    cases l with
    | nil =>
      cases r with
      | nil => rfl
      | cons b d r => simp at hchildren
    | cons b d l =>
      cases l <;> simp at hchildren

theorem climbLoops_loop {t : Tree} {k : Frame} (ht : t.forest.ids.Nodup)
    (h : t.forest = close (k :: ks) (tree a c)) (hk : k.node.kind.isLoop = true) :
    t.climbLoops a.id (above (k :: ks)) = t.climbLoops k.node.id (above ks) := by
  have hk' : t.forest = close ks (k.before ++ cons k.node (tree a c) k.after) := h
  rw [above_cons, climbLoops, if_pos]
  refine ⟨?_, ?_⟩
  · rw [isLoop_at ht hk', hk]
  · rw [children_at ht hk']
    rfl

/-- Whether trees that stand side by side are conditionals is read off their tops. -/
theorem isConditional_root {f : Forest Node} (ht : (around ks f loose next marked).Numbered)
    {x : Node} (hx : x ∈ f.roots) :
    (around ks f loose next marked).isConditional x.id = x.kind.isConditional := by
  obtain ⟨l, c, r, rfl⟩ := exists_mem_roots hx
  exact isConditional_at ht.nodup (around_forest ..)

theorem isConditional_rootIds {f : Forest Node} (ht : (around ks f loose next marked).Numbered)
    {g : Forest Node} (hg : g.roots ⊆ f.roots) (hno : ∀ x ∈ g.roots, x.kind.isConditional = false)
    {n : NodeId} (hn : n ∈ g.rootIds) : (around ks f loose next marked).isConditional n = false := by
  obtain ⟨x, hx, rfl⟩ := List.mem_map.1 hn
  rw [isConditional_root ht (hg hx), hno x hx]

theorem preceding_alone (ht : (around ks (l ++ cons u d r) loose next marked).Numbered)
    (hl : ∀ x ∈ l.roots, x.kind.isConditional = false) :
    ((around ks (l ++ cons u d r) loose next marked).preceding u.id).find?
      (around ks (l ++ cons u d r) loose next marked).isConditional = none := by
  rw [preceding_at ht.nodup (around_forest ..) (documentFrame_ne_nil ks loose), List.find?_eq_none]
  intro n hn
  rw [isConditional_rootIds ht (by simp) hl (List.mem_reverse.1 hn)]
  exact Bool.false_ne_true

theorem join_alone {side : Side} {alone : TemplateError} {n : NodeId}
    (ht : (around ks (l ++ cons u d r) loose next marked).Numbered)
    (hu : (around ks (l ++ cons u d r) loose next marked).unit n = u.id)
    (hl : ∀ x ∈ l.roots, x.kind.isConditional = false) :
    join side alone n (around ks (l ++ cons u d r) loose next marked) =
      { tree := around ks (l ++ cons u d r) loose next marked, error := some alone } := by
  unfold join
  simp only [hu, preceding_alone ht hl]

section Join

variable {alone : TemplateError} {n : NodeId} {b k₁ k₂ : Node} {c₁ c₂ : Forest Node}
  (ht : (around ks (l ++ cons b (cons k₁ c₁ (tree k₂ c₂)) (m ++ cons u d r)) loose next
    marked).Numbered)
  (hb : b.kind.isConditional = true)

include ht hb

theorem thenBranch?_around :
    (around ks (l ++ cons b (cons k₁ c₁ (tree k₂ c₂)) (m ++ cons u d r)) loose next
      marked).thenBranch? b.id = some k₁.id := by
  have hbf := around_forest ks (l ++ cons b (cons k₁ c₁ (tree k₂ c₂)) (m ++ cons u d r)) loose next
    marked
  unfold thenBranch? firstChild?
  rw [isConditional_at ht.nodup hbf, hb, below_at ht.nodup hbf]
  rfl

theorem elseBranch?_around :
    (around ks (l ++ cons b (cons k₁ c₁ (tree k₂ c₂)) (m ++ cons u d r)) loose next
      marked).elseBranch? b.id = some k₂.id := by
  have hbf := around_forest ks (l ++ cons b (cons k₁ c₁ (tree k₂ c₂)) (m ++ cons u d r)) loose next
    marked
  unfold elseBranch? lastChild?
  rw [isConditional_at ht.nodup hbf, hb, children_at ht.nodup hbf]
  rfl

omit hb in
theorem hasChildren_elseBranch :
    (around ks (l ++ cons b (cons k₁ c₁ (tree k₂ c₂)) (m ++ cons u d r)) loose next
      marked).hasChildren k₂.id = !c₂.isEmpty := by
  have hk : (around ks (l ++ cons b (cons k₁ c₁ (tree k₂ c₂)) (m ++ cons u d r)) loose next
      marked).forest =
        close (⟨l, b, m ++ cons u d r⟩ :: (ks ++ [documentFrame loose]))
          (tree k₁ c₁ ++ cons k₂ c₂ nil) := around_forest ..
  rw [hasChildren, below_at ht.nodup hk]

theorem branch_around {side : Side} {k : NodeId}
    (h : side.branch alone (around ks (l ++ cons b (cons k₁ c₁ (tree k₂ c₂)) (m ++ cons u d r)) loose
      next marked) b.id = .ok k) : k = k₁.id ∨ k = k₂.id := by
  cases side with
  | holds =>
    rw [Side.branch, thenBranch?_around ht hb] at h
    split at h
    · cases h
    · cases h
      exact Or.inl rfl
  | fails =>
    rw [Side.branch, elseBranch?_around ht hb] at h
    cases h
    exact Or.inr rfl

variable (hm : ∀ x ∈ m.roots, x.kind.isConditional = false)

include hm

theorem preceding_around :
    ((around ks (l ++ cons b (cons k₁ c₁ (tree k₂ c₂)) (m ++ cons u d r)) loose next marked).preceding
        u.id).find?
      (around ks (l ++ cons b (cons k₁ c₁ (tree k₂ c₂)) (m ++ cons u d r)) loose next
        marked).isConditional = some b.id ∧
    ((around ks (l ++ cons b (cons k₁ c₁ (tree k₂ c₂)) (m ++ cons u d r)) loose next marked).preceding
        u.id).takeWhile
      (!(around ks (l ++ cons b (cons k₁ c₁ (tree k₂ c₂)) (m ++ cons u d r)) loose next
        marked).isConditional ·) = m.rootIds.reverse := by
  have hf : (around ks (l ++ cons b (cons k₁ c₁ (tree k₂ c₂)) (m ++ cons u d r)) loose next
      marked).forest =
        close (ks ++ [documentFrame loose])
          ((l ++ cons b (cons k₁ c₁ (tree k₂ c₂)) m) ++ cons u d r) := by
    rw [around_forest, Forest.append_assoc, cons_append]
  have hprec := preceding_at ht.nodup hf (documentFrame_ne_nil ks loose)
  rw [rootIds_append, rootIds_cons, List.reverse_append, List.reverse_cons, List.append_assoc,
    List.singleton_append] at hprec
  have hbc := isConditional_at ht.nodup (around_forest ks
    (l ++ cons b (cons k₁ c₁ (tree k₂ c₂)) (m ++ cons u d r)) loose next marked)
  rw [hb] at hbc
  have hno : ∀ x ∈ m.rootIds.reverse, (around ks (l ++ cons b (cons k₁ c₁ (tree k₂ c₂))
      (m ++ cons u d r)) loose next marked).isConditional x = false := by
    intro x hx
    refine isConditional_rootIds ht ?_ hm (List.mem_reverse.1 hx)
    intro y hy
    simp [roots, hy]
  rw [hprec]
  refine ⟨?_, ?_⟩
  · rw [List.find?_append, List.find?_eq_none.2 fun x hx => by simp [hno x hx],
      List.find?_cons_of_pos hbc]
    rfl
  · rw [List.takeWhile_append_of_pos fun x hx => by simp [hno x hx],
      List.takeWhile_cons_of_neg (by simp [hbc]), List.append_nil]

variable (hu : (around ks (l ++ cons b (cons k₁ c₁ (tree k₂ c₂)) (m ++ cons u d r)) loose next
    marked).unit n = u.id)

include hu

theorem join_eq (side : Side) :
    join side alone n (around ks (l ++ cons b (cons k₁ c₁ (tree k₂ c₂)) (m ++ cons u d r)) loose next
        marked) =
      match side.branch alone (around ks (l ++ cons b (cons k₁ c₁ (tree k₂ c₂)) (m ++ cons u d r))
          loose next marked) b.id with
      | .error e =>
        { tree := around ks (l ++ cons b (cons k₁ c₁ (tree k₂ c₂)) (m ++ cons u d r)) loose next
            marked, error := some e }
      | .ok k =>
        { tree := (around ks (l ++ cons b (cons k₁ c₁ (tree k₂ c₂)) (m ++ cons u d r)) loose next
            marked).appendAll k (m.rootIds ++ [u.id]) } := by
  obtain ⟨hfind, htake⟩ := preceding_around ht hb hm
  unfold join
  cases hbranch : side.branch alone (around ks (l ++ cons b (cons k₁ c₁ (tree k₂ c₂)) (m ++ cons u d r))
      loose next marked) b.id with
  | error e => simp only [hu, hfind, hbranch]
  | ok k => simp only [hu, hfind, htake, hbranch, List.reverse_reverse]

theorem join_holds (hc : c₂ = nil) :
    join .holds alone n (around ks (l ++ cons b (cons k₁ c₁ (tree k₂ c₂)) (m ++ cons u d r)) loose next
        marked) =
      { tree := around ks (l ++ cons b (cons k₁ (c₁ ++ (m ++ tree u d)) (tree k₂ c₂)) r) loose next
          marked } := by
  rw [join_eq ht hb hm hu]
  unfold Side.branch
  rw [elseBranch?_around ht hb, thenBranch?_around ht hb, Option.any_some,
    hasChildren_elseBranch ht, hc]
  subst hc
  have h : (around ks (l ++ cons b (nil ++ cons k₁ c₁ (tree k₂ nil)) (m ++ cons u d r)) loose next
      marked).appendAll k₁.id (m.rootIds ++ [u.id]) = _ := appendAll_around ht
  simp only [nil_append] at h
  simp only [isEmpty, Bool.not_true, Bool.false_eq_true, if_false, h]

theorem join_holds_error (hc : c₂ ≠ nil) :
    join .holds alone n (around ks (l ++ cons b (cons k₁ c₁ (tree k₂ c₂)) (m ++ cons u d r)) loose next
        marked) =
      { tree := around ks (l ++ cons b (cons k₁ c₁ (tree k₂ c₂)) (m ++ cons u d r)) loose next marked,
        error := some .ifAfterElse } := by
  rw [join_eq ht hb hm hu]
  unfold Side.branch
  rw [elseBranch?_around ht hb, Option.any_some, hasChildren_elseBranch ht]
  cases c₂ with
  | nil => exact absurd rfl hc
  | cons x d r => rfl

theorem join_fails :
    join .fails alone n (around ks (l ++ cons b (cons k₁ c₁ (tree k₂ c₂)) (m ++ cons u d r)) loose next
        marked) =
      { tree := around ks (l ++ cons b (cons k₁ c₁ (tree k₂ (c₂ ++ (m ++ tree u d)))) r) loose next
          marked } := by
  rw [join_eq ht hb hm hu]
  unfold Side.branch
  rw [elseBranch?_around ht hb]
  have h : (around ks (l ++ cons b (tree k₁ c₁ ++ cons k₂ c₂ nil) (m ++ cons u d r)) loose next
      marked).appendAll k₂.id (m.rootIds ++ [u.id]) = _ := appendAll_around ht
  simp only [tree_append] at h
  exact congrArg (fun t => ({ tree := t } : Outcome)) h

end Join

end HtmlTemplate.Handler
