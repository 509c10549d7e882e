import HtmlTemplate.Proofs.Directive.Script
import HtmlTemplate.Proofs.Markup.Content
import HtmlTemplate.Proofs.Tree.Place

/-! # Where an element is while its directives run

Between the time a walk reaches an element and the time it leaves it, the element is wrapped and
moved, but only over new nodes: `Standing` says what is behind it and ahead of it all the while, and
`Departed` what is there once it is gone.
-/

namespace HtmlTemplate

open Forest Context HtmlTemplate.Tree

/-! ## Old nodes -/

/-- The nodes with a number below the bound can be read from a source, and no others will be made
with such a number. -/
structure Tree.Old (bound : NodeId) (t : Tree) : Prop where
  le_next : bound ≤ t.next
  kinds : ∀ x ∈ t.forest.preorder, x.id < bound → x.kind.isMade = false

namespace Tree

variable {t : Tree} {bound : NodeId}

theorem mem_apply (ht : t.Numbered) (e : Edit) {x : Node} (hx : x ∈ (e.apply t).forest.preorder) :
    x ∈ t.forest.preorder ∨ t.next ≤ x.id := by
  cases e with
  | create kind =>
    obtain ⟨made, hmade, -, hnew⟩ := create_preorder t kind
    rcases List.mem_append.1 (hmade ▸ hx) with hx | hx
    · exact Or.inl hx
    · exact Or.inr (hnew x hx).1
  | append p n => exact Or.inl ((append_perm ht.nodup p n).subset hx)
  | prepend p n => exact Or.inl ((prepend_perm ht.nodup p n).subset hx)
  | insertBefore anchor n => exact Or.inl ((insertBefore_perm ht.nodup anchor n).subset hx)
  | insertAfter anchor n => exact Or.inl ((insertAfter_perm ht.nodup anchor n).subset hx)
  | replace old new => exact Or.inl ((replace_perm ht.nodup old new).subset hx)
  | detach n => exact Or.inl ((detach_perm ht.nodup n).subset hx)
  | clear n => exact Or.inl ((clear_perm ht.nodup n).subset hx)
  | mark n => exact Or.inl hx

theorem Old.step (h : t.Old bound) (ht : t.Numbered) (s : Step) : (s.apply t).Old bound := by
  cases s with
  | edit e =>
    refine ⟨Nat.le_trans h.le_next (next_le_apply t e), fun x hx hlt => ?_⟩
    rcases mem_apply ht e hx with hx | hx
    · exact h.kinds x hx hlt
    · exact absurd (Nat.lt_of_lt_of_le hlt (Nat.le_trans h.le_next hx)) (Nat.lt_irrefl _)
  | element n f =>
    refine ⟨h.le_next, fun x hx hlt => ?_⟩
    have hkind := (kind?_eq_some_iff (ht.mapElement n f).nodup).2 hx
    rw [kind?_mapElement ht.nodup] at hkind
    split at hkind
    · obtain ⟨k, hk, hmap⟩ := Option.map_eq_some_iff.1 hkind
      rw [← hmap]
      have := h.kinds _ ((kind?_eq_some_iff ht.nodup).1 hk) hlt
      cases k <;> exact this
    · exact h.kinds x ((kind?_eq_some_iff ht.nodup).1 hkind) hlt

theorem Old.follow (h : t.Old bound) (ht : t.Numbered) (steps : List Step) :
    (t.follow steps).Old bound := by
  induction steps generalizing t with
  | nil => exact h
  | cons s steps ih => exact ih (h.step ht s) (ht.step s)

/-- Loops, conditionals and branches are new. -/
theorem Old.le_id (h : t.Old bound) {ks : Context} {l c r : Forest Node} {a x : Node}
    (hf : t.forest = close ks (l ++ cons a c r)) (hx : x ∈ (tree a c).preorder)
    (hk : x.kind.isMade = true) : bound ≤ x.id := by
  refine Nat.le_of_not_lt fun hlt => ?_
  have hmem : x ∈ t.forest.preorder := by
    rw [hf]
    exact (preorder_close_perm ks l (tree a c) r).mem_iff.2 (List.mem_append_left _ hx)
  rw [h.kinds x hmem hlt] at hk
  cases hk

end Tree

/-! ## Places -/

/-- Where a walk has come: the frames above the node it has reached, the trees after it, and the old
numbers behind it. -/
structure Spot where
  bound : NodeId
  above : Context
  ahead : Forest Node
  behind : List NodeId

/-- Element `n` with `c` below it is still in the document, over new nodes only. -/
def Standing (p : Spot) (n : NodeId) (tag : String) (c : Forest Node) (t : Tree) : Prop :=
  ∃ (js ks : Context) (l : Forest Node) (e : Element) (r loose : Forest Node) (next : NodeId)
    (marked : Option NodeId),
    t = around (js ++ ks) (l ++ cons ⟨n, .element e⟩ c r) loose next marked ∧ e.tag = tag ∧
      Alike p.above ks ∧ After p.bound p.ahead js r ∧
      older p.bound (leading (js ++ ks) ++ l.ids) = p.behind

/-- Element `n` is gone, and nothing old with it but what was below it. -/
def Departed (p : Spot) (n : NodeId) (t : Tree) : Prop :=
  ∃ (ks : Context) (l loose : Forest Node) (next : NodeId) (marked : Option NodeId),
    t = around ks (l ++ p.ahead) loose next marked ∧ Alike p.above ks ∧
      older p.bound (leading ks ++ l.ids) = p.behind ∧ n ∈ loose.ids

theorem departed_around {p : Spot} {n : NodeId} {js ks : Context} {l r loose : Forest Node}
    {next : NodeId} {marked : Option NodeId} (halike : Alike p.above ks)
    (hafter : After p.bound p.ahead js r)
    (hbehind : older p.bound (leading (js ++ ks) ++ l.ids) = p.behind) (hn : n ∈ loose.ids) :
    Departed p n (around (js ++ ks) (l ++ r) loose next marked) := by
  obtain ⟨l', hclose, hold⟩ := hafter.exists_close l
  refine ⟨ks, l', loose, next, marked, ?_, halike, ?_, hn⟩
  · rw [around_append, hclose]
  · rw [← hbehind, leading_append, List.append_assoc, older_append, hold, ← older_append]

namespace Handler

variable {p : Spot} {n : NodeId} {tag : String} {c : Forest Node} {t : Tree} {s : Site} {kind : Kind}

theorem standing_mapElement (h : Standing p n tag c t) (ht : t.Numbered) {f : Element → Element}
    (hf : ∀ e, (f e).tag = e.tag) : Standing p n tag c (t.mapElement n f) := by
  obtain ⟨js, ks, l, e, r, loose, next, marked, rfl, htag, halike, hafter, hbehind⟩ := h
  have hmap := mapElement_around ht.nodup f
  exact ⟨js, ks, l, f e, r, loose, next, marked, hmap, (hf e).trans htag, halike, hafter, hbehind⟩

theorem standing_mark (h : Standing p n tag c t) (m : NodeId) : Standing p n tag c (t.mark m) := by
  obtain ⟨js, ks, l, e, r, loose, next, marked, rfl, hrest⟩ := h
  exact ⟨js, ks, l, e, r, loose, next, some m, rfl, hrest⟩

section New

variable (h : Standing p n tag c t) (hs : s.node = n) (ht : t.Numbered) (hb : p.bound ≤ t.next)

include h hs ht hb

theorem standing_putBefore (hk : kind.isConditional = false) :
    Standing p n tag c (putBefore s kind t) := by
  obtain ⟨js, ks, l, e, r, loose, next, marked, rfl, htag, halike, hafter, hbehind⟩ := h
  refine ⟨js, ks, l ++ tree ⟨next, kind⟩ nil, e, r, loose, next + 1, marked, ?_, htag, halike, hafter,
    ?_⟩
  · rw [putBefore_around hs hk ht, Forest.append_assoc]
  · have hnew : older p.bound (tree ⟨next, kind⟩ nil).ids = [] := older_cons_new hb
    rw [← hbehind, ids_append, ← List.append_assoc, older_append, hnew, List.append_nil]

theorem standing_putAfter (hk : kind.isConditional = false) (he : kind.isElement = false) :
    Standing p n tag c (putAfter s kind t) := by
  obtain ⟨js, ks, l, e, r, loose, next, marked, rfl, htag, halike, hafter, hbehind⟩ := h
  have hmade : (tree ⟨next, kind⟩ nil).Inert p.bound := inert_tree hb he
  exact ⟨js, ks, l, e, tree ⟨next, kind⟩ nil ++ r, loose, next + 1, marked, putAfter_around hs hk ht,
    htag, halike, hafter.prepend hmade, hbehind⟩

theorem departed_putInstead (hk : kind.isConditional = false) (he : kind.isElement = false) :
    Departed p n (putInstead s kind t) := by
  obtain ⟨js, ks, l, e, r, loose, next, marked, rfl, htag, halike, hafter, hbehind⟩ := h
  have hmade : (tree ⟨next, kind⟩ nil).Inert p.bound := inert_tree hb he
  rw [putInstead_around hs hk ht]
  exact departed_around halike (hafter.prepend hmade) hbehind (by simp)

omit hb in
theorem departed_detach : Departed p n (t.detach s.node) := by
  obtain ⟨js, ks, l, e, r, loose, next, marked, rfl, htag, halike, hafter, hbehind⟩ := h
  rw [hs]
  have hdetach := detach_around ht.nodup
  rw [show (⟨n, .element e⟩ : Node).id = n from rfl] at hdetach
  rw [hdetach]
  exact departed_around halike hafter hbehind (by simp)

omit hb in
theorem standing_putBelow (hk : kind.isConditional = false) :
    Standing p n tag (tree ⟨t.next, kind⟩ nil) (putBelow s kind t) := by
  obtain ⟨js, ks, l, e, r, loose, next, marked, rfl, htag, halike, hafter, hbehind⟩ := h
  exact ⟨js, ks, l, e, r, loose ++ c, next + 1, marked, putBelow_around hs hk ht, htag, halike, hafter,
    hbehind⟩

omit hs in
theorem standing_declareImport : Standing p n tag c (declareImport s t) := by
  obtain ⟨js, ks, l, e, r, loose, next, marked, rfl, htag, halike, hafter, hbehind⟩ := h
  cases hv : s.parameter with
  | none =>
    rw [declareImport, hv]
    exact ⟨js, ks, l, e, r, loose, next, marked, rfl, htag, halike, hafter, hbehind⟩
  | some v =>
    rw [declareImport_around hv ht]
    obtain ⟨ks', l', hclose, halike', hlead⟩ := exists_cons_close
      ⟨next, .code (Fragment.eager (call s .importResource))⟩ (js ++ ks) l (cons ⟨n, .element e⟩ c r)
    obtain ⟨js₁, ks₁, rfl, hjs, hks⟩ := halike'.exists_append
    refine ⟨js₁, ks₁, l', e, r, loose, next + 1, marked, ?_, htag, halike.trans hks,
      hafter.of_alike hjs, ?_⟩
    · rw [hclose]
      rfl
    · rw [hlead, ← hbehind]
      exact older_cons_new hb

end New

/-! ## Loops -/

theorem standing_loop (h : Standing p n tag c t) (hs : s.node = n) (ht : t.Numbered)
    (hb : p.bound ≤ t.next) (herror : (loop s t).error = none) :
    Standing p n tag c (loop s t).tree := by
  obtain ⟨js, ks, l, e, r, loose, next, marked, rfl, htag, halike, hafter, hbehind⟩ := h
  cases hv : s.parameter with
  | some v =>
    rw [loop_some hs ht hv]
    refine ⟨⟨l, ⟨next, .loop s.code⟩, r⟩ :: js, ks, nil, e, nil, loose, next + 1, marked, rfl, htag,
      halike, ⟨trivial, hafter⟩, ?_⟩
    rw [← hbehind, List.cons_append, leading_cons]
    have hnew : older p.bound [next] = [] := older_cons_new hb
    simp [hnew]
  | none =>
    -- There is a loop right before the element, or else the directive would fail.
    obtain ⟨m, hm⟩ : ∃ m, ((around (js ++ ks) (l ++ cons ⟨n, .element e⟩ c r) loose next
        marked).previousSibling? n).filter (around (js ++ ks) (l ++ cons ⟨n, .element e⟩ c r) loose next
          marked).isLoop = some m := by
      refine Option.ne_none_iff_exists'.1 fun hnone => ?_
      unfold loop at herror
      rw [hv, hs] at herror
      simp only [hnone] at herror
      cases herror
    obtain ⟨l, b, m, rfl, rfl, hloop⟩ := exists_loop_before ht hm
    rw [Forest.append_assoc, tree_append] at ht ⊢
    rw [loop_none hs hv hloop ht]
    refine ⟨⟨l, b, r⟩ :: js, ks, m, e, nil, loose, next, marked, rfl, htag, halike,
      ⟨trivial, hafter⟩, ?_⟩
    rw [← hbehind, List.cons_append, leading_cons]
    simp

/-! ## Units -/

/-- The tree of `u` is that of `a` with loops around it. -/
inductive Wrapped (a : Node) (c : Forest Node) : Node → Forest Node → Prop
  | self : Wrapped a c a c
  | loop {u v : Node} {d : Forest Node} (h : Wrapped a c u d) (hv : v.kind.isLoop = true) :
    Wrapped a c v (tree u d)

theorem Wrapped.trans {a u v : Node} {c d g : Forest Node} (h : Wrapped a c u d)
    (h' : Wrapped u d v g) : Wrapped a c v g := by
  induction h' with
  | self => exact h
  | loop _ hv ih => exact Wrapped.loop ih hv

/-- Between other trees, an element with loops around it stands in a place of its own. -/
theorem Wrapped.exists_place {bound : NodeId} {a u : Node} {c d : Forest Node} (h : Wrapped a c u d)
    (hnew : ∀ x ∈ (tree u d).preorder, x.kind.isLoop = true → bound ≤ x.id) (l r : Forest Node) :
    ∃ (js : Context) (l' r' : Forest Node), l ++ cons u d r = close js (l' ++ cons a c r') ∧
      After bound r js r' ∧ older bound (leading js ++ l'.ids) = older bound l.ids := by
  induction h generalizing l r with
  | self => exact ⟨[], l, r, rfl, After.self bound r, rfl⟩
  | @loop u v d _ hv ih =>
    have hin : ∀ x ∈ (tree u d).preorder, x.kind.isLoop = true → bound ≤ x.id := by
      intro x hx
      refine hnew x ?_
      simp only [tree, preorder_cons, preorder_nil, List.append_nil] at hx ⊢
      exact List.mem_cons_of_mem _ hx
    obtain ⟨js, l', r', hclose, hafter, hold⟩ := ih hin nil nil
    refine ⟨js ++ [⟨l, v, r⟩], l', r', ?_, hafter.within (After.self bound r), ?_⟩
    · rw [close_append, ← hclose]
      rfl
    · have hv' : older bound [v.id] = [] := older_cons_new (hnew v (by simp [tree]) hv)
      rw [leading_append, List.append_assoc, older_append, hold]
      simp [hv']

/-- Node `u` is an element with loops around it, at a place over new nodes. -/
def UnitAt (p : Spot) (ks : Context) (a : Node) (c : Forest Node) (t : Tree) (n : NodeId) : Prop :=
  ∃ (js : Context) (l : Forest Node) (u : Node) (d r loose : Forest Node) (next : NodeId)
    (marked : Option NodeId),
    t = around (js ++ ks) (l ++ cons u d r) loose next marked ∧ n = u.id ∧ Wrapped a c u d ∧
      After p.bound p.ahead js r ∧ older p.bound (leading (js ++ ks) ++ l.ids) = p.behind

/-- Up from an element through the loops around it alone; those above on arrival are not reached. -/
theorem unitAt_climbLoops {js ks : Context} {l c r loose : Forest Node} {a : Node} {next : NodeId}
    {marked : Option NodeId} (ht : (around (js ++ ks) (l ++ cons a c r) loose next marked).Numbered)
    (hold : (around (js ++ ks) (l ++ cons a c r) loose next marked).Old p.bound)
    (hks : ∀ k ∈ ks.head?, k.node.kind.isLoop = false) (hafter : After p.bound p.ahead js r)
    (hbehind : older p.bound (leading (js ++ ks) ++ l.ids) = p.behind) :
    UnitAt p ks a c (around (js ++ ks) (l ++ cons a c r) loose next marked)
      ((around (js ++ ks) (l ++ cons a c r) loose next marked).climbLoops a.id
        (Context.above (js ++ ks ++ [documentFrame loose]))) := by
  induction js generalizing l a c r with
  | nil =>
    have hstop := climbLoops_self ht.nodup (around_forest ..) fun k hk hloop => by
      cases ks with
      | nil =>
        cases hk
        cases hloop
      | cons k' ks =>
        rw [hks k hk] at hloop
        cases hloop
    exact ⟨[], l, a, c, r, loose, next, marked, rfl, hstop, .self, hafter, hbehind⟩
  | cons k js ih =>
    by_cases hk : k.node.kind.isLoop = true ∧ l ++ r = nil
    · obtain ⟨hloop, hnil⟩ := hk
      obtain ⟨rfl, rfl⟩ := Forest.append_eq_nil hnil
      have hid : p.bound ≤ k.node.id := by
        have hkf := around_forest (js ++ ks) (k.before ++ cons k.node (tree a c) k.after) loose next
          marked
        exact hold.le_id hkf (by simp [tree]) (Kind.isMade_of_isLoop hloop)
      have hbehind' : older p.bound (leading (js ++ ks) ++ k.before.ids) = p.behind := by
        have hnew : older p.bound [k.node.id] = [] := older_cons_new hid
        rw [← hbehind, List.cons_append, leading_cons]
        simp [hnew]
      obtain ⟨js', l', u, d, r', loose', next', marked', he, hu, hw, hrest⟩ :=
        ih ht hold hafter.2 hbehind'
      refine ⟨js', l', u, d, r', loose', next', marked', he, ?_, (Wrapped.self.loop hloop).trans hw,
        hrest⟩
      rw [← hu]
      exact climbLoops_loop ht.nodup (around_forest ..) hloop
    · have hstop := climbLoops_self ht.nodup (around_forest ..) fun k' hk' hloop hnil => by
        cases hk'
        exact hk ⟨hloop, hnil⟩
      exact ⟨k :: js, l, a, c, r, loose, next, marked, rfl, hstop, .self, hafter, hbehind⟩

/-! ## Continuations -/

/-- A unit that was moved into a branch `k` of the conditional `b`. -/
theorem standing_inside {js ks : Context} {l x d r kl kr loose : Forest Node} {b k u : Node}
    {e : Element} {next : NodeId} {marked : Option NodeId} (hw : Wrapped ⟨n, .element e⟩ c u d)
    (hnew : ∀ y ∈ (tree u d).preorder, y.kind.isLoop = true → p.bound ≤ y.id)
    (halike : Alike p.above ks) (hafter : After p.bound p.ahead js r) (hkr : kr.Inert p.bound)
    {g : Forest Node} (hg : g = kl ++ cons k (x ++ tree u d) kr)
    (hbehind : older p.bound (leading (⟨kl, k, kr⟩ :: ⟨l, b, r⟩ :: (js ++ ks)) ++ x.ids) = p.behind) :
    Standing p n e.tag c
      (around (js ++ ks) (l ++ cons b g r) loose next marked) := by
  subst hg
  obtain ⟨js', l', r', hclose, hafter', hold⟩ := hw.exists_place hnew x nil
  refine ⟨js' ++ ⟨kl, k, kr⟩ :: ⟨l, b, r⟩ :: js, ks, l', e, r', loose, next, marked, ?_, rfl, halike,
    hafter'.within ⟨hkr, hafter⟩, ?_⟩
  · rw [List.append_assoc, around_append js', ← hclose]
    rfl
  · rw [← hbehind, List.append_assoc, leading_append, List.append_assoc, older_append, hold,
      ← older_append]
    rfl

theorem standing_join (h : Standing p n tag c t) (ht : t.Shaped) (hold : t.Old p.bound)
    (hcalm : ∀ k ∈ p.above.head?, k.node.kind.isLoop = false) {side : Side} {alone : TemplateError}
    (herror : (join side alone n t).error = none) :
    Standing p n tag c (join side alone n t).tree := by
  obtain ⟨js, ks, l, e, r, loose, next, marked, rfl, rfl, halike, hafter, hbehind⟩ := h
  have hks : ∀ k ∈ ks.head?, k.node.kind.isLoop = false :=
    halike.forall_head (P := fun x => x.kind.isLoop = false) hcalm
  have hunit := unitAt_climbLoops ht.numbered hold hks hafter hbehind
  rw [← ancestors_at ht.numbered.nodup (around_forest ..), ← unit] at hunit
  obtain ⟨js, l, u, d, r, loose, next, marked, he, hu, hw, hafter, hbehind⟩ := hunit
  rw [he] at ht hold herror hu ⊢
  rcases exists_conditional l with hl | ⟨l, b, g, m, rfl, hb, hm⟩
  · rw [join_alone ht.numbered hu hl] at herror
    cases herror
  · have huf := around_forest (js ++ ks) ((l ++ cons b g m) ++ cons u d r) loose next marked
    have hnew : ∀ y ∈ (tree u d).preorder, y.kind.isLoop = true → p.bound ≤ y.id :=
      fun y hy hloop => hold.le_id huf hy (Kind.isMade_of_isLoop hloop)
    rw [Forest.append_assoc, cons_append] at ht hold herror hu ⊢
    have hbf := around_forest (js ++ ks) (l ++ cons b g (m ++ cons u d r)) loose next marked
    obtain ⟨k₁, k₂, c₁, c₂, rfl, h₁, h₂⟩ := ht.exists_branches hbf hb
    cases side with
    | holds =>
      by_cases hc : c₂ = nil
      · rw [join_holds ht.numbered hb hm hu hc, ← Forest.append_assoc]
        subst hc
        have hid : p.bound ≤ k₂.id := hold.le_id hbf (by simp [tree]) (by rw [h₂]; rfl)
        have hinert : (tree k₂ nil).Inert p.bound := inert_tree hid (by rw [h₂]; rfl)
        refine standing_inside hw hnew halike hafter hinert (nil_append _).symm ?_
        -- The second branch is behind the unit before the move and ahead of it afterwards.
        have hback : leading (js ++ ks) ++ (l ++ cons b (cons k₁ c₁ (tree k₂ nil)) m).ids =
            (leading (js ++ ks) ++ (l.ids ++ b.id :: k₁.id :: c₁.ids)) ++ k₂.id :: m.ids := by simp
        have hnow : leading (⟨nil, k₁, tree k₂ nil⟩ :: ⟨l, b, r⟩ :: (js ++ ks)) ++ (c₁ ++ m).ids =
            (leading (js ++ ks) ++ (l.ids ++ b.id :: k₁.id :: c₁.ids)) ++ m.ids := by simp
        rw [← hbehind, hback, hnow]
        simp only [older_append, older_cons_new hid]
      · rw [join_holds_error ht.numbered hb hm hu hc] at herror
        cases herror
    | fails =>
      rw [join_fails ht.numbered hb hm hu, ← Forest.append_assoc]
      have hnil : (nil : Forest Node).Inert p.bound := trivial
      refine standing_inside hw hnew halike hafter hnil (tree_append k₁ c₁ _).symm ?_
      rw [← hbehind]
      simp

theorem standing_condition (h : Standing p n tag c t) (hs : s.node = n) (ht : t.Shaped)
    (hold : t.Old p.bound) (hcalm : ∀ k ∈ p.above.head?, k.node.kind.isLoop = false)
    (herror : (condition s t).error = none) : Standing p n tag c (condition s t).tree := by
  cases hv : s.parameter with
  | none =>
    have heq : condition s t = join .holds .ifAlone n t := by
      rw [condition, hv, hs]
    rw [heq] at herror ⊢
    exact standing_join h ht hold hcalm herror
  | some v =>
    obtain ⟨js, ks, l, e, r, loose, next, marked, rfl, htag, halike, hafter, hbehind⟩ := h
    have hid : p.bound ≤ next := hold.le_next
    have hinert : (tree ⟨next + 2, .branch⟩ nil).Inert p.bound :=
      inert_tree (Nat.le_trans hid (Nat.le_add_right next 2)) rfl
    rw [condition_some hs ht.numbered hv]
    refine ⟨⟨nil, ⟨next + 1, .branch⟩, tree ⟨next + 2, .branch⟩ nil⟩ ::
      ⟨l, ⟨next, .conditional s.code⟩, r⟩ :: js, ks, nil, e, nil, loose, next + 3, marked, rfl, htag,
      halike, ⟨trivial, hinert, hafter⟩, ?_⟩
    have hnew : older p.bound [next, next + 1] = [] :=
      (older_cons_new hid).trans (older_cons_new (Nat.le_trans hid (Nat.le_add_right next 1)))
    rw [← hbehind]
    simp [hnew]

end Handler

end HtmlTemplate
