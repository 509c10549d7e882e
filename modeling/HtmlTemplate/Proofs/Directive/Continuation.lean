import HtmlTemplate.Dialect.Php
import HtmlTemplate.Directive.Branching
import HtmlTemplate.Proofs.Tree.EditEffect
import HtmlTemplate.Proofs.Tree.Steps

/-! # Where a condition or a loop goes on

A bare `if` and an `else` go on with the nearest conditional before the unit of their element, and a bare `foreach`
with the loop right before its element. They fail exactly where there is nothing to go on with, and leave the tree as
it was then; otherwise they move a run of siblings to the end of one child list (`controlFlow`). What is moved one node
after the other stays movable on the way (`Movable.tail`).
-/

namespace HtmlTemplate

open Forest Context

namespace Tree

/-- `m` is `n`, or a loop that is reached from `n` through parents with one child. -/
inductive Wraps (t : Tree) (n : NodeId) : NodeId → Prop
  | self : t.Wraps n n
  | loop {m p : NodeId} (h : t.Wraps n m) (hparent : t.parent? m = some p) (hloop : t.isLoop p = true)
      (halone : t.children p = [m]) : t.Wraps n p

/-- The outermost of these. -/
structure IsUnit (t : Tree) (n u : NodeId) : Prop where
  wraps : t.Wraps n u
  outermost : ∀ p, t.parent? u = some p → t.isLoop p = true → t.children p ≠ [u]

/-- `c` is the nearest conditional before `u` among its siblings, and `between` stand in between. -/
structure Nearest (t : Tree) (u : NodeId) (between : List NodeId) (c : NodeId) : Prop where
  siblings : ∃ l r, t.siblings u = l ++ c :: (between ++ u :: r)
  conditional : t.isConditional c = true
  others : ∀ m ∈ between, t.isConditional m = false

/-- The children `nodes` of `p` were moved to the end of the children of `b`, and all else is as it was. -/
structure Takes (t t' : Tree) (p b : NodeId) (nodes : List NodeId) : Prop where
  kind : ∀ m, t'.kind? m = t.kind? m
  here : t'.children b = t.children b ++ nodes
  there : t'.children p = (t.children p).filter (· ∉ nodes)
  elsewhere : ∀ m, m ≠ b → m ≠ p → t'.children m = t.children m

variable {t t' t'' : Tree} {m n u p q b c : NodeId} {between nodes nodes' l r : List NodeId}

/-! ## The unit -/

theorem ancestors_of_loose (ht : t.forest.ids.Nodup) (h : t.parent? n = none) : t.ancestors n = [] := by
  by_cases hn : n ∈ t.forest.ids
  · obtain ⟨ks, l, a, c, r, rfl, hf⟩ := exists_close hn
    rw [parent?_at ht hf] at h
    rw [ancestors_at ht hf]
    exact List.head?_eq_none_iff.1 h
  · rw [ancestors, (above?_eq_none_iff n [] _).2 hn]
    rfl

theorem isUnit_climbLoops (ht : t.forest.ids.Nodup) {ps : List NodeId} (hm : t.Wraps n m)
    (hps : t.ancestors m = ps) : t.IsUnit n (t.climbLoops m ps) := by
  induction ps generalizing m with
  | nil =>
    refine ⟨hm, fun p (hp : t.parent? m = some p) => ?_⟩
    rw [ancestors_of_parent? ht hp] at hps
    cases hps
  | cons p ps ih =>
    obtain ⟨hp, rfl⟩ : t.parent? m = some p ∧ t.ancestors p = ps := by
      cases hparent : t.parent? m with
      | none =>
        rw [ancestors_of_loose ht hparent] at hps
        cases hps
      | some q =>
        rw [ancestors_of_parent? ht hparent] at hps
        cases hps
        exact ⟨rfl, rfl⟩
    rw [climbLoops]
    split
    · rename_i halone
      exact ih (hm.loop hp halone.1 halone.2) rfl
    · rename_i hnot
      refine ⟨hm, fun q hq hloop halone => hnot ?_⟩
      cases hp.symm.trans hq
      exact ⟨hloop, halone⟩

theorem isUnit_unit (ht : t.forest.ids.Nodup) (n : NodeId) : t.IsUnit n (t.unit n) :=
  isUnit_climbLoops ht .self rfl

/-! ## Siblings before a node -/

theorem siblings_of_parent? (h : t.parent? n = some p) : t.siblings n = t.children p := by
  rw [siblings, h]

theorem nodup_siblings (ht : t.forest.ids.Nodup) (n : NodeId) : (t.siblings n).Nodup := by
  rw [siblings]
  split
  · exact nodup_children ht _
  · exact List.nodup_nil

theorem siblings_of_loose (h : t.parent? n = none) : t.siblings n = [] := by
  rw [siblings, h]

theorem exists_parent_of_siblings (h : t.siblings n = l ++ m :: r) : ∃ p, t.parent? n = some p := by
  cases hp : t.parent? n with
  | none =>
    rw [siblings_of_loose hp] at h
    exact absurd h.symm (List.append_ne_nil_of_right_ne_nil l (List.cons_ne_nil m r))
  | some p => exact ⟨p, rfl⟩

theorem exists_siblings (ht : t.forest.ids.Nodup) (h : t.parent? n = some p) : ∃ l r, t.siblings n = l ++ n :: r := by
  rw [siblings_of_parent? h]
  exact List.append_of_mem ((mem_children_iff ht).2 h)

theorem preceding_of_siblings (ht : t.forest.ids.Nodup) (h : t.siblings n = l ++ n :: r) :
    t.preceding n = l.reverse := by
  have hout := not_mem_around (h ▸ nodup_siblings ht n)
  have hne : ∀ m ∈ l, decide (m ≠ n) = true := fun m hm =>
    decide_eq_true fun he => hout (he ▸ List.mem_append_left r hm)
  rw [preceding, h, List.takeWhile_append_of_pos hne, List.takeWhile_cons_of_neg (by simp), List.append_nil]

theorem previousSibling?_of_siblings (ht : t.forest.ids.Nodup) (h : t.siblings n = l ++ n :: r) :
    t.previousSibling? n = l.getLast? := by
  have hout := not_mem_around (h ▸ nodup_siblings ht n)
  have hr : n ∉ r.reverse := fun hn => hout (List.mem_append_right l (List.mem_reverse.1 hn))
  rw [previousSibling?, h, List.reverse_append, List.reverse_cons, List.append_assoc, List.singleton_append,
    after?_append hr, List.head?_reverse]

theorem previousSibling?_eq_some_iff (ht : t.forest.ids.Nodup) :
    t.previousSibling? n = some q ↔ ∃ l r, t.siblings n = l ++ q :: n :: r := by
  constructor
  · intro h
    cases hp : t.parent? n with
    | none =>
      rw [previousSibling?, siblings_of_loose hp] at h
      cases h
    | some p =>
      obtain ⟨l, r, hs⟩ := exists_siblings ht hp
      rw [previousSibling?_of_siblings ht hs] at h
      obtain ⟨l, rfl⟩ := List.getLast?_eq_some_iff.1 h
      exact ⟨l, r, by rw [hs, List.append_assoc, List.singleton_append]⟩
  · rintro ⟨l, r, h⟩
    rw [List.append_cons] at h
    rw [previousSibling?_of_siblings ht h, List.getLast?_concat]

/-- Going back from a node, the nearest conditional is the first one to be found. -/
theorem nearest_iff (ht : t.forest.ids.Nodup) :
    t.Nearest u between c ↔ (t.preceding u).find? t.isConditional = some c ∧
      (t.preceding u).takeWhile (!t.isConditional ·) = between.reverse := by
  have htakeWhile {l₁ l₂ : List NodeId} (hc : t.isConditional c = true)
      (h₁ : ∀ m ∈ l₁, (!t.isConditional m) = true) :
      (l₁ ++ c :: l₂).takeWhile (!t.isConditional ·) = l₁ := by
    rw [List.takeWhile_append_of_pos h₁, List.takeWhile_cons_of_neg (by simp [hc]), List.append_nil]
  constructor
  · rintro ⟨⟨l, r, h⟩, hc, hbetween⟩
    have h' : t.siblings u = (l ++ c :: between) ++ u :: r := by rw [h, List.append_assoc, List.cons_append]
    have hno : ∀ m ∈ between.reverse, (!t.isConditional m) = true := fun m hm =>
      Bool.not_eq_true' _ ▸ hbetween m (List.mem_reverse.1 hm)
    rw [preceding_of_siblings ht h', List.reverse_append, List.reverse_cons, List.append_assoc, List.singleton_append]
    exact ⟨List.find?_eq_some_iff_append.2 ⟨hc, _, _, rfl, hno⟩, htakeWhile hc hno⟩
  · rintro ⟨hfind, htake⟩
    cases hp : t.parent? u with
    | none =>
      rw [preceding, siblings_of_loose hp] at hfind
      cases hfind
    | some p =>
      obtain ⟨l, r, hs⟩ := exists_siblings ht hp
      rw [preceding_of_siblings ht hs] at hfind htake
      obtain ⟨hc, l₁, l₂, hsplit, hno⟩ := List.find?_eq_some_iff_append.1 hfind
      rw [hsplit, htakeWhile hc hno] at htake
      subst htake
      refine ⟨⟨l₂.reverse, r, ?_⟩, hc, fun m hm => ?_⟩
      · have hl : l = l₂.reverse ++ c :: between := by
          rw [← List.reverse_reverse l, hsplit]
          simp
        rw [hs, hl, List.append_assoc, List.cons_append]
      · simpa using hno m (List.mem_reverse.2 hm)

/-! ## Moving a run of children -/

theorem mem_descendants_iff (hm : m ∈ t.forest.ids) : n ∈ t.descendants m ↔ n = m ∨ n ∈ (t.below m).ids := by
  obtain ⟨x, hx⟩ := exists_find? hm
  have hfind : t.find? m = some (x.1, x.2) := hx
  rw [descendants_of_find? hfind, below, hfind, List.mem_cons]

theorem sibling_not_mem_descendants (ht : t.forest.ids.Nodup) (hm : t.parent? m = some p) (hn : t.parent? n = some p)
    (hne : n ≠ m) : n ∉ t.descendants m :=
  not_mem_descendants_of_parent ht hn hne (parent_not_mem_descendants ht hm)

theorem parent_ne (ht : t.forest.ids.Nodup) (h : t.parent? n = some p) : p ≠ n := by
  rintro rfl
  exact parent_not_mem_descendants ht h (mem_descendants_self (mem_ids_of_parent? h))

theorem Takes.refl (t : Tree) (p b : NodeId) : t.Takes t p b [] := by
  refine ⟨fun _ => rfl, (List.append_nil _).symm, ?_, fun _ _ _ => rfl⟩
  simp

theorem Takes.trans (h : t.Takes t' p b nodes) (h' : t'.Takes t'' p b nodes') :
    t.Takes t'' p b (nodes ++ nodes') := by
  refine ⟨fun m => (h'.kind m).trans (h.kind m), ?_, ?_, fun m hb hp => ?_⟩
  · rw [h'.here, h.here, List.append_assoc]
  · rw [h'.there, h.there, List.filter_filter]
    refine List.filter_congr fun m _ => ?_
    simp [Bool.and_comm]
  · rw [h'.elsewhere m hb hp, h.elsewhere m hb hp]

/-- The children `nodes` of `p` can be moved to `b` one after the other. -/
structure Movable (t : Tree) (p b : NodeId) (nodes : List NodeId) : Prop where
  numbered : t.Numbered
  target : b ∈ t.forest.ids
  apart : p ≠ b
  nodup : nodes.Nodup
  parent : ∀ n ∈ nodes, t.parent? n = some p
  outside : ∀ n ∈ nodes, b ∉ t.descendants n

theorem Movable.moved (h : t.Movable p b (n :: nodes)) :
    Moved t (t.append b n) n b (t.others n b ++ [n]) := by
  obtain ⟨x, hfind⟩ := exists_find? (mem_ids_of_parent? (h.parent n List.mem_cons_self))
  exact moved_append h.numbered (k := x.1) (c := x.2) hfind h.target (h.outside n List.mem_cons_self)

theorem Movable.takes (h : t.Movable p b (n :: nodes)) : t.Takes (t.append b n) p b [n] := by
  have hmoved := h.moved
  have hparent := h.parent n List.mem_cons_self
  have hne (m : NodeId) (hm : m ≠ p) : t.parent? n ≠ some m := fun he => hm (Option.some.inj (he.symm.trans hparent))
  refine ⟨hmoved.kind, ?_, ?_, fun m hb hp => hmoved.untouched m hb (hne m hp)⟩
  · rw [hmoved.here, others_of_parent?_ne h.numbered.nodup (hne b (Ne.symm h.apart))]
  · rw [hmoved.elsewhere p h.apart, others]
    refine List.filter_congr fun m _ => ?_
    simp

/-- When one of the nodes has been moved, so can be the others. -/
theorem Movable.tail (h : t.Movable p b (n :: nodes)) : (t.append b n).Movable p b nodes := by
  have ht := h.numbered.nodup
  have hmoved := h.moved
  have hids := (append_perm ht b n).map Node.id
  have hnumbered := h.numbered.append b n
  obtain ⟨hnot, hnodup⟩ := List.nodup_cons.1 h.nodup
  obtain ⟨hn, hparent⟩ := List.forall_mem_cons.1 h.parent
  have hlater : ∀ m ∈ nodes, (t.append b n).parent? m = some p := by
    intro m hm
    rw [← mem_children_iff hnumbered.nodup, hmoved.elsewhere p h.apart, others, List.mem_filter]
    refine ⟨(mem_children_iff ht).2 (hparent m hm), decide_eq_true fun he => hnot (he ▸ hm)⟩
  refine ⟨hnumbered, hids.mem_iff.2 h.target, h.apart, hnodup, hlater, fun m hm hb => ?_⟩
  have hbelow : (t.append b n).below m = t.below m := by
    refine hmoved.subtrees m (fun hmem => ?_) (h.outside m (List.mem_cons_of_mem n hm))
    exact parent_not_mem_descendants ht (hparent m hm) (parent_mem_descendants ht hn hmem)
  refine h.outside m (List.mem_cons_of_mem n hm) ?_
  rw [mem_descendants_iff (mem_ids_of_parent? (hlater m hm)), hbelow] at hb
  exact (mem_descendants_iff (mem_ids_of_parent? (hparent m hm))).2 hb

theorem Movable.appendAll (h : t.Movable p b nodes) : t.Takes (t.appendAll b nodes) p b nodes := by
  induction nodes generalizing t with
  | nil => exact Takes.refl t p b
  | cons n nodes ih => exact h.takes.trans (ih h.tail)

/-- Whatever child of the nearest conditional is chosen, the siblings up to the node can be moved to it. -/
theorem Nearest.movable (h : t.Nearest u between c) (ht : t.Numbered) (hb : b ∈ t.children c) :
    ∃ p, t.parent? u = some p ∧ t.Movable p b (between ++ [u]) := by
  obtain ⟨l, r, hs⟩ := h.siblings
  obtain ⟨p, hp⟩ := exists_parent_of_siblings hs
  have hnodup := nodup_siblings ht.nodup u
  have hsub : (c :: (between ++ [u])).Sublist (t.siblings u) := by
    have hs' : t.siblings u = l ++ (c :: (between ++ [u]) ++ r) := by simp [hs]
    rw [hs']
    exact (List.sublist_append_left ..).trans (List.sublist_append_right ..)
  obtain ⟨hc, hnodes⟩ := List.nodup_cons.1 (hsub.nodup hnodup)
  have hparent : ∀ m ∈ c :: (between ++ [u]), t.parent? m = some p := fun m hm =>
    (mem_children_iff ht.nodup).1 (siblings_of_parent? hp ▸ hsub.subset hm)
  obtain ⟨hpc, hparent⟩ := List.forall_mem_cons.1 hparent
  have hpb : t.parent? b = some c := (mem_children_iff ht.nodup).1 hb
  have hbelow : b ∈ t.descendants c :=
    mem_descendants_of_mem_children ht.nodup (mem_descendants_self (mem_ids_of_parent? hpc)) hb
  have hout := parent_not_mem_descendants ht.nodup hpc
  refine ⟨p, hp, ht, mem_ids_of_parent? hpb, fun he => hout (he ▸ hbelow), hnodes, hparent, fun n hn => ?_⟩
  -- The target is below the conditional, which is not below its siblings.
  have hnc : c ∉ t.descendants n :=
    sibling_not_mem_descendants ht.nodup (hparent n hn) hpc fun he => hc (he ▸ hn)
  refine not_mem_descendants_of_parent ht.nodup hpb (fun he => ?_) hnc
  exact parent_ne ht.nodup hpc (Option.some.inj ((he ▸ hparent n hn).symm.trans hpb))

theorem movable_previous (ht : t.Numbered) (hs : t.siblings n = l ++ q :: n :: r) :
    ∃ p, t.parent? n = some p ∧ t.Movable p q [n] := by
  obtain ⟨p, hp⟩ := exists_parent_of_siblings hs
  have hnodup := nodup_siblings ht.nodup n
  rw [hs] at hnodup
  have hne : q ≠ n := by
    have hout := (List.nodup_cons.1 (List.nodup_append.1 hnodup).2.1).1
    exact fun he => hout (he ▸ List.mem_cons_self)
  have hpq : t.parent? q = some p := by
    rw [← mem_children_iff ht.nodup, ← siblings_of_parent? hp, hs]
    simp
  refine ⟨p, hp, ht, mem_ids_of_parent? hpq, parent_ne ht.nodup hpq, List.nodup_singleton n, ?_, ?_⟩
  · exact List.forall_mem_singleton.2 hp
  · exact List.forall_mem_singleton.2 (sibling_not_mem_descendants ht.nodup hp hpq hne)

/-! ## Branches -/

theorem hasChildren_eq_false_iff : t.hasChildren n = false ↔ t.children n = [] := by
  rw [hasChildren, children]
  cases t.below n <;> simp [isEmpty]

end Tree

namespace Handler

open HtmlTemplate.Tree

variable {s : Site} {t : Tree} {n c q b first last : NodeId} {between : List NodeId} {side : Side}
  {alone : TemplateError}

theorem join_tree_of_error (h : (join side alone n t).error ≠ none) : (join side alone n t).tree = t := by
  unfold join at h ⊢
  dsimp only at h ⊢
  split
  · rfl
  · split
    · rfl
    · simp_all

theorem join_of_no_nearest (ht : t.forest.ids.Nodup) (h : ¬ ∃ between c, t.Nearest (t.unit n) between c) :
    join side alone n t = { tree := t, error := some alone } := by
  unfold join
  cases hfind : (t.preceding (t.unit n)).find? t.isConditional with
  | none => simp only [hfind]
  | some c =>
    have hnearest := (nearest_iff ht).2 ⟨hfind, (List.reverse_reverse _).symm⟩
    exact absurd ⟨_, c, hnearest⟩ h

theorem join_of_nearest (ht : t.forest.ids.Nodup) (h : t.Nearest (t.unit n) between c) :
    join side alone n t = match side.branch alone t c with
      | .error e => { tree := t, error := some e }
      | .ok b => { tree := t.appendAll b (between ++ [t.unit n]) } := by
  obtain ⟨hfind, htake⟩ := (nearest_iff ht).1 h
  unfold join
  cases hbranch : side.branch alone t c with
  | error e => simp only [hfind, hbranch]
  | ok b => simp only [hfind, htake, hbranch, List.reverse_reverse]

theorem join_error_iff (ht : t.forest.ids.Nodup) {stuck : NodeId → Prop}
    (hstuck : ∀ c, t.isConditional c = true → ((∃ e, side.branch alone t c = .error e) ↔ stuck c)) :
    (join side alone n t).error ≠ none ↔ (¬ ∃ between c, t.Nearest (t.unit n) between c) ∨
      ∃ between c, t.Nearest (t.unit n) between c ∧ stuck c := by
  constructor
  · intro h
    by_cases hnearest : ∃ between c, t.Nearest (t.unit n) between c
    · obtain ⟨between, c, hc⟩ := hnearest
      rw [join_of_nearest ht hc] at h
      cases hbranch : side.branch alone t c with
      | error e => exact Or.inr ⟨between, c, hc, (hstuck c hc.conditional).1 ⟨e, hbranch⟩⟩
      | ok b =>
        rw [hbranch] at h
        exact absurd rfl h
    · exact Or.inl hnearest
  · rintro (hno | ⟨between, c, hc, hcstuck⟩)
    · rw [join_of_no_nearest ht hno]
      exact Option.some_ne_none alone
    · obtain ⟨e, hbranch⟩ := (hstuck c hc.conditional).2 hcstuck
      rw [join_of_nearest ht hc, hbranch]
      exact Option.some_ne_none e

theorem join_takes (ht : t.Numbered) (h : t.Nearest (t.unit n) between c) (hbranch : side.branch alone t c = .ok b)
    (hb : b ∈ t.children c) :
    ∃ p, t.parent? (t.unit n) = some p ∧ t.Takes (join side alone n t).tree p b (between ++ [t.unit n]) := by
  obtain ⟨p, hp, hmovable⟩ := h.movable ht hb
  rw [join_of_nearest ht.nodup h, hbranch]
  exact ⟨p, hp, hmovable.appendAll⟩

theorem branch_fails (hc : t.isConditional c = true) (hlast : (t.children c).getLast? = some last) :
    Side.branch alone t c .fails = .ok last := by
  rw [Side.branch, elseBranch?_of_isConditional hc, hlast]

theorem branch_fails_error_iff (hc : t.isConditional c = true) :
    (∃ e, Side.branch alone t c .fails = .error e) ↔ t.children c = [] := by
  rw [Side.branch, elseBranch?_of_isConditional hc, ← List.getLast?_eq_none_iff]
  cases (t.children c).getLast? <;> simp

theorem branch_holds (hc : t.isConditional c = true) (hfirst : (t.children c).head? = some first)
    (hlast : (t.children c).getLast? = some last) :
    Side.branch alone t c .holds = if t.children last = [] then .ok first else .error .ifAfterElse := by
  rw [Side.branch, elseBranch?_of_isConditional hc, hlast, thenBranch?_of_isConditional hc, hfirst, Option.any_some]
  by_cases hempty : t.children last = []
  · rw [if_pos hempty, hasChildren_eq_false_iff.2 hempty]
    rfl
  · have hsome : t.hasChildren last = true := by
      rw [← Bool.not_eq_false, hasChildren_eq_false_iff]
      exact hempty
    rw [if_neg hempty, hsome]
    rfl

theorem branch_holds_error_iff (hc : t.isConditional c = true) :
    (∃ e, Side.branch alone t c .holds = .error e) ↔
      t.children c = [] ∨ ∃ last, (t.children c).getLast? = some last ∧ t.children last ≠ [] := by
  by_cases hnone : t.children c = []
  · have hbranch : Side.branch alone t c .holds = .error alone := by
      simp [Side.branch, elseBranch?_of_isConditional hc, thenBranch?_of_isConditional hc, hnone]
    exact ⟨fun _ => Or.inl hnone, fun _ => ⟨alone, hbranch⟩⟩
  · have hlast := List.getLast?_eq_some_getLast hnone
    rw [branch_holds hc (List.head?_eq_some_head hnone) hlast]
    by_cases hempty : t.children ((t.children c).getLast hnone) = []
    · simp [hnone, hlast, hempty]
    · simp [hlast, hempty]

/-! ## The handlers -/

/-- What the handlers of conditions and loops do at a site whose unit is `u`. -/
structure ControlFlow (s : Site) (t : Tree) (u : NodeId) : Prop where
  unit : t.IsUnit s.node u
  /-- There is no conditional before the unit, or the nearest has no branches. -/
  otherwise_fails : (otherwise s t).error ≠ none ↔
    (¬ ∃ between c, t.Nearest u between c) ∨ ∃ between c, t.Nearest u between c ∧ t.children c = []
  /-- The same, or something stands in the last branch. -/
  condition_fails : s.parameter = none → ((condition s t).error ≠ none ↔
    (¬ ∃ between c, t.Nearest u between c) ∨ ∃ between c, t.Nearest u between c ∧
      (t.children c = [] ∨ ∃ last, (t.children c).getLast? = some last ∧ t.children last ≠ []))
  loop_fails : s.parameter = none → ((loop s t).error ≠ none ↔
    ¬ ∃ l q r, t.siblings s.node = l ++ q :: s.node :: r ∧ t.isLoop q = true)
  begins : s.parameter ≠ none → (condition s t).error = none ∧ (loop s t).error = none
  unchanged : ∀ handler ∈ [condition, otherwise, loop], (handler s t).error ≠ none → (handler s t).tree = t
  otherwise_takes : ∀ between c last, t.Nearest u between c → (t.children c).getLast? = some last →
    ∃ p, t.parent? u = some p ∧ t.Takes (otherwise s t).tree p last (between ++ [u])
  condition_takes : s.parameter = none → (condition s t).error = none → ∀ between c first, t.Nearest u between c →
    (t.children c).head? = some first →
      ∃ p, t.parent? u = some p ∧ t.Takes (condition s t).tree p first (between ++ [u])
  loop_takes : s.parameter = none → (loop s t).error = none → ∀ l q r, t.siblings s.node = l ++ q :: s.node :: r →
    ∃ p, t.parent? s.node = some p ∧ t.Takes (loop s t).tree p q [s.node]

theorem condition_of_none (h : s.parameter = none) (t : Tree) :
    condition s t = join .holds .ifAlone s.node t := by
  rw [condition, h]

theorem condition_of_some {v : AttrValue} (h : s.parameter = some v) (t : Tree) : (condition s t).error = none := by
  rw [condition, h]
  dsimp only
  split <;> rfl

theorem loop_of_some {v : AttrValue} (h : s.parameter = some v) (t : Tree) : (loop s t).error = none := by
  rw [loop, h]

theorem loop_of_previous (h : s.parameter = none) (hq : t.previousSibling? s.node = some q)
    (hloop : t.isLoop q = true) : loop s t = { tree := t.append q s.node } := by
  have hfilter : (t.previousSibling? s.node).filter t.isLoop = some q := by
    rw [Option.filter_eq_some_iff]
    exact ⟨hq, hloop⟩
  simp only [loop, h, hfilter]

theorem loop_alone (h : s.parameter = none) (hno : ¬ ∃ q, t.previousSibling? s.node = some q ∧ t.isLoop q = true) :
    loop s t = { tree := t, error := some .foreachAlone } := by
  have hfilter : (t.previousSibling? s.node).filter t.isLoop = none := by
    rw [Option.filter_eq_none_iff]
    exact fun q hq hloop => hno ⟨q, hq, hloop⟩
  simp only [loop, h, hfilter]

theorem loop_error_iff (h : s.parameter = none) :
    (loop s t).error ≠ none ↔ ¬ ∃ q, t.previousSibling? s.node = some q ∧ t.isLoop q = true := by
  constructor
  · rintro herror ⟨q, hq, hloop⟩
    rw [loop_of_previous h hq hloop] at herror
    exact herror rfl
  · intro hno
    rw [loop_alone h hno]
    exact Option.some_ne_none _

/-- At every site of every tree, in the document or beside it. -/
theorem controlFlow (ht : t.Numbered) (s : Site) : ControlFlow s t (t.unit s.node) where
  unit := isUnit_unit ht.nodup s.node
  otherwise_fails := join_error_iff ht.nodup fun _ => branch_fails_error_iff
  condition_fails h := by
    rw [condition_of_none h]
    exact join_error_iff ht.nodup fun _ => branch_holds_error_iff
  loop_fails h := by
    rw [loop_error_iff h]
    refine not_congr ⟨?_, ?_⟩
    · rintro ⟨q, hq, hloop⟩
      obtain ⟨l, r, hs⟩ := (previousSibling?_eq_some_iff ht.nodup).1 hq
      exact ⟨l, q, r, hs, hloop⟩
    · rintro ⟨l, q, r, hs, hloop⟩
      exact ⟨q, (previousSibling?_eq_some_iff ht.nodup).2 ⟨l, r, hs⟩, hloop⟩
  begins h := by
    obtain ⟨v, hv⟩ := Option.ne_none_iff_exists'.1 h
    exact ⟨condition_of_some hv t, loop_of_some hv t⟩
  unchanged := by
    rw [List.forall_mem_cons, List.forall_mem_cons, List.forall_mem_singleton]
    refine ⟨fun h => ?_, join_tree_of_error, fun h => ?_⟩
    · cases hv : s.parameter with
      | none =>
        rw [condition_of_none hv] at h ⊢
        exact join_tree_of_error h
      | some v => exact absurd (condition_of_some hv t) h
    · cases hv : s.parameter with
      | none => rw [loop_alone hv ((loop_error_iff hv).1 h)]
      | some v => exact absurd (loop_of_some hv t) h
  otherwise_takes between c last hc hlast :=
    join_takes ht hc (branch_fails hc.conditional hlast) (List.mem_of_getLast? hlast)
  condition_takes h herror between c first hc hfirst := by
    rw [condition_of_none h] at herror ⊢
    have hne : t.children c ≠ [] := fun he => by
      rw [he] at hfirst
      cases hfirst
    have hholds : Side.branch .ifAlone t c .holds = _ :=
      branch_holds hc.conditional hfirst (List.getLast?_eq_some_getLast hne)
    split at hholds
    · exact join_takes ht hc hholds (List.mem_of_head? hfirst)
    · -- With something in the last branch the handler would have failed.
      rw [join_of_nearest ht.nodup hc, hholds] at herror
      cases herror
  loop_takes h herror l q r hs := by
    have hq := (previousSibling?_eq_some_iff ht.nodup).2 ⟨l, r, hs⟩
    have hloop : t.isLoop q = true := by
      refine Classical.byContradiction fun hno => (loop_error_iff h).2 ?_ herror
      rintro ⟨q', hq', hloop⟩
      cases hq.symm.trans hq'
      exact hno hloop
    obtain ⟨p, hp, hmovable⟩ := movable_previous ht hs
    rw [loop_of_previous h hq hloop]
    exact ⟨p, hp, hmovable.appendAll⟩

/-- Beside the document, a paragraph in a loop of its own goes on with a conditional that has one branch. -/
theorem controlFlow_loose :
    let t : Tree := ⟨cons ⟨root, .document⟩ nil (tree ⟨1, .element ⟨"div", []⟩⟩
      (cons ⟨2, .conditional "$a"⟩ (tree ⟨3, .branch⟩ nil) (cons ⟨4, .text "x"⟩ nil
        (tree ⟨5, .loop "$b as $c"⟩ (tree ⟨6, .element ⟨"p", []⟩⟩ nil))))), 7, none⟩
    let s : Site := ⟨.php, 6, none⟩
    t.Numbered ∧ ControlFlow s t 5 ∧ (otherwise s t).error = none ∧ (otherwise s t).tree.children 3 = [4, 5] ∧
      (condition s t).tree.children 3 = [4, 5] ∧ (condition s (otherwise s t).tree).error = some .ifAlone ∧
      (loop s t).error = some .foreachAlone := by
  intro t s
  have ht : t.Numbered := ⟨by decide, by decide⟩
  exact ⟨ht, controlFlow ht s, by decide, by decide, by decide, by decide, by decide⟩

end Handler

end HtmlTemplate
