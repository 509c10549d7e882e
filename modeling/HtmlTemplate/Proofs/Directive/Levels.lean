import HtmlTemplate.Proofs.Chunk.Signed
import HtmlTemplate.Proofs.Directive.Script

/-! # Handlers keep blocks in order

A capture puts a block around its element; whatever else a handler does, it moves a block with all
inside it or not at all. For that the element must stand in no block when a loop or a condition is put
around it, or when it joins the one before it.
-/

namespace HtmlTemplate

open Forest Context HtmlTemplate.Tree

theorem Handler.Placed.exists_place {s : Site} {t : Tree} (h : Handler.Placed s t) :
    ∃ (ks : Context) (l : Forest Node) (a : Node) (c r loose : Forest Node) (next : NodeId)
      (marked : Option NodeId), s.node = a.id ∧ a.kind.isElement = true ∧
        t = around ks (l ++ cons a c r) loose next marked := by
  obtain ⟨ks, l, a, c, r, loose, hs, ht⟩ := h.exists_around
  refine ⟨ks, l, a, c, r, loose, t.next, t.marked, hs, ?_, ht⟩
  have hkind := kind?_at h.shaped.numbered.nodup ((congrArg Tree.forest ht).trans (around_forest ..))
  rw [← hs] at hkind
  exact h.element.of_kind? hkind

namespace Node

variable {free : List NodeId} {cs : Captures} {a : Node}

theorem sign_of_isElement (h : a.kind.isElement = true) : a.sign cs = none := by
  refine sign_eq_none ?_
  obtain ⟨e, he⟩ := Kind.exists_element h
  rw [he]
  rfl

theorem sign_of_isConditional (h : a.kind.isConditional = true) : a.sign cs = none := by
  refine sign_eq_none ?_
  cases hk : a.kind <;> rw [hk] at h <;> cases h
  rfl

theorem sign_of_isLoop (h : a.kind.isLoop = true) : a.sign cs = none := by
  refine sign_eq_none ?_
  cases hk : a.kind <;> rw [hk] at h <;> cases h
  rfl

theorem isOuter_of_mem (h : a.id ∈ free) : a.isOuter free = true := by
  simp [isOuter, h]

theorem isOuter_of_isConditional (h : a.kind.isConditional = true) : a.isOuter free = true := by
  simp [isOuter, h]

theorem isOuter_of_isLoop (h : a.kind.isLoop = true) : a.isOuter free = true := by
  simp [isOuter, h]

end Node

/-- Kinds of new nodes that neither begin or end a block nor must stand in none. -/
def Kind.isPlain (k : Kind) : Bool :=
  !k.isStatement && !k.isConditional && !k.isLoop

namespace Handler

variable {free : List NodeId} {cs : Captures} {s : Site} {t : Tree} {kind : Kind}

theorem scan_plain {next : NodeId} (hk : kind.isPlain = true) (hnew : next ∉ free)
    (st : List Bracket.Opened) : Node.scan free cs st ⟨next, kind⟩ = some st := by
  simp only [Kind.isPlain, Bool.and_eq_true, Bool.not_eq_true'] at hk
  refine Node.scan_inner (Node.sign_eq_none hk.1.1) ?_ st
  simp [Node.isOuter, hk.1.2, hk.2, hnew]

theorem isConditional_of_isPlain (hk : kind.isPlain = true) : kind.isConditional = false := by
  simp only [Kind.isPlain, Bool.and_eq_true, Bool.not_eq_true'] at hk
  exact hk.1.2

section Place

variable (hp : Placed s t) (h : (t.below root).Level free cs)

include hp h

theorem level_detach : ((t.detach s.node).below root).Level free cs := by
  have hnum := hp.shaped.numbered
  obtain ⟨ks, l, a, c, r, loose, next, marked, hs, ha, rfl⟩ := hp.exists_place
  rw [below_root] at h
  rw [hs, detach_around hnum.nodup, below_root]
  refine h.of_close.2 _ ?_
  have hout := h.of_close.1.replace (g := nil) (Node.sign_of_isElement ha) trivial fun st _ => rfl
  exact hout

theorem level_mapElement (f : Element → Element) :
    ((t.mapElement s.node f).below root).Level free cs := by
  have hnum := hp.shaped.numbered
  obtain ⟨ks, l, a, c, r, loose, next, marked, hs, ha, rfl⟩ := hp.exists_place
  rw [below_root] at h
  rw [hs, mapElement_around hnum.nodup, below_root]
  refine h.of_close.2 _ ?_
  obtain ⟨e, he⟩ := Kind.exists_element ha
  have htidy := (tidy_append.1 h.of_close.1.2).2
  have hout := h.of_close.1.replace (g := tree ⟨a.id, a.kind.mapElement f⟩ c)
    (Node.sign_of_isElement ha) ⟨htidy.1, htidy.2.1, trivial⟩ fun st hst => ?_
  · exact hout
  · have hsame : Node.scan free cs st ⟨a.id, a.kind.mapElement f⟩ = a.scan free cs st := by
      have hsign : Node.sign cs ⟨a.id, a.kind.mapElement f⟩ = none :=
        Node.sign_of_isElement (by rw [he]; rfl)
      rw [Node.scan, Node.scan, hsign, Node.sign_of_isElement ha]
      simp only [Node.isOuter, he]
      rfl
    rw [scan_tree, hsame, hst]

section New

variable (hfree : ∀ n ∈ free, n < t.next) (hk : kind.isPlain = true)

include hfree hk

theorem level_putInstead : ((putInstead s kind t).below root).Level free cs := by
  have hnum := hp.shaped.numbered
  obtain ⟨ks, l, a, c, r, loose, next, marked, hs, ha, rfl⟩ := hp.exists_place
  have hnew : next ∉ free := fun hm => Nat.lt_irrefl _ (hfree _ hm)
  rw [below_root] at h
  rw [putInstead_around hs (isConditional_of_isPlain hk) hnum, below_root]
  refine h.of_close.2 _ (h.of_close.1.replace (Node.sign_of_isElement ha) ⟨rfl, trivial, trivial⟩ ?_)
  intro st _
  rw [scan_tree, scan_plain hk hnew]

theorem level_putBefore : ((putBefore s kind t).below root).Level free cs := by
  have hnum := hp.shaped.numbered
  obtain ⟨ks, l, a, c, r, loose, next, marked, hs, ha, rfl⟩ := hp.exists_place
  have hnew : next ∉ free := fun hm => Nat.lt_irrefl _ (hfree _ hm)
  rw [below_root] at h
  rw [putBefore_around hs (isConditional_of_isPlain hk) hnum, below_root]
  refine h.of_close.2 _ ?_
  have htidy := (tidy_append.1 h.of_close.1.2).2
  have hout := h.of_close.1.replace (g := tree ⟨next, kind⟩ nil ++ tree a c) (Node.sign_of_isElement ha)
    (tidy_append.2 ⟨⟨rfl, trivial, trivial⟩, htidy.1, htidy.2.1, trivial⟩) fun st hst => ?_
  · rw [Forest.append_assoc, tree_append a] at hout
    exact hout
  · rw [scan_append, scan_tree, scan_plain hk hnew, Option.bind_some, scan_tree, hst]

theorem level_putBelow : ((putBelow s kind t).below root).Level free cs := by
  have hnum := hp.shaped.numbered
  obtain ⟨ks, l, a, c, r, loose, next, marked, hs, ha, rfl⟩ := hp.exists_place
  have hnew : next ∉ free := fun hm => Nat.lt_irrefl _ (hfree _ hm)
  rw [below_root] at h
  rw [putBelow_around hs (isConditional_of_isPlain hk) hnum, below_root]
  refine h.of_close.2 _ ?_
  have hbelow : (tree ⟨next, kind⟩ nil).scan free cs [] = some [] := by
    rw [scan_tree, scan_plain hk hnew]
  have hout := h.of_close.1.replace (g := tree a (tree ⟨next, kind⟩ nil)) (Node.sign_of_isElement ha)
    ⟨hbelow, ⟨rfl, trivial, trivial⟩, trivial⟩ fun st hst => ?_
  · exact hout
  · rw [scan_tree, hst]

end New

omit hp in
theorem level_declareImport (ht : t.Shaped) : ((declareImport s t).below root).Level free cs := by
  cases hv : s.parameter with
  | none =>
    rw [declareImport, hv]
    exact h
  | some v =>
    obtain ⟨content, loose, -, ht'⟩ := ht.exists_content
    rw [ht', below_root] at h
    rw [ht', declareImport_around hv (ht' ▸ ht.numbered), below_root, close_nil]
    exact (Level.tree (Node.sign_eq_none rfl) level_nil).append h

/-- Once its import is declared, an element may be removed. -/
theorem level_resource (hfree : ∀ n ∈ free, n < t.next) {gone : Tree → Tree}
    (hgone : ∀ t', Placed s t' → (t'.below root).Level free cs → (∀ n ∈ free, n < t'.next) →
      ((gone t').below root).Level free cs) :
    ((if isResource (declareImport s t) s.node then gone (declareImport s t)
      else declareImport s t).below root).Level free cs := by
  have hp' := (sound_importSteps hp).2
  have hnext := next_le_follow t (importSteps s t)
  rw [follow_importSteps] at hp' hnext
  have hlevel := level_declareImport (s := s) h hp.shaped
  split
  · exact hgone _ hp' hlevel fun n hn => Nat.lt_of_lt_of_le (hfree n hn) hnext
  · exact hlevel

/-! ## Loops and conditions -/

section Wrap

variable (hmem : s.node ∈ free)

include hmem

theorem level_loop : ((loop s t).tree.below root).Level free cs := by
  have hnum := hp.shaped.numbered
  obtain ⟨ks, l, a, c, r, loose, next, marked, hs, ha, rfl⟩ := hp.exists_place
  have hsign : a.sign cs = none := Node.sign_of_isElement ha
  have hout : a.isOuter free = true := Node.isOuter_of_mem (hs ▸ hmem)
  rw [below_root] at h
  cases hv : s.parameter with
  | some v =>
    obtain ⟨hl, hc, hr⟩ := h.of_close.1.split hsign hout
    rw [loop_some hs hnum hv, below_root]
    have hloop : (⟨next, .loop s.code⟩ : Node).sign cs = none := Node.sign_eq_none rfl
    exact h.of_close.2 _ (hl.append ((Level.tree hloop (Level.tree hsign hc)).append hr))
  | none =>
    cases hprev : ((around ks (l ++ cons a c r) loose next marked).previousSibling? s.node).filter
        (around ks (l ++ cons a c r) loose next marked).isLoop with
    | none =>
      rw [loop, hv]
      simp only [hprev, below_root]
      exact h
    | some p =>
      rw [hs] at hprev
      obtain ⟨l, b, m, rfl, rfl, hb⟩ := exists_loop_before hnum hprev
      rw [Forest.append_assoc, tree_append] at hnum h ⊢
      obtain ⟨hl, hm, hrest⟩ := h.of_close.1.split (Node.sign_of_isLoop hb) (Node.isOuter_of_isLoop hb)
      obtain ⟨-, hc, hr⟩ := Level.split (l := nil) hrest hsign hout
      rw [loop_none hs hv hb hnum, below_root]
      exact h.of_close.2 _ (hl.append
        ((Level.tree (Node.sign_of_isLoop hb) (hm.append (Level.tree hsign hc))).append hr))

theorem level_join (side : Side) (alone : TemplateError) :
    ((join side alone s.node t).tree.below root).Level free cs := by
  have hnum := hp.shaped.numbered
  obtain ⟨ks, l, u, d, r, loose, hu, -, ht⟩ := hp.exists_unit
  have hunit : u.sign cs = none ∧ u.isOuter free = true := by
    have hkind := kind?_at hnum.nodup ((congrArg Tree.forest ht).trans (around_forest ..))
    rcases climbLoops_mem t s.node (t.ancestors s.node) with hself | ⟨-, hloop⟩
    · rw [← unit, hu] at hself
      exact ⟨Node.sign_of_isElement ((hself ▸ hp.element).of_kind? hkind),
        Node.isOuter_of_mem (hself ▸ hmem)⟩
    · rw [← unit, hu] at hloop
      have hloop' := (isKind_of_any hloop).of_kind? hkind
      exact ⟨Node.sign_of_isLoop hloop', Node.isOuter_of_isLoop hloop'⟩
  rcases exists_conditional l with hl | ⟨l, b, g, m, rfl, hb, hm⟩
  · rw [ht] at hnum hu h ⊢
    rw [join_alone hnum hu hl]
    exact h
  · rw [Forest.append_assoc, cons_append] at ht
    obtain ⟨k₁, k₂, c₁, c₂, rfl, h₁, h₂⟩ := hp.shaped.exists_branches
      ((congrArg Tree.forest ht).trans (around_forest ..)) hb
    rw [ht, below_root] at h
    rw [ht] at hnum hu
    have hbsign : b.sign cs = none := Node.sign_of_isConditional hb
    have hsign₁ : k₁.sign cs = none := Node.sign_eq_none (by rw [h₁]; rfl)
    have hsign₂ : k₂.sign cs = none := Node.sign_eq_none (by rw [h₂]; rfl)
    obtain ⟨hl, ⟨-, hc₁, hc₁', hc₂, hc₂', -⟩, hrest⟩ :=
      h.of_close.1.split hbsign (Node.isOuter_of_isConditional hb)
    obtain ⟨hm', hd, hr⟩ := hrest.split hunit.1 hunit.2
    -- What is moved is in order by itself, since the conditional and the unit stand in no block.
    have hmoved := hm'.append (Level.tree hunit.1 hd)
    have hout : ∀ {f₁ f₂ : Forest Node}, f₁.Level free cs → f₂.Level free cs →
        (close ks (l ++ cons b (cons k₁ f₁ (tree k₂ f₂)) r)).Level free cs := fun hf₁ hf₂ =>
      h.of_close.2 _ (hl.append ((Level.tree hbsign
        ((Level.tree hsign₁ hf₁).append (Level.tree hsign₂ hf₂))).append hr))
    rw [ht]
    cases side with
    | holds =>
      by_cases hc : c₂ = nil
      · rw [join_holds hnum hb hm hu hc, below_root]
        exact hout (Level.append ⟨hc₁, hc₁'⟩ hmoved) ⟨hc₂, hc₂'⟩
      · rw [join_holds_error hnum hb hm hu hc, below_root]
        exact h
    | fails =>
      rw [join_fails hnum hb hm hu, below_root]
      exact hout ⟨hc₁, hc₁'⟩ (Level.append ⟨hc₂, hc₂'⟩ hmoved)

theorem level_condition : ((condition s t).tree.below root).Level free cs := by
  cases hv : s.parameter with
  | none =>
    rw [condition, hv]
    exact level_join hp h hmem _ _
  | some v =>
    have hnum := hp.shaped.numbered
    obtain ⟨ks, l, a, c, r, loose, next, marked, hs, ha, rfl⟩ := hp.exists_place
    have hsign : a.sign cs = none := Node.sign_of_isElement ha
    rw [below_root] at h
    obtain ⟨hl, hc, hr⟩ := h.of_close.1.split hsign (Node.isOuter_of_mem (hs ▸ hmem))
    rw [condition_some hs hnum hv, below_root]
    have hnew (n : NodeId) (k : Kind) (hk : k.isStatement = false) : Node.sign cs ⟨n, k⟩ = none :=
      Node.sign_eq_none hk
    have hbranches := (Level.tree (hnew (next + 1) .branch rfl) (Level.tree hsign hc)).append
      (Level.tree (hnew (next + 2) .branch rfl) level_nil)
    exact h.of_close.2 _ (hl.append ((Level.tree (hnew next (.conditional s.code) rfl) hbranches).append hr))

end Wrap

end Place

/-! ## Captures -/

section Capture

variable {ks : Context} {l c r loose : Forest Node} {a : Node} {next : NodeId} {marked : Option NodeId}

theorem capture_around (helper : Helper) (hs : s.node = a.id)
    (ht : (around ks (l ++ cons a c r) loose next marked).Numbered) :
    (capture helper s (around ks (l ++ cons a c r) loose next marked)).tree =
      around ks (l ++ ((tree ⟨next, .code (Fragment.statement (call s helper))⟩ nil ++ (tree a c ++
        tree ⟨next + 1, .code (Fragment.statement (s.dialect.call .endBlock []))⟩ nil)) ++ r))
        loose (next + 2) marked := by
  refine (putAround_around hs rfl ht rfl).trans ?_
  simp only [tree_append, cons_append]

theorem sign_append_of_lt {m : NodeId} (h : a.id < m) : a.sign (cs ++ [(m, m + 1)]) = a.sign cs := by
  have hfst : m ≠ a.id := Nat.ne_of_gt h
  have hsnd : m + 1 ≠ a.id := Nat.ne_of_gt (Nat.lt_succ_of_lt h)
  simp [Node.sign, List.find?_append, hfst, hsnd]

theorem sign_begin {m : NodeId} (hcs : ∀ p ∈ cs, p.1 < m ∧ p.2 < m) (hk : kind.isStatement = true) :
    Node.sign (cs ++ [(m, m + 1)]) ⟨m, kind⟩ = some (.beginBlock m) := by
  have hnone : cs.find? (·.1 = m) = none := by
    refine List.find?_eq_none.2 fun p hp hm => ?_
    exact Nat.ne_of_lt (hcs p hp).1 (of_decide_eq_true hm)
  simp [Node.sign, hk, List.find?_append, hnone]

theorem sign_end {m : NodeId} (hcs : ∀ p ∈ cs, p.1 < m ∧ p.2 < m) (hk : kind.isStatement = true) :
    Node.sign (cs ++ [(m, m + 1)]) ⟨m + 1, kind⟩ = some (.endBlock m) := by
  have hnone (f : NodeId × NodeId → NodeId) (hf : ∀ p ∈ cs, f p < m) :
      cs.find? (f · = m + 1) = none := by
    refine List.find?_eq_none.2 fun p hp hm => ?_
    exact Nat.ne_of_lt (Nat.lt_succ_of_lt (hf p hp)) (of_decide_eq_true hm)
  simp [Node.sign, hk, List.find?_append, hnone Prod.fst fun p hp => (hcs p hp).1,
    hnone Prod.snd fun p hp => (hcs p hp).2]

/-- A capture puts a new block around its element, which from then on stands in a block. -/
theorem level_capture (helper : Helper) (hp : Placed s t) (h : (t.below root).Level free cs)
    (hcs : ∀ p ∈ cs, p.1 < t.next ∧ p.2 < t.next) :
    ((capture helper s t).tree.below root).Level (free.filter (· ≠ s.node))
      (cs ++ [(t.next, t.next + 1)]) := by
  have hnum := hp.shaped.numbered
  obtain ⟨ks, l, a, c, r, loose, next, marked, hs, ha, rfl⟩ := hp.exists_place
  have hnext : (around ks (l ++ cons a c r) loose next marked).next = next := rfl
  rw [hnext] at hcs ⊢
  rw [below_root] at h
  rw [capture_around helper hs hnum, below_root]
  have hold : (close ks (l ++ cons a c r)).Level (free.filter (· ≠ s.node))
      (cs ++ [(next, next + 1)]) := by
    refine h.congr (List.filter_subset_self free) fun x hx => sign_append_of_lt (hnum.bound x.id ?_)
    rw [ids_around]
    exact List.mem_cons_of_mem _ (List.mem_append_left _ (List.mem_map_of_mem hx))
  have htidy := (tidy_append.1 hold.of_close.1.2).2
  refine hold.of_close.2 _ (hold.of_close.1.replace (Node.sign_of_isElement ha) ?_ fun st _ => ?_)
  · exact tidy_append.2 ⟨⟨rfl, trivial, trivial⟩,
      tidy_append.2 ⟨⟨htidy.1, htidy.2.1, trivial⟩, rfl, trivial, trivial⟩⟩
  · have hinner : a.isOuter (free.filter (· ≠ s.node)) = false := by
      obtain ⟨e, he⟩ := Kind.exists_element ha
      simp [Node.isOuter, he, hs, Kind.isConditional, Kind.isLoop]
    have hbegin : Node.scan (free.filter (· ≠ s.node)) (cs ++ [(next, next + 1)]) st
        ⟨next, .code (Fragment.statement (call s helper))⟩ = some (.block next :: st) := by
      rw [Node.scan, sign_begin hcs rfl]
      rfl
    have hend : Node.scan (free.filter (· ≠ s.node)) (cs ++ [(next, next + 1)]) (.block next :: st)
        ⟨next + 1, .code (Fragment.statement (s.dialect.call .endBlock []))⟩ = some st := by
      rw [Node.scan, sign_end hcs rfl]
      simp [Bracket.step]
    rw [scan_append, scan_tree, hbegin, Option.bind_some, scan_append, scan_tree,
      Node.scan_inner (Node.sign_of_isElement ha) hinner, Option.bind_some, scan_tree, hend]

end Capture

end Handler

end HtmlTemplate
