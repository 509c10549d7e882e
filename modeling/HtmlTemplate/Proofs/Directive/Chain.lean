import HtmlTemplate.Dialect.Php
import HtmlTemplate.Proofs.Directive.Pieces

/-! # Chains of conditions in a pass

A pass comes to siblings that are pieces of chains from left to right. At each of them the siblings
behind it stand as `arrange` says, with the last segment still open (`settles_segment`), so that they
all stand so in the end. The pass succeeds if and only if the pieces are chained.
-/

namespace HtmlTemplate

open Forest Context HtmlTemplate.Tree

/-! ## Units -/

/-- One tree that is no conditional. -/
def Piece.IsUnit (x : Piece) : Prop :=
  ∃ (u : Node) (e : Forest Node), x.unit = tree u e ∧ u.kind.isConditional = false

theorem roots_units {xs : List Piece} (h : ∀ x ∈ xs, x.IsUnit) :
    ∀ y ∈ (units xs).roots, y.kind.isConditional = false := by
  induction xs with
  | nil => exact List.forall_mem_nil _
  | cons x xs ih =>
    rw [List.forall_mem_cons] at h
    obtain ⟨⟨u, e, hunit, hu⟩, hxs⟩ := h
    rw [units, hunit, roots_append]
    exact List.forall_mem_append.2 ⟨List.forall_mem_singleton.2 hu, ih hxs⟩

theorem units_eq_nil_iff {xs : List Piece} (h : ∀ x ∈ xs, x.IsUnit) : units xs = nil ↔ xs = [] := by
  cases xs with
  | nil => exact iff_of_true rfl rfl
  | cons x xs =>
    obtain ⟨u, e, hunit, -⟩ := h x List.mem_cons_self
    rw [units, hunit]
    exact iff_of_false (by simp [tree]) (List.cons_ne_nil _ _)

namespace Registry

/-- Only the nodes at the top of a forest have directives. -/
def Shallow (r : Registry) : Forest Node → Prop
  | nil => True
  | cons _ c f => r.pending c = 0 ∧ Shallow r f

section Settle

variable {lead : String} {d : Dialect} {next next' : NodeId} {a : Node}
  {c f g l before loose : Forest Node} {x : Piece} {xs : List Piece} {ks : Context}
  {marked : Option NodeId} {t t' : Tree} {P : Prop} {s : Segment}

theorem isUnit_piece (hpiece : (standard lead).piece? d next a c = some (x, next')) : x.IsUnit := by
  obtain ⟨-, ⟨k, hk, hunit⟩ | ⟨m, b, k, hunit⟩ | ⟨-, -, m, m', b, test, k, hunit⟩⟩ :=
    unit_cases hpiece
  · exact ⟨_, _, hunit, hk⟩
  · exact ⟨_, _, hunit, rfl⟩
  · exact ⟨_, _, hunit, rfl⟩

theorem exists_piece (h : (standard lead).pieces? d next (cons a c f) = some xs) :
    ∃ x next' ys, (standard lead).piece? d next a c = some (x, next') ∧
      (standard lead).pieces? d next' f = some ys ∧ xs = x :: ys := by
  rw [pieces?] at h
  cases hpiece : (standard lead).piece? d next a c with
  | none =>
    rw [hpiece] at h
    cases h
  | some y =>
    obtain ⟨x, next'⟩ := y
    rw [hpiece] at h
    obtain ⟨ys, hys, rfl⟩ := Option.map_eq_some_iff.1 h
    exact ⟨x, next', ys, rfl, hys, rfl⟩

/-- The walk through the siblings `f` leaves `g` at its level if `P` holds, and fails if not. -/
def Settles (lead : String) (d : Dialect) (ks : Context) (loose : Forest Node) (marked : Option NodeId)
    (P : Prop) (f : Forest Node) (t : Tree) (g : Forest Node) : Prop :=
  (P → ∃ next, (standard lead).Goes d (f.preorder.length + (standard lead).pending f)
      (f ++ rest ks).front? t (rest ks).front? (around ks g loose next marked) ∧
        (around ks g loose next marked).Numbered) ∧
    (¬ P → (standard lead).Stops d (f ++ rest ks).front? t)

theorem Settles.step
    (hgoes : (standard lead).Goes d (1 + c.preorder.length + (standard lead).pending (tree a nil))
      (some a.id) t (f ++ rest ks).front? t')
    (h : Settles lead d ks loose marked P f t' g) :
    Settles lead d ks loose marked P (cons a c f) t g := by
  refine ⟨fun hP => ?_, fun hP => hgoes.stops (h.2 hP)⟩
  obtain ⟨next, hrest, hnum⟩ := h.1 hP
  refine ⟨next, (hgoes.trans hrest).mono ?_, hnum⟩
  rw [pending_cons, preorder_cons, List.length_cons, List.length_append]
  omega

theorem Settles.stop (hstops : (standard lead).Stops d (f ++ rest ks).front? t) (hP : ¬ P) :
    Settles lead d ks loose marked P f t g :=
  ⟨fun h => absurd h hP, fun _ => hstops⟩

/-- With a segment open behind it, the walk closes it and arranges the segments that follow. -/
theorem settles_segment (hks : ∀ k ∈ ks.head?, k.node.kind.isLoop = false)
    (hpieces : (standard lead).pieces? d next f = some xs) (hf : (standard lead).Shallow f)
    (hs : s.InOrder) (hunits : ∀ y ∈ s.others, y.IsUnit)
    (ht : (around ks (before ++ (s.forest ++ f)) loose next marked).Numbered) :
    Settles lead d ks loose marked
      ((s.extend (segments xs).1).InOrder ∧ ∀ u ∈ (segments xs).2, u.InOrder) f
      (around ks (before ++ (s.forest ++ f)) loose next marked)
      (before ++ ((s.extend (segments xs).1).forest ++ Segment.forests (segments xs).2)) := by
  -- By induction on what is ahead: `s` grows by each piece until the next condition begins, and then
  -- all of it is behind and becomes part of `before`.
  induction f generalizing xs next s before with
  | nil =>
    cases hpieces
    refine ⟨fun _ => ⟨next, ?_, ?_⟩, fun hnot => absurd ⟨?_, List.forall_mem_nil _⟩ hnot⟩
    · rw [segments, Segment.extend_nil]
      exact Goes.refl
    · rw [segments, Segment.extend_nil]
      exact ht
    · rw [segments, Segment.extend_nil]
      exact hs
  | cons a c f _ ih =>
    obtain ⟨x, next', ys, hpiece, hys, rfl⟩ := exists_piece hpieces
    obtain ⟨hc, hf⟩ := hf
    have hunits' : ∀ y ∈ (s.add x).others, y.IsUnit :=
      List.forall_mem_append.2 ⟨hunits, List.forall_mem_singleton.2 (isUnit_piece hpiece)⟩
    have htrailing : ∀ y ∈ (units s.trailing).roots, y.kind.isConditional = false :=
      roots_units fun y hy => hunits y (s.trailing_subset hy)
    have hlevel : before ++ (s.forest ++ cons a c f) =
        before ++ (conditional s.number s.test (s.first ++ units s.holding) (units s.failing) ++
          units s.trailing) ++ cons a c f := (Forest.append_assoc ..).symm
    cases hrole : x.role with
    | start number test =>
      have hP : ((s.extend (segments (x :: ys)).1).InOrder ∧
          ∀ u ∈ (segments (x :: ys)).2, u.InOrder) =
            ((Segment.extend ⟨number, test, x.unit, []⟩ (segments ys).1).InOrder ∧
              ∀ u ∈ (segments ys).2, u.InOrder) := by
        rw [segments_start hrole, Segment.extend_nil, List.forall_mem_cons]
        exact propext (and_iff_right hs)
      rw [hP, segments_start hrole, Segment.extend_nil, Segment.forests]
      rw [← Forest.append_assoc before s.forest (cons a c f)] at ht ⊢
      obtain ⟨hgoes, hnum⟩ := goes_start hpiece ht hrole hc
      rw [← Segment.forest_begin] at hgoes hnum
      have hbegin : Segment.InOrder ⟨number, test, x.unit, []⟩ := List.Pairwise.nil
      have hrest := ih hys hf hbegin (List.forall_mem_nil _) hnum
      rw [Forest.append_assoc before s.forest (_ ++ Segment.forests _)] at hrest
      exact hrest.step hgoes
    | holds =>
      rw [segments_other (by simp [hrole]), Segment.extend_cons]
      rw [hlevel] at ht ⊢
      -- A bare `if` behind an `else` is the one way in which a segment gets out of order.
      by_cases hfailing : s.failing = []
      · obtain ⟨hgoes, hnum⟩ := goes_holds hpiece ht hks htrailing hrole (by rw [hfailing]; rfl) hc
        rw [← Segment.forest_add_holds hrole hfailing] at hgoes hnum
        have hadd : (s.add x).InOrder :=
          Segment.inOrder_add.2 ⟨hs, fun _ => hs.failing_eq_nil_iff.1 hfailing⟩
        exact (ih hys hf hadd hunits' hnum).step hgoes
      · have hne : units s.failing ≠ nil :=
          mt (units_eq_nil_iff fun y hy => hunits y (s.failing_subset hy)).1 hfailing
        refine Settles.stop (stops_holds hpiece ht hks htrailing hrole hne) fun hP => hfailing ?_
        exact hs.failing_eq_nil_iff.2 ((Segment.inOrder_add.1 hP.1.of_extend).2 hrole)
    | fails =>
      rw [segments_other (by simp [hrole]), Segment.extend_cons]
      rw [hlevel] at ht ⊢
      obtain ⟨hgoes, hnum⟩ := goes_fails hpiece ht hks htrailing hrole hc
      rw [← Segment.forest_add_fails hrole] at hgoes hnum
      exact (ih hys hf (Segment.inOrder_add.2 ⟨hs, by simp [hrole]⟩) hunits' hnum).step hgoes
    | plain =>
      rw [segments_other (by simp [hrole]), Segment.extend_cons]
      rw [hlevel] at ht ⊢
      obtain ⟨hgoes, hnum⟩ := goes_plain hpiece ht hrole hc
      have harranged : before ++ (conditional s.number s.test (s.first ++ units s.holding)
          (units s.failing) ++ units s.trailing) ++ (x.unit ++ f) =
            before ++ ((s.add x).forest ++ f) := by
        rw [Segment.forest_add_plain hrole, Segment.forest]
        simp only [Forest.append_assoc]
      rw [harranged] at hgoes hnum
      exact (ih hys hf (Segment.inOrder_add.2 ⟨hs, by simp [hrole]⟩) hunits' hnum).step hgoes

/-- Before the first condition begins, plain pieces are passed by. -/
theorem settles_chain (hks : ∀ k ∈ ks.head?, k.node.kind.isLoop = false)
    (hpieces : (standard lead).pieces? d next f = some xs) (hf : (standard lead).Shallow f)
    (hl : ∀ y ∈ l.roots, y.kind.isConditional = false)
    (ht : (around ks (l ++ f) loose next marked).Numbered) :
    Settles lead d ks loose marked (Chained xs) f (around ks (l ++ f) loose next marked)
      (l ++ arrange xs) := by
  induction f generalizing xs next l with
  | nil =>
    cases hpieces
    have hchained : Chained [] := ⟨List.forall_mem_nil _, List.forall_mem_nil _⟩
    exact ⟨fun _ => ⟨next, Goes.refl, ht⟩, fun hnot => absurd hchained hnot⟩
  | cons a c f _ ih =>
    obtain ⟨x, next', ys, hpiece, hys, rfl⟩ := exists_piece hpieces
    obtain ⟨hc, hf⟩ := hf
    cases hrole : x.role with
    | start number test =>
      have hP : Chained (x :: ys) =
          ((Segment.extend ⟨number, test, x.unit, []⟩ (segments ys).1).InOrder ∧
            ∀ u ∈ (segments ys).2, u.InOrder) := by
        rw [Chained, segments_start hrole, List.forall_mem_cons]
        exact propext (and_iff_right (List.forall_mem_nil _))
      obtain ⟨hgoes, hnum⟩ := goes_start hpiece ht hrole hc
      rw [← Segment.forest_begin] at hgoes hnum
      have hbegin : Segment.InOrder ⟨number, test, x.unit, []⟩ := List.Pairwise.nil
      rw [hP, arrange, segments_start hrole]
      exact (settles_segment hks hys hf hbegin (List.forall_mem_nil _) hnum).step hgoes
    | holds =>
      have hstops := stops_alone hpiece ht (Or.inl hrole) hks hl
      refine Settles.stop hstops fun hchained => ?_
      rw [Chained, segments_other (by simp [hrole]), List.forall_mem_cons, hrole] at hchained
      cases hchained.1.1
    | fails =>
      have hstops := stops_alone hpiece ht (Or.inr hrole) hks hl
      refine Settles.stop hstops fun hchained => ?_
      rw [Chained, segments_other (by simp [hrole]), List.forall_mem_cons, hrole] at hchained
      cases hchained.1.1
    | plain =>
      have hP : Chained (x :: ys) = Chained ys := by
        rw [Chained, Chained, segments_other (by simp [hrole]), List.forall_mem_cons, and_assoc]
        exact propext (and_iff_right hrole)
      obtain ⟨u, e, hunit, hu⟩ := isUnit_piece hpiece
      have hl' : ∀ y ∈ (l ++ x.unit).roots, y.kind.isConditional = false := by
        rw [roots_append, hunit]
        exact List.forall_mem_append.2 ⟨hl, List.forall_mem_singleton.2 hu⟩
      obtain ⟨hgoes, hnum⟩ := goes_plain hpiece ht hrole hc
      rw [← Forest.append_assoc] at hgoes hnum
      have hrest := ih hys hf hl' hnum
      rw [Forest.append_assoc l x.unit (arrange ys)] at hrest
      rw [hP, arrange, segments_other (by simp [hrole]), units, Forest.append_assoc x.unit]
      exact hrest.step hgoes

end Settle

/-! ## A whole document -/

theorem pending_rest_le (r : Registry) (ks : Context) : r.pending (rest ks) ≤ r.pending (close ks nil) := by
  induction ks with
  | nil => exact Nat.le_refl _
  | cons k ks ih =>
    rw [rest_cons, close_cons, pending_append, pending_close, pending_append, pending_cons]
    omega

theorem run_around {lead : String} {d : Dialect} {ks : Context} {f : Forest Node} {next : NodeId}
    {xs : List Piece} (hks : ∀ k ∈ ks.head?, k.node.kind.isLoop = false)
    (hquiet : (standard lead).pending (close ks nil) = 0)
    (hpieces : (standard lead).pieces? d next f = some xs) (hf : (standard lead).Shallow f)
    (ht : (around ks f nil next none).Numbered) :
    (((standard lead).run d (around ks f nil next none)).error = none ↔ Chained xs) ∧
      (Chained xs → ∃ next', ((standard lead).run d (around ks f nil next none)).tree =
        around ks (arrange xs) nil next' none ∧ (around ks (arrange xs) nil next' none).Numbered) := by
  have hinto := goes_into (r := standard lead) (d := d) ht hquiet
  have hsettles : Settles lead d ks nil none (Chained xs) f (around ks f nil next none) (arrange xs) :=
    settles_chain (l := nil) hks hpieces hf (List.forall_mem_nil _) ht
  have hcursor : (around ks f nil next none).firstChild? root = (close ks f).front? := by
    rw [firstChild?, below_root]
    rfl
  have hnodes : (around ks f nil next none).forest.preorder.length =
      (leading ks).length + f.preorder.length + (rest ks).preorder.length + 1 := by
    have hids := congrArg List.length (ids_close ks f)
    simp only [ids, List.length_append, List.length_map] at hids
    rw [around, preorder_cons, preorder_nil, List.append_nil, List.length_cons, hids]
    omega
  have hcalls : (standard lead).pending (around ks f nil next none).forest =
      (standard lead).pending f := by
    rw [around, pending_cons, pending_close, hquiet]
    simp [tree, pending]
  have hlimit := le_visitLimit (standard lead) (around ks f nil next none)
  rw [hnodes, hcalls] at hlimit
  unfold run
  rw [hcursor]
  -- Only the bound on the visits matters; their number itself is too large to compute with.
  generalize (standard lead).visitLimit (around ks f nil next none) = visits at hlimit ⊢
  have hfinish (hchained : Chained xs) : ∃ next',
      ((standard lead).visit d visits (close ks f).front? (around ks f nil next none)).tree =
          around ks (arrange xs) nil next' none ∧
        ((standard lead).visit d visits (close ks f).front? (around ks f nil next none)).error = none ∧
        (around ks (arrange xs) nil next' none).Numbered := by
    obtain ⟨next', hlevel, hnum⟩ := hsettles.1 hchained
    have hahead : Ahead (around ks (arrange xs) nil next' none) (rest ks ++ nil) :=
      ⟨ks, arrange xs, nil, nil, next', none, by rw [Forest.append_nil], (Forest.append_nil _).symm⟩
    have hrest := goes_quiet (r := standard lead) (d := d) hnum hahead
      (Nat.le_zero.1 (hquiet ▸ pending_rest_le _ ks))
    rw [Forest.append_nil] at hrest
    have hall := (hinto.trans hlevel).trans hrest
    obtain ⟨htree, herror⟩ := hall.finish (show _ ≤ visits by omega)
    exact ⟨next', htree, herror, hnum⟩
  refine ⟨⟨fun herror => ?_, fun hchained => ?_⟩, fun hchained => ?_⟩
  · by_contra hnot
    exact (hinto.stops (hsettles.2 hnot)).error visits herror
  · obtain ⟨next', -, herror, -⟩ := hfinish hchained
    exact herror
  · obtain ⟨next', htree, -, hnum⟩ := hfinish hchained
    exact ⟨next', htree, hnum⟩

/-! ## Where the directives are -/

theorem pending_eq_zero_iff {r : Registry} {f : Forest Node} :
    r.pending f = 0 ↔ ∀ x ∈ f.preorder, ∀ e, x.kind = .element e → r.carried e = [] := by
  induction f with
  | nil => exact iff_of_true rfl (List.forall_mem_nil _)
  | cons a c f ihc ihf =>
    have hnode : r.pending (tree a nil) = 0 ↔ ∀ e, a.kind = .element e → r.carried e = [] := by
      obtain ⟨n, kind⟩ := a
      cases kind with
      | element e =>
        rw [pending_element, List.length_eq_zero_iff]
        exact ⟨fun h e' he => by cases he; exact h, fun h => h e rfl⟩
      | document => exact iff_of_true rfl nofun
      | text s => exact iff_of_true rfl nofun
      | code f => exact iff_of_true rfl nofun
      | conditional test => exact iff_of_true rfl nofun
      | branch => exact iff_of_true rfl nofun
      | loop binding => exact iff_of_true rfl nofun
    rw [pending_cons, preorder_cons, List.forall_mem_cons, List.forall_mem_append, ← ihc, ← ihf,
      ← hnode, Nat.add_eq_zero_iff, Nat.add_eq_zero_iff, and_assoc]

theorem shallow_of_carried {r : Registry} {f : Forest Node} (hn : f.ids.Nodup)
    (h : ∀ x ∈ f.preorder, x.id ∉ f.rootIds → ∀ e, x.kind = .element e → r.carried e = []) :
    r.Shallow f := by
  induction f with
  | nil => exact trivial
  | cons a c f _ ih =>
    rw [ids_cons, List.nodup_cons, List.mem_append, not_or, List.nodup_append] at hn
    obtain ⟨⟨hac, haf⟩, -, hf, hcf⟩ := hn
    refine ⟨pending_eq_zero_iff.2 fun x hx => ?_, ih hf fun x hx hroot => ?_⟩
    · refine h x (by simp [hx]) ?_
      have hxc : x.id ∈ c.ids := List.mem_map_of_mem hx
      rw [rootIds_cons, List.mem_cons, not_or]
      exact ⟨fun heq => hac (heq ▸ hxc), fun hroot => hcf _ hxc _ (mem_ids_of_mem_rootIds hroot) rfl⟩
    · refine h x (by simp [hx]) ?_
      have hxf : x.id ∈ f.ids := List.mem_map_of_mem hx
      rw [rootIds_cons, List.mem_cons, not_or]
      exact ⟨fun heq => haf (heq ▸ hxf), hroot⟩

/-- Where only the nodes of one level have directives, there are none around it or below it. -/
theorem quiet_around {r : Registry} {ks : Context} {g : Forest Node} {next : NodeId}
    {marked : Option NodeId} (ht : (around ks g nil next marked).Numbered)
    (h : ∀ n ∈ (around ks g nil next marked).descendants root, n ∉ g.rootIds →
      ∀ e, (around ks g nil next marked).element? n = some e → r.carried e = []) :
    r.pending (close ks nil) = 0 ∧ r.Shallow g := by
  have hperm : (close ks g).preorder.Perm (g.preorder ++ (close ks nil).preorder) := by
    have hclose := preorder_close_perm ks nil g nil
    rwa [Forest.append_nil] at hclose
  have hn := ht.nodup
  rw [ids_around, ids_nil, List.append_nil, List.nodup_cons, ids,
    (hperm.map Node.id).nodup_iff, List.map_append, List.nodup_append] at hn
  obtain ⟨-, hg, -, happart⟩ := hn
  have hcarried : ∀ x ∈ (close ks g).preorder, x.id ∉ g.rootIds →
      ∀ e, x.kind = .element e → r.carried e = [] := by
    intro x hx hroot e he
    have hmem : x.id ∈ (around ks g nil next marked).descendants root := by
      rw [descendants_root]
      exact List.mem_cons_of_mem _ (List.mem_map_of_mem hx)
    refine h x.id hmem hroot e ?_
    have hkind : (around ks g nil next marked).kind? x.id = some x.kind := by
      rw [kind?_eq_some_iff ht.nodup, around, preorder_cons]
      exact List.mem_cons_of_mem _ (List.mem_append_left _ hx)
    rw [element?, hkind, he]
    rfl
  refine ⟨pending_eq_zero_iff.2 fun x hx => ?_, shallow_of_carried hg fun x hx => ?_⟩
  · refine hcarried x (hperm.mem_iff.2 (List.mem_append_right _ hx)) fun hroot => ?_
    exact happart _ (mem_ids_of_mem_rootIds hroot) _ (List.mem_map_of_mem hx) rfl
  · exact hcarried x (hperm.mem_iff.2 (List.mem_append_left _ hx))

/-- Each node of a document that was read has a level below it. -/
theorem exists_level {f : Forest Kind} (hf : f.IsMarkup) {p : NodeId}
    (hp : p ∈ (ofContent f).descendants root) :
    ∃ ks : Context, ofContent f = around ks ((ofContent f).below p) nil (ofContent f).next none ∧
      (∀ k ∈ ks.head?, k.node.kind.isLoop = false) ∧
      ∀ g next, (around ks g nil next none).Numbered → (around ks g nil next none).below p = g := by
  have hkinds : (f.numberFrom 1).1.kinds.IsMarkup := by
    rw [kinds_numberFrom]
    exact hf
  have hcontent : ofContent f = around [] (f.numberFrom 1).1 nil (ofContent f).next none := rfl
  have hn := (shaped_ofContent hf).numbered.nodup
  rw [hcontent, descendants_root, close_nil, List.mem_cons] at hp
  rcases hp with rfl | hp
  · refine ⟨[], ?_, by simp, fun g next _ => below_root⟩
    nth_rewrite 2 [hcontent]
    rw [below_root]
    exact hcontent
  · obtain ⟨ks, l, a, c, g, rfl, hclose⟩ := exists_close hp
    have hplace : ofContent f = around ks (l ++ cons a c g) nil (ofContent f).next none := by
      rw [around, ← hclose]
      rfl
    have hbelow : (ofContent f).below a.id = c :=
      below_at hn ((congrArg Tree.forest hplace).trans (around_forest ..))
    have ha : a.kind.isLoop = false := by
      have hmem : a ∈ (f.numberFrom 1).1.preorder := by
        rw [hclose]
        refine (preorder_close_perm ks l (tree a c) g).mem_iff.2 (List.mem_append_left _ ?_)
        simp [tree]
      refine Bool.eq_false_iff.2 fun hloop => ?_
      have hmade := Kind.isMade_of_isLoop hloop
      rw [hkinds.isMade a hmem] at hmade
      cases hmade
    refine ⟨⟨l, a, g⟩ :: ks, ?_, ?_, fun g' next hnum => ?_⟩
    · rw [hbelow]
      exact hplace
    · intro k hk
      cases hk
      exact ha
    · exact below_at hnum.nodup (around_forest ks (l ++ cons a g' g) nil next none)

theorem run_ofContent {lead : String} {d : Dialect} {f : Forest Kind} {p : NodeId} {xs : List Piece}
    (hf : f.IsMarkup) (hp : p ∈ (ofContent f).descendants root)
    (honly : ∀ n ∈ (ofContent f).descendants root, n ∉ (ofContent f).children p →
      ∀ e, (ofContent f).element? n = some e → (standard lead).carried e = [])
    (hpieces : (standard lead).pieces? d (ofContent f).next ((ofContent f).below p) = some xs) :
    (((standard lead).run d (ofContent f)).error = none ↔ Chained xs) ∧
      (Chained xs → ((standard lead).run d (ofContent f)).tree.below p = arrange xs) := by
  obtain ⟨ks, hplace, hks, hbelow⟩ := exists_level hf hp
  have hnum := (shaped_ofContent hf).numbered
  have hchildren : (ofContent f).children p = ((ofContent f).below p).rootIds := rfl
  rw [hchildren] at honly
  -- From here on the document is its level below `p` in the frames around it.
  generalize (ofContent f).below p = g at *
  generalize (ofContent f).next = next at *
  rw [hplace] at hnum honly ⊢
  obtain ⟨hquiet, hshallow⟩ := quiet_around hnum honly
  obtain ⟨hiff, htree⟩ := run_around hks hquiet hpieces hshallow hnum
  refine ⟨hiff, fun hchained => ?_⟩
  obtain ⟨next', hrun, hnum'⟩ := htree hchained
  rw [hrun]
  exact hbelow _ _ hnum'

/-- Where only the children of one node have directives, and these are pieces of chains, a pass succeeds
if and only if the pieces are chained, and then it leaves the children as they are arranged. -/
theorem run_chains (lead source : String) (d : Dialect) (p : NodeId) (xs : List Piece) :
    let t := Markup.parse lead d source
    let out := (standard lead).run d t
    p ∈ t.descendants root →
    (∀ n ∈ t.descendants root, n ∉ t.children p →
      ∀ e, t.element? n = some e → (standard lead).carried e = []) →
    (standard lead).pieces? d t.next (t.below p) = some xs →
      (out.error = none ↔ Chained xs) ∧ (Chained xs → out.tree.below p = arrange xs) :=
  run_ofContent (Markup.isMarkup_content lead d source)

/-- A bare `if` takes the text before it into the first branch, and the second `else` that before it
into the second. -/
theorem run_chains_breaks :
    let t := Markup.parse ":" .php "<br :if=a>x<br :if><br :else>y<br :else>"
    let out := (standard ":").run .php t
    let br := fun n : NodeId => (⟨n, .element ⟨"br", []⟩⟩ : Node)
    out.error = none ∧
      out.tree.below root = conditional 7 "a"
        (cons (br 1) nil (cons ⟨2, .text "x"⟩ nil (tree (br 3) nil)))
        (cons (br 4) nil (cons ⟨5, .text "y"⟩ nil (tree (br 6) nil))) := by
  intro t out br
  let xs : List Piece :=
    [⟨.start 7 "a", tree (br 1) nil⟩, ⟨.plain, tree ⟨2, .text "x"⟩ nil⟩, ⟨.holds, tree (br 3) nil⟩,
      ⟨.fails, tree (br 4) nil⟩, ⟨.plain, tree ⟨5, .text "y"⟩ nil⟩, ⟨.fails, tree (br 6) nil⟩]
  let brAs := fun (name : String) (value : AttrValue) => (Kind.element ⟨"br", [(name, value)]⟩)
  have hparse : Markup.parse ":" .php "<br :if=a>x<br :if><br :else>y<br :else>" =
      ofContent (cons (brAs ":if" (.code (.expression "a"))) nil (cons (.text "x") nil
        (cons (brAs ":if" (.text "")) nil (cons (brAs ":else" (.text "")) nil
          (cons (.text "y") nil (tree (brAs ":else" (.text "")) nil)))))) := by
    decide +kernel
  have hroot : root ∈ t.descendants root := by
    show root ∈ (Markup.parse ":" .php "<br :if=a>x<br :if><br :else>y<br :else>").descendants root
    rw [hparse]
    exact List.mem_cons_self
  have honly : ∀ n ∈ t.descendants root, n ∉ t.children root →
      ∀ e, t.element? n = some e → (standard ":").carried e = [] := by
    show ∀ n ∈ (Markup.parse _ _ _).descendants root, n ∉ (Markup.parse _ _ _).children root →
      ∀ e, (Markup.parse _ _ _).element? n = some e → _
    rw [hparse]
    intro n hn hchild e he
    rcases List.mem_cons.1 hn with rfl | hn
    · cases he
    · exact absurd hn hchild
  have hpieces : (standard ":").pieces? .php t.next (t.below root) = some xs := by
    show (standard ":").pieces? .php (Markup.parse _ _ _).next ((Markup.parse _ _ _).below root) = _
    rw [hparse]
    decide +kernel
  have hchained : Chained xs := by decide
  obtain ⟨hiff, hbelow⟩ := run_chains ":" "<br :if=a>x<br :if><br :else>y<br :else>" .php root xs hroot
    honly hpieces
  exact ⟨hiff.2 hchained, (hbelow hchained).trans rfl⟩

end Registry

end HtmlTemplate
