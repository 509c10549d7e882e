import HtmlTemplate.Proofs.Directive.Arrangement
import HtmlTemplate.Proofs.Directive.Handlers
import HtmlTemplate.Proofs.Directive.Trace
import HtmlTemplate.Proofs.Directive.Walk

/-! # Visits to the pieces of a chain

At a piece a pass makes its unit, and then puts a condition around it, goes on with the condition
before it, or goes on at once (`ends_piece`). Each of these is a step between two arrangements of the
siblings, and the walk comes out right behind the piece.
-/

namespace HtmlTemplate

open Forest Context HtmlTemplate.Tree

/-! ## What the directives of a node lead to -/

namespace Registry

/-- The directives run on a node leave this behind. -/
def Ends (d : Dialect) (n : NodeId) (ds : List (String × Directive)) (t : Tree) (out : Outcome) : Prop :=
  (runAt d n ds t).tree = out.tree ∧ (runAt d n ds t).error = out.error

section Ends

variable {d : Dialect} {n : NodeId} {ds : List (String × Directive)} {t t' : Tree} {out : Outcome}
  {attr : String} {directive : Directive} {ks : Context} {l c g loose : Forest Node} {e : Element}
  {next : NodeId} {marked : Option NodeId}

theorem Ends.done : Ends d n [] t { tree := t } :=
  ⟨rfl, rfl⟩

theorem Ends.next_directive (hatt : t.isAttached n = true)
    (hrun : directive.run ⟨d, n, parameter? (t.attribute? n attr)⟩ (t.eraseAttribute n attr) =
      { tree := t' }) (h : Ends d n ds t' out) : Ends d n ((attr, directive) :: ds) t out := by
  unfold Ends
  rw [runAt, if_pos hatt]
  dsimp only
  rw [hrun]
  exact h

theorem Ends.last (hatt : t.isAttached n = true) :
    Ends d n [(attr, directive)] t
      (directive.run ⟨d, n, parameter? (t.attribute? n attr)⟩ (t.eraseAttribute n attr)) := by
  unfold Ends
  rw [runAt, if_pos hatt]
  cases herror : (directive.run ⟨d, n, parameter? (t.attribute? n attr)⟩
      (t.eraseAttribute n attr)).error with
  | none => simp only [herror, runAt, and_self]
  | some e => simp only [herror, and_self]

theorem Ends.numbered (h : Ends d n ds t out) (hds : ∀ x ∈ ds, x.2.IsStandard) (ht : t.Numbered) :
    out.tree.Numbered := by
  rw [← h.1, runAt_eq_follow d n hds]
  exact ht.follow _

variable (ht : (around ks (l ++ cons ⟨n, .element e⟩ c g) loose next marked).Numbered)

include ht

theorem isAttached_element :
    (around ks (l ++ cons ⟨n, .element e⟩ c g) loose next marked).isAttached n = true := by
  refine isAttached_of_mem ht.nodup ?_
  simp [ids_close]

theorem attribute?_element (attr : String) :
    (around ks (l ++ cons ⟨n, .element e⟩ c g) loose next marked).attribute? n attr = e.get? attr := by
  have hkind : (around ks (l ++ cons ⟨n, .element e⟩ c g) loose next marked).kind? n =
      some (.element e) := kind?_at ht.nodup (around_forest ..)
  rw [attribute?, element?, hkind]
  rfl

theorem eraseAttribute_element (attr : String) :
    (around ks (l ++ cons ⟨n, .element e⟩ c g) loose next marked).eraseAttribute n attr =
      around ks (l ++ cons ⟨n, .element (e.erase attr)⟩ c g) loose next marked :=
  mapElement_around ht.nodup (·.erase attr)

theorem numbered_erase (attr : String) :
    (around ks (l ++ cons ⟨n, .element (e.erase attr)⟩ c g) loose next marked).Numbered := by
  rw [← eraseAttribute_element ht]
  exact ht.mapElement n _

theorem orderedAt_element (r : Registry) :
    r.orderedAt (around ks (l ++ cons ⟨n, .element e⟩ c g) loose next marked) n = r.ordered e := by
  have hkind : (around ks (l ++ cons ⟨n, .element e⟩ c g) loose next marked).kind? n =
      some (.element e) := kind?_at ht.nodup (around_forest ..)
  rw [orderedAt, element?, hkind]
  rfl

theorem Ends.step
    (hrun : directive.run ⟨d, n, parameter? (e.get? attr)⟩
      (around ks (l ++ cons ⟨n, .element (e.erase attr)⟩ c g) loose next marked) = { tree := t' })
    (h : Ends d n ds t' out) :
    Ends d n ((attr, directive) :: ds)
      (around ks (l ++ cons ⟨n, .element e⟩ c g) loose next marked) out := by
  refine Ends.next_directive (isAttached_element ht) ?_ h
  rw [attribute?_element ht, eraseAttribute_element ht]
  exact hrun

theorem Ends.step_last :
    Ends d n [(attr, directive)] (around ks (l ++ cons ⟨n, .element e⟩ c g) loose next marked)
      (directive.run ⟨d, n, parameter? (e.get? attr)⟩
        (around ks (l ++ cons ⟨n, .element (e.erase attr)⟩ c g) loose next marked)) := by
  have h : Ends d n [(attr, directive)]
      (around ks (l ++ cons ⟨n, .element e⟩ c g) loose next marked) _ :=
    Ends.last (isAttached_element ht)
  rw [attribute?_element ht, eraseAttribute_element ht] at h
  exact h

/-- A loop with a parameter is put around the element, and the others run within it. -/
theorem Ends.loop {v : AttrValue} (hv : parameter? (e.get? attr) = some v)
    (h : Ends d n ds
      (around (⟨l, ⟨next, .loop (AttrValue.parameterCode d (parameter? (e.get? attr)))⟩, g⟩ :: ks)
        (nil ++ cons ⟨n, .element (e.erase attr)⟩ c nil) loose (next + 1) marked) out) :
    Ends d n ((attr, ⟨"foreach", 20, Handler.loop⟩) :: ds)
      (around ks (l ++ cons ⟨n, .element e⟩ c g) loose next marked) out :=
  Ends.step ht (Handler.loop_some rfl (numbered_erase ht attr) hv) h

theorem numbered_loop {v : AttrValue} (hv : parameter? (e.get? attr) = some v) :
    (around (⟨l, ⟨next, .loop (AttrValue.parameterCode d (parameter? (e.get? attr)))⟩, g⟩ :: ks)
      (nil ++ cons ⟨n, .element (e.erase attr)⟩ c nil) loose (next + 1) marked).Numbered := by
  have hends : Ends d n [(attr, ⟨"foreach", 20, Handler.loop⟩)]
      (around ks (l ++ cons ⟨n, .element e⟩ c g) loose next marked) _ := Ends.loop ht hv Ends.done
  refine hends.numbered ?_ ht
  rw [List.forall_mem_singleton]
  exact ⟨⟨"foreach", 20, Handler.loop⟩, by simp [standardDirectives], rfl, rfl⟩

theorem Ends.condition {v : AttrValue} (hv : parameter? (e.get? attr) = some v)
    (h : Ends d n ds (around ks (l ++ (conditional next (AttrValue.parameterCode d
      (parameter? (e.get? attr))) (tree ⟨n, .element (e.erase attr)⟩ c) nil ++ g)) loose (next + 3)
        marked) out) :
    Ends d n ((attr, ⟨"if", 30, Handler.condition⟩) :: ds)
      (around ks (l ++ cons ⟨n, .element e⟩ c g) loose next marked) out :=
  Ends.step ht (Handler.condition_some rfl (numbered_erase ht attr) hv) h

theorem Ends.goOn (hv : parameter? (e.get? attr) = none) :
    Ends d n [(attr, ⟨"if", 30, Handler.condition⟩)]
      (around ks (l ++ cons ⟨n, .element e⟩ c g) loose next marked)
      (Handler.join .holds .ifAlone n
        (around ks (l ++ cons ⟨n, .element (e.erase attr)⟩ c g) loose next marked)) := by
  have h : Ends d n [(attr, ⟨"if", 30, Handler.condition⟩)]
      (around ks (l ++ cons ⟨n, .element e⟩ c g) loose next marked) _ := Ends.step_last ht
  rw [hv] at h
  exact h

theorem Ends.otherwise :
    Ends d n [(attr, ⟨"else", 30, Handler.otherwise⟩)]
      (around ks (l ++ cons ⟨n, .element e⟩ c g) loose next marked)
      (Handler.join .fails .elseAlone n
        (around ks (l ++ cons ⟨n, .element (e.erase attr)⟩ c g) loose next marked)) :=
  Ends.step_last ht

end Ends

end Registry

/-! ## Visiting a piece -/

/-- What the directives of a piece lead to, when the piece stands between `l` and `f`. -/
def Piece.outcome (x : Piece) (n : NodeId) (ks : Context) (l f loose : Forest Node) (next : NodeId)
    (marked : Option NodeId) : Outcome :=
  match x.role with
  | .plain => { tree := around ks (l ++ (x.unit ++ f)) loose next marked }
  | .start number test =>
    { tree := around ks (l ++ (conditional number test x.unit nil ++ f)) loose next marked }
  | .holds => Handler.join .holds .ifAlone n (around ks (l ++ (x.unit ++ f)) loose next marked)
  | .fails => Handler.join .fails .elseAlone n (around ks (l ++ (x.unit ++ f)) loose next marked)

namespace Registry

variable {lead : String} {d : Dialect} {next next' : NodeId} {a : Node} {c : Forest Node} {x : Piece}

theorem append_ne {lead name other : String} (h : name ≠ other) : lead ++ name ≠ lead ++ other := by
  intro heq
  rw [← String.toList_inj, String.toList_append, String.toList_append, List.append_cancel_left_eq,
    String.toList_inj] at heq
  exact h heq

/-- A directive that has run leaves the parameters of the others alone. -/
theorem given_erase {r : Registry} {e : Element} {name other : String} (h : other ≠ name) :
    parameter? ((e.erase (r.lead ++ name)).get? (r.lead ++ other)) = r.given e other := by
  rw [given, Element.get?_erase (append_ne h)]

theorem foreach_ne_if : "if" ≠ "foreach" := by decide

/-- What the directives of a piece lead to. On the way the unit of the piece is made. -/
theorem ends_piece (hpiece : (standard lead).piece? d next a c = some (x, next')) {ks : Context}
    {l f loose : Forest Node} {marked : Option NodeId}
    (ht : (around ks (l ++ cons a c f) loose next marked).Numbered) :
    Ends d a.id ((standard lead).orderedAt (around ks (l ++ cons a c f) loose next marked) a.id)
        (around ks (l ++ cons a c f) loose next marked)
        (x.outcome a.id ks l f loose next' marked) ∧
      (x.role = .holds ∨ x.role = .fails →
        (around ks (l ++ (x.unit ++ f)) loose next' marked).Numbered) := by
  obtain ⟨n, kind⟩ := a
  have hkind : (around ks (l ++ cons ⟨n, kind⟩ c f) loose next marked).kind? n = some kind :=
    kind?_at ht.nodup (around_forest ..)
  unfold piece? at hpiece
  dsimp only at hpiece ⊢
  cases kind with
  | element e =>
    dsimp only at hpiece
    rw [bare_eq, ordered_eq] at hpiece
    rw [orderedAt_element ht, ordered_eq]
    -- In each case the names decide which handlers run and which attributes are gone afterwards.
    split at hpiece
    · rename_i hcarried
      rw [hcarried] at hpiece ⊢
      cases hpiece
      exact ⟨Ends.done, fun _ => ht⟩
    · rename_i hcarried hloop
      rw [hcarried] at hpiece ⊢
      cases hpiece
      exact ⟨Ends.loop ht hloop Ends.done, fun _ => numbered_loop ht hloop⟩
    · rename_i hcarried hloop hif
      rw [hcarried] at hpiece ⊢
      rw [← given_erase foreach_ne_if] at hpiece
      cases hpiece
      exact ⟨Ends.loop ht hloop (Ends.condition (numbered_loop ht hloop)
        ((given_erase foreach_ne_if).trans hif) Ends.done), fun h => by simp at h⟩
    · rename_i hcarried hif
      rw [hcarried] at hpiece ⊢
      cases hpiece
      exact ⟨Ends.condition ht hif Ends.done, fun h => by simp at h⟩
    · rename_i hcarried hif
      rw [hcarried] at hpiece ⊢
      cases hpiece
      exact ⟨Ends.goOn ht hif, fun _ => numbered_erase ht _⟩
    · rename_i hcarried hloop hif
      rw [hcarried] at hpiece ⊢
      cases hpiece
      have hnum := numbered_loop (d := d) ht hloop
      exact ⟨Ends.loop ht hloop (Ends.goOn hnum ((given_erase foreach_ne_if).trans hif)),
        fun _ => numbered_erase hnum _⟩
    · rename_i hcarried
      rw [hcarried] at hpiece ⊢
      cases hpiece
      exact ⟨Ends.otherwise ht, fun _ => numbered_erase ht _⟩
    · rename_i hcarried hloop
      rw [hcarried] at hpiece ⊢
      cases hpiece
      have hnum := numbered_loop (d := d) ht hloop
      exact ⟨Ends.loop ht hloop (Ends.otherwise hnum), fun _ => numbered_erase hnum _⟩
    · cases hpiece
  | text s =>
    cases hpiece
    rw [orderedAt, element?, hkind]
    exact ⟨Ends.done, fun _ => ht⟩
  | code s =>
    cases hpiece
    rw [orderedAt, element?, hkind]
    exact ⟨Ends.done, fun _ => ht⟩
  | document => cases hpiece
  | conditional test => cases hpiece
  | branch => cases hpiece
  | loop binding => cases hpiece

theorem pending_element (r : Registry) (n : NodeId) (e : Element) :
    r.pending (tree ⟨n, .element e⟩ nil) = (r.carried e).length := by
  rw [carried, List.length_map, (r.ordered_perm e).length_eq]
  simp [tree, pending]

theorem unit_cases (hpiece : (standard lead).piece? d next a c = some (x, next')) :
    (x.role = .plain ∨ 1 ≤ (standard lead).pending (tree a nil)) ∧
      ((∃ k : Kind, k.isConditional = false ∧ x.unit = tree ⟨a.id, k⟩ c) ∨
        (∃ (m : NodeId) (b : String) (k : Kind), x.unit = tree ⟨m, .loop b⟩ (tree ⟨a.id, k⟩ c)) ∨
        x.role = .plain ∧ 1 ≤ (standard lead).pending (tree a nil) ∧
          ∃ (m m' : NodeId) (b test : String) (k : Kind),
            x.unit = tree ⟨m, .loop b⟩ (conditional m' test (tree ⟨a.id, k⟩ c) nil)) := by
  obtain ⟨n, kind⟩ := a
  unfold piece? at hpiece
  cases kind with
  | element e =>
    rw [pending_element]
    dsimp only at hpiece ⊢
    split at hpiece
    · cases hpiece
      exact ⟨Or.inl rfl, Or.inl ⟨_, rfl, rfl⟩⟩
    · cases hpiece
      exact ⟨Or.inl rfl, Or.inr (Or.inl ⟨_, _, _, rfl⟩)⟩
    · rename_i hcarried _ _
      cases hpiece
      rw [hcarried]
      exact ⟨Or.inl rfl, Or.inr (Or.inr ⟨rfl, by decide, _, _, _, _, _, rfl⟩)⟩
    · rename_i hcarried _
      cases hpiece
      rw [hcarried]
      exact ⟨Or.inr (by decide), Or.inl ⟨_, rfl, rfl⟩⟩
    · rename_i hcarried _
      cases hpiece
      rw [hcarried]
      exact ⟨Or.inr (by decide), Or.inl ⟨_, rfl, rfl⟩⟩
    · rename_i hcarried _ _
      cases hpiece
      rw [hcarried]
      exact ⟨Or.inr (by decide), Or.inr (Or.inl ⟨_, _, _, rfl⟩)⟩
    · rename_i hcarried
      cases hpiece
      rw [hcarried]
      exact ⟨Or.inr (by decide), Or.inl ⟨_, rfl, rfl⟩⟩
    · rename_i hcarried _
      cases hpiece
      rw [hcarried]
      exact ⟨Or.inr (by decide), Or.inr (Or.inl ⟨_, _, _, rfl⟩)⟩
    · cases hpiece
  | text s =>
    cases hpiece
    exact ⟨Or.inl rfl, Or.inl ⟨_, rfl, rfl⟩⟩
  | code s =>
    cases hpiece
    exact ⟨Or.inl rfl, Or.inl ⟨_, rfl, rfl⟩⟩
  | document => cases hpiece
  | conditional test => cases hpiece
  | branch => cases hpiece
  | loop binding => cases hpiece

end Registry

/-! ## Where a piece sits -/

/-- In the trees `u` node `n` stands with `c` below it, and then `q` comes. -/
def Sits (n : NodeId) (c q u : Forest Node) : Prop :=
  ∀ (ks : Context) (l g loose : Forest Node) (next : NodeId) (marked : Option NodeId),
    ∃ (ks' : Context) (l' g' : Forest Node) (k : Kind),
      around ks (l ++ (u ++ g)) loose next marked =
          around ks' (l' ++ cons ⟨n, k⟩ c g') loose next marked ∧
        g' ++ rest ks' = q ++ (g ++ rest ks)

namespace Sits

variable {n : NodeId} {c q u : Forest Node}

theorem self (n : NodeId) (k : Kind) (c : Forest Node) : Sits n c nil (tree ⟨n, k⟩ c) := by
  intro ks l g loose next marked
  exact ⟨ks, l, g, k, rfl, rfl⟩

theorem within (h : Sits n c q u) (b : Node) (before after : Forest Node) :
    Sits n c (q ++ after) (tree b (before ++ (u ++ after))) := by
  intro ks l g loose next marked
  obtain ⟨ks', l', g', k, ht, hrest⟩ := h (⟨l, b, g⟩ :: ks) before after loose next marked
  refine ⟨ks', l', g', k, ht, ?_⟩
  rw [hrest, rest_cons, Forest.append_assoc]

theorem alone (h : Sits n c q u) (b : Node) : Sits n c q (tree b u) := by
  have hin := h.within b nil nil
  rwa [Forest.append_nil, Forest.append_nil, nil_append] at hin

/-- At the end of a first branch, the second comes next. -/
theorem holds (h : Sits n c q u) (m : NodeId) (test : String) (f : Forest Node) :
    Sits n c (q ++ tree ⟨m + 2, .branch⟩ nil) (conditional m test (f ++ u) nil) := by
  have hin := ((h.within ⟨m + 1, .branch⟩ f nil).within ⟨m, .conditional test⟩ nil
    (tree ⟨m + 2, .branch⟩ nil))
  rwa [Forest.append_nil, Forest.append_nil] at hin

theorem fails (h : Sits n c q u) (m : NodeId) (test : String) (f g : Forest Node) :
    Sits n c q (conditional m test f (g ++ u)) := by
  have hin := ((h.within ⟨m + 2, .branch⟩ g nil).within ⟨m, .conditional test⟩
    (tree ⟨m + 1, .branch⟩ f) nil)
  rwa [Forest.append_nil, Forest.append_nil, Forest.append_nil, Forest.append_nil, tree_append] at hin

end Sits

/-! ## The unit of an element -/

section Unit

variable {ks : Context} {l c f loose : Forest Node} {n next : NodeId} {marked : Option NodeId}
  {k : Kind} (hks : ∀ k ∈ ks.head?, k.node.kind.isLoop = false)

include hks

theorem head_not_isLoop : ∀ k ∈ (ks ++ [documentFrame loose]).head?, k.node.kind.isLoop = false := by
  cases ks with
  | nil =>
    intro k hk
    cases hk
    rfl
  | cons j ks => exact hks

theorem unit_self (ht : (around ks (l ++ (tree ⟨n, k⟩ c ++ f)) loose next marked).Numbered) :
    (around ks (l ++ (tree ⟨n, k⟩ c ++ f)) loose next marked).unit n = n := by
  have hf := around_forest ks (l ++ cons ⟨n, k⟩ c f) loose next marked
  have habove := ancestors_at ht.nodup hf
  have hclimb := Handler.climbLoops_self ht.nodup hf fun j hj hloop => by
    rw [head_not_isLoop hks j hj] at hloop
    cases hloop
  unfold Tree.unit
  exact (congrArg _ habove).trans hclimb

theorem unit_loop {m : NodeId} {b : String}
    (ht : (around ks (l ++ (tree ⟨m, .loop b⟩ (tree ⟨n, k⟩ c) ++ f)) loose next marked).Numbered) :
    (around ks (l ++ (tree ⟨m, .loop b⟩ (tree ⟨n, k⟩ c) ++ f)) loose next marked).unit n = m := by
  have hf := around_forest ks (l ++ cons ⟨m, .loop b⟩ (tree ⟨n, k⟩ c) f) loose next marked
  have hin : (around ks (l ++ cons ⟨m, .loop b⟩ (tree ⟨n, k⟩ c) f) loose next marked).forest =
      close (⟨l, ⟨m, .loop b⟩, f⟩ :: (ks ++ [documentFrame loose])) (nil ++ cons ⟨n, k⟩ c nil) := hf
  have habove := ancestors_at ht.nodup hin
  have hstep := Handler.climbLoops_loop ht.nodup hin rfl
  have hclimb := Handler.climbLoops_self ht.nodup hf fun j hj hloop => by
    rw [head_not_isLoop hks j hj] at hloop
    cases hloop
  unfold Tree.unit
  exact (congrArg _ habove).trans (hstep.trans hclimb)

end Unit

namespace Registry

variable {lead : String} {d : Dialect} {next next' : NodeId} {a : Node} {c f l loose : Forest Node}
  {x : Piece} {ks : Context} {marked : Option NodeId}

theorem sits_unit (hpiece : (standard lead).piece? d next a c = some (x, next'))
    (hrole : x.role ≠ .plain) : Sits a.id c nil x.unit := by
  obtain ⟨-, ⟨k, -, hunit⟩ | ⟨m, b, k, hunit⟩ | ⟨hplain, -⟩⟩ := unit_cases hpiece
  · rw [hunit]
    exact Sits.self _ _ _
  · rw [hunit]
    exact (Sits.self _ _ _).alone _
  · exact absurd hplain hrole

/-- A continuation moves with its whole unit. -/
theorem exists_unit (hpiece : (standard lead).piece? d next a c = some (x, next'))
    (hrole : x.role = .holds ∨ x.role = .fails) (hks : ∀ k ∈ ks.head?, k.node.kind.isLoop = false)
    (ht : (around ks (l ++ cons a c f) loose next marked).Numbered) :
    ∃ (u : Node) (e : Forest Node), x.unit = tree u e ∧
      (around ks (l ++ (tree u e ++ f)) loose next' marked).Numbered ∧
      (around ks (l ++ (tree u e ++ f)) loose next' marked).unit a.id = u.id := by
  have hnum := (ends_piece hpiece ht).2 hrole
  obtain ⟨-, ⟨k, -, hunit⟩ | ⟨m, b, k, hunit⟩ | ⟨hplain, -⟩⟩ := unit_cases hpiece
  · rw [hunit] at hnum
    exact ⟨_, _, hunit, hnum, unit_self hks hnum⟩
  · rw [hunit] at hnum
    exact ⟨_, _, hunit, hnum, unit_loop hks hnum⟩
  · simp [hplain] at hrole

/-- A visit that leaves its element in the document, and the way on behind it. -/
theorem goes_sits {t : Tree} {n : NodeId} {u q : Forest Node} (ht : t.Numbered)
    (hends : Ends d n ((standard lead).orderedAt t n) t
      { tree := around ks (l ++ (u ++ f)) loose next marked })
    (hsits : Sits n c q u) (hc : (standard lead).pending c = 0) (hq : (standard lead).pending q = 0) :
    (standard lead).Goes d (1 + c.preorder.length + q.preorder.length) (some n) t (f ++ rest ks).front?
        (around ks (l ++ (u ++ f)) loose next marked) ∧
      (around ks (l ++ (u ++ f)) loose next marked).Numbered := by
  have hstandard : ∀ x ∈ (standard lead).directives, x.IsStandard := fun x hx => ⟨x, hx, rfl, rfl⟩
  have hnum := hends.numbered (isStandard_orderedAt hstandard t n) ht
  obtain ⟨ks', l', g', k, heq, hrest⟩ := hsits ks l f loose next marked
  exact ⟨goes_visit heq hnum hends.1 hends.2 hrest hc hq, hnum⟩

/-! ## One piece of a level -/

section Level

variable (hpiece : (standard lead).piece? d next a c = some (x, next'))
  (ht : (around ks (l ++ cons a c f) loose next marked).Numbered)

include hpiece ht

theorem goes_plain (hrole : x.role = .plain) (hc : (standard lead).pending c = 0) :
    (standard lead).Goes d (1 + c.preorder.length + (standard lead).pending (tree a nil)) (some a.id)
        (around ks (l ++ cons a c f) loose next marked) (f ++ rest ks).front?
        (around ks (l ++ (x.unit ++ f)) loose next' marked) ∧
      (around ks (l ++ (x.unit ++ f)) loose next' marked).Numbered := by
  have hends := (ends_piece hpiece ht).1
  simp only [Piece.outcome, hrole] at hends
  obtain ⟨q, hsits, hq, hlength⟩ : ∃ q, Sits a.id c q x.unit ∧ (standard lead).pending q = 0 ∧
      q.preorder.length ≤ (standard lead).pending (tree a nil) := by
    obtain ⟨-, ⟨k, -, hunit⟩ | ⟨m, b, k, hunit⟩ | ⟨-, hpos, m, m', b, test, k, hunit⟩⟩ :=
      unit_cases hpiece
    · rw [hunit]
      exact ⟨nil, Sits.self _ _ _, rfl, Nat.zero_le _⟩
    · rw [hunit]
      exact ⟨nil, (Sits.self _ _ _).alone _, rfl, Nat.zero_le _⟩
    · rw [hunit]
      exact ⟨_, ((Sits.self _ _ _).holds m' test nil).alone _, rfl, hpos⟩
  obtain ⟨hgoes, hnum⟩ := goes_sits ht hends hsits hc hq
  exact ⟨hgoes.mono (by omega), hnum⟩

theorem goes_start {number : NodeId} {test : String} (hrole : x.role = .start number test)
    (hc : (standard lead).pending c = 0) :
    (standard lead).Goes d (1 + c.preorder.length + (standard lead).pending (tree a nil)) (some a.id)
        (around ks (l ++ cons a c f) loose next marked) (f ++ rest ks).front?
        (around ks (l ++ (conditional number test x.unit nil ++ f)) loose next' marked) ∧
      (around ks (l ++ (conditional number test x.unit nil ++ f)) loose next' marked).Numbered := by
  have hne : x.role ≠ .plain := by
    rw [hrole]
    exact Role.noConfusion
  have hpos := (unit_cases hpiece).1.resolve_left hne
  have hends := (ends_piece hpiece ht).1
  simp only [Piece.outcome, hrole] at hends
  obtain ⟨hgoes, hnum⟩ := goes_sits ht hends ((sits_unit hpiece hne).holds number test nil) hc rfl
  refine ⟨hgoes.mono ?_, hnum⟩
  exact Nat.add_le_add_left hpos _

theorem stops_alone (hrole : x.role = .holds ∨ x.role = .fails)
    (hks : ∀ k ∈ ks.head?, k.node.kind.isLoop = false)
    (hl : ∀ y ∈ l.roots, y.kind.isConditional = false) :
    (standard lead).Stops d (some a.id) (around ks (l ++ cons a c f) loose next marked) := by
  have hends := (ends_piece hpiece ht).1
  obtain ⟨u, e, hunit, hnum, hu⟩ := exists_unit hpiece hrole hks ht
  have hjoin (side : Handler.Side) (alone : TemplateError) :
      (Handler.join side alone a.id (around ks (l ++ (x.unit ++ f)) loose next' marked)).error =
        some alone := by
    rw [hunit]
    exact congrArg Outcome.error (Handler.join_alone hnum hu hl)
  refine ⟨0, a.id, _, Goes.refl, ?_⟩
  rw [hends.2]
  rcases hrole with hrole | hrole <;> simp [Piece.outcome, hrole, hjoin]

end Level

/-! ## Going on with a condition -/

section GoOn

variable {m : NodeId} {test : String} {before holds fails between : Forest Node}

theorem level_eq (m : NodeId) (test : String) (before holds fails between e f : Forest Node) (u : Node) :
    before ++ (conditional m test holds fails ++ between) ++ (tree u e ++ f) =
      before ++ cons ⟨m, .conditional test⟩
        (cons ⟨m + 1, .branch⟩ holds (tree ⟨m + 2, .branch⟩ fails)) (between ++ cons u e f) := by
  simp only [conditional, tree_append, cons_append, Forest.append_assoc]

variable (hpiece : (standard lead).piece? d next a c = some (x, next'))
  (ht : (around ks (before ++ (conditional m test holds fails ++ between) ++ cons a c f) loose next
    marked).Numbered)
  (hks : ∀ k ∈ ks.head?, k.node.kind.isLoop = false)
  (hbetween : ∀ y ∈ between.roots, y.kind.isConditional = false)

include hpiece ht hks hbetween

theorem goes_holds (hrole : x.role = .holds) (hfails : fails = nil)
    (hc : (standard lead).pending c = 0) :
    (standard lead).Goes d (1 + c.preorder.length + (standard lead).pending (tree a nil)) (some a.id)
        (around ks (before ++ (conditional m test holds fails ++ between) ++ cons a c f) loose next
          marked) (f ++ rest ks).front?
        (around ks (before ++ (conditional m test (holds ++ (between ++ x.unit)) nil ++ f)) loose next'
          marked) ∧
      (around ks (before ++ (conditional m test (holds ++ (between ++ x.unit)) nil ++ f)) loose next'
        marked).Numbered := by
  subst hfails
  have hends := (ends_piece hpiece ht).1
  have hne : x.role ≠ .plain := by simp [hrole]
  have hpos := (unit_cases hpiece).1.resolve_left hne
  obtain ⟨u, e, hunit, hnum, hu⟩ := exists_unit hpiece (Or.inl hrole) hks ht
  have hsits := (sits_unit hpiece hne).holds m test (holds ++ between)
  simp only [Piece.outcome, hrole] at hends
  rw [hunit] at hends hsits ⊢
  rw [level_eq] at hnum hu hends
  rw [Handler.join_holds hnum rfl hbetween hu rfl] at hends
  rw [Forest.append_assoc] at hsits
  obtain ⟨hgoes, hnum'⟩ := goes_sits ht hends hsits hc rfl
  exact ⟨hgoes.mono (Nat.add_le_add_left hpos _), hnum'⟩

theorem stops_holds (hrole : x.role = .holds) (hfails : fails ≠ nil) :
    (standard lead).Stops d (some a.id)
      (around ks (before ++ (conditional m test holds fails ++ between) ++ cons a c f) loose next
        marked) := by
  have hends := (ends_piece hpiece ht).1
  obtain ⟨u, e, hunit, hnum, hu⟩ := exists_unit hpiece (Or.inl hrole) hks ht
  simp only [Piece.outcome, hrole] at hends
  rw [hunit] at hends
  rw [level_eq] at hnum hu hends
  rw [Handler.join_holds_error hnum rfl hbetween hu hfails] at hends
  refine ⟨0, a.id, _, Goes.refl, ?_⟩
  rw [hends.2]
  exact Option.some_ne_none _

theorem goes_fails (hrole : x.role = .fails) (hc : (standard lead).pending c = 0) :
    (standard lead).Goes d (1 + c.preorder.length + (standard lead).pending (tree a nil)) (some a.id)
        (around ks (before ++ (conditional m test holds fails ++ between) ++ cons a c f) loose next
          marked) (f ++ rest ks).front?
        (around ks (before ++ (conditional m test holds (fails ++ (between ++ x.unit)) ++ f)) loose next'
          marked) ∧
      (around ks (before ++ (conditional m test holds (fails ++ (between ++ x.unit)) ++ f)) loose next'
        marked).Numbered := by
  have hends := (ends_piece hpiece ht).1
  have hne : x.role ≠ .plain := by simp [hrole]
  obtain ⟨u, e, hunit, hnum, hu⟩ := exists_unit hpiece (Or.inr hrole) hks ht
  have hsits := (sits_unit hpiece hne).fails m test holds (fails ++ between)
  simp only [Piece.outcome, hrole] at hends
  rw [hunit] at hends hsits ⊢
  rw [level_eq] at hnum hu hends
  rw [Handler.join_fails hnum rfl hbetween hu] at hends
  rw [Forest.append_assoc] at hsits
  obtain ⟨hgoes, hnum'⟩ := goes_sits ht hends hsits hc rfl
  exact ⟨hgoes.mono (Nat.add_le_add_left (Nat.zero_le _) _), hnum'⟩

end GoOn

end Registry

end HtmlTemplate
