import HtmlTemplate.Proofs.Directive.Fate
import HtmlTemplate.Proofs.Directive.Walk

/-! # What a pass has behind it and ahead of it

`Reached` tells of a pass over the standard directives which old numbers are behind it and which trees
ahead. A visit to the first tree ahead goes over its root, which then is behind, or loses it, as the fate of
the root has it (`Course`, `Reached.step`). No old node comes back from behind, and none gets ahead that was
not. What each visit keeps holds at the end of the pass (`Reached.visit_calls`).
-/

namespace HtmlTemplate

open Forest Context HtmlTemplate.Tree

/-- A pass has come behind the old numbers `behind` and before the trees `ahead`. -/
def Reached (bound : NodeId) (behind : List NodeId) (ahead : Forest Node) (t : Tree) : Prop :=
  ∃ (ks : Context) (l f loose : Forest Node) (next : NodeId) (marked : Option NodeId),
    t = around ks (l ++ f) loose next marked ∧ t.Shaped ∧ t.Old bound ∧ Calm ks f ∧
      ahead.Leafy ∧ f ++ rest ks = ahead ∧ older bound (leading ks ++ l.ids) = behind

/-- Where a visit leads that has `a` over `c` ahead, and then `g`, by the fate of `a`. -/
inductive Course (bound : NodeId) (a : Node) (c g : Forest Node) (behind : List NodeId) :
    Fate → List NodeId → Forest Node → Prop
  | keeps {made : Forest Node} (hmade : made.Inert bound) :
      Course bound a c g behind .keeps (behind ++ older bound [a.id]) (c ++ (made ++ g))
  | empties {c' made : Forest Node} (hc : c'.Inert bound) (hmade : made.Inert bound) :
      Course bound a c g behind .empties (behind ++ older bound [a.id]) (c' ++ (made ++ g))
  | removes : Course bound a c g behind .removes behind g

/-- Where a visit leads that has `a` over `c` ahead, and then `g`. -/
inductive Turn (bound : NodeId) (a : Node) (c g : Forest Node) (behind : List NodeId) :
    List NodeId → Forest Node → Prop
  | passed {c' made : Forest Node} (hc : c' = c ∨ c'.Inert bound) (hmade : made.Inert bound) :
      Turn bound a c g behind (behind ++ older bound [a.id]) (c' ++ (made ++ g))
  | lost : Turn bound a c g behind behind g

theorem Course.turn {bound : NodeId} {a : Node} {c g ahead : Forest Node} {x : Fate}
    {behind behind' : List NodeId} (h : Course bound a c g behind x behind' ahead) :
    Turn bound a c g behind behind' ahead := by
  cases h with
  | keeps hmade => exact .passed (Or.inl rfl) hmade
  | empties hc hmade => exact .passed (Or.inr hc) hmade
  | removes => exact .lost

/-- Of the old nodes, those ahead after a visit were ahead before it, below or behind the node. -/
theorem Turn.ahead_subset {bound : NodeId} {a : Node} {c g ahead : Forest Node}
    {behind behind' : List NodeId} (h : Turn bound a c g behind behind' ahead) :
    older bound ahead.ids ⊆ older bound (c.ids ++ g.ids) := by
  cases h with
  | passed hc hmade =>
    rw [ids_append, ids_append, older_append, older_append, hmade.older_ids, List.nil_append,
      older_append]
    rcases hc with rfl | hc
    · exact List.Subset.refl _
    · rw [hc.older_ids, List.nil_append]
      exact List.subset_append_right ..
  | lost =>
    rw [older_append]
    exact List.subset_append_right ..

/-- What a visit to node `n` leaves right ahead of the pass: what comes after the node in the document, or
what was behind it if the node is gone. -/
def Onward (n : NodeId) (g ahead : Forest Node) (t : Tree) : Prop :=
  (∃ (front : List Node) (x : Node), x.id = n ∧ (t.below root).preorder = front ++ x :: ahead.preorder) ∨
    t.isAttached n = false ∧ ahead = g

theorem Context.exists_preorder_close (ks : Context) :
    ∃ front, ∀ f, (close ks f).preorder = front ++ (f ++ rest ks).preorder := by
  induction ks with
  | nil => exact ⟨[], fun f => by simp⟩
  | cons k ks ih =>
    obtain ⟨front, hfront⟩ := ih
    refine ⟨front ++ (k.before.preorder ++ [k.node]), fun f => ?_⟩
    rw [close_cons, hfront]
    simp

theorem onward_around {ks : Context} {l c f g loose : Forest Node} (a : Node) {next : NodeId}
    {marked : Option NodeId} :
    Onward a.id g (c ++ (f ++ rest ks)) (around ks (l ++ cons a c f) loose next marked) := by
  obtain ⟨front, hfront⟩ := exists_preorder_close ks
  refine Or.inl ⟨front ++ l.preorder, a, rfl, ?_⟩
  rw [below_root, hfront]
  simp

namespace Reached

variable {r : Registry} {bound : NodeId} {behind : List NodeId} {ahead c g : Forest Node} {a : Node}
  {t : Tree}

theorem shaped (h : Reached bound behind ahead t) : t.Shaped := by
  obtain ⟨ks, l, f, loose, next, marked, -, hshaped, -⟩ := h
  exact hshaped

theorem exists_place (h : Reached bound behind (cons a c g) t) :
    ∃ (ks : Context) (l f loose : Forest Node) (next : NodeId) (marked : Option NodeId),
      t = around ks (l ++ cons a c f) loose next marked ∧ t.Shaped ∧ t.Old bound ∧
        Calm ks (cons a c f) ∧ (cons a c g).Leafy ∧ f ++ rest ks = g ∧
        older bound (leading ks ++ l.ids) = behind := by
  obtain ⟨ks, l, f, loose, next, marked, ht, hshaped, hold, hcalm, hleafy, hahead, hbehind⟩ := h
  obtain ⟨ks', l', f', hclose, hrest, hlead, hcalm'⟩ := exists_first (l := l) hahead
  refine ⟨ks', l', f', loose, next, marked, ?_, hshaped, hold, hcalm' hcalm, hleafy, hrest, ?_⟩
  · rw [ht, around, hclose]
    rfl
  · rw [hlead, hbehind]

/-- The document holds the nodes behind, in their order, and then those ahead. -/
theorem descendants (h : Reached bound behind ahead t) :
    older bound (t.descendants root) = older bound [root] ++ (behind ++ older bound ahead.ids) := by
  obtain ⟨ks, l, f, loose, next, marked, rfl, -, -, -, -, rfl, rfl⟩ := h
  rw [descendants_root, ids_close_append, older_cons, older_append]

theorem isAttached (h : Reached bound behind ahead t) {n : NodeId} (hn : n ∈ behind) :
    t.isAttached n = true := by
  obtain ⟨ks, l, f, loose, next, marked, rfl, hshaped, -, -, -, -, rfl⟩ := h
  refine isAttached_of_mem hshaped.numbered.nodup ?_
  have hmem := List.mem_of_mem_filter hn
  rw [ids_close, ids_append]
  simp only [List.mem_append] at hmem ⊢
  tauto

theorem nodup (h : Reached bound behind ahead t) : ahead.ids.Nodup := by
  obtain ⟨ks, l, f, loose, next, marked, rfl, hshaped, -, -, -, rfl, -⟩ := h
  have hnodup := nodup_content hshaped.numbered.nodup
  rw [ids_close_append] at hnodup
  exact (List.nodup_append.1 hnodup).2.1

theorem kind? (h : Reached bound behind (cons a c g) t) : t.kind? a.id = some a.kind := by
  obtain ⟨ks, l, f, loose, next, marked, rfl, hshaped, -⟩ := h.exists_place
  exact kind?_at hshaped.numbered.nodup (around_forest ..)

/-! ## One visit -/

/-- The directives of the element that a pass has come to may run. -/
theorem standing_place {ks : Context} {l f loose : Forest Node} {e : Element} {next : NodeId}
    {marked : Option NodeId} (ht : t = around ks (l ++ cons a c f) loose next marked)
    (hshaped : t.Shaped) (hold : t.Old bound) (hcalm : Calm ks (cons a c f))
    (hbehind : older bound (leading ks ++ l.ids) = behind) (he : a.kind = .element e) :
    Standing ⟨bound, ks, f, behind⟩ a.id e.tag c t ∧ Ready ⟨bound, ks, f, behind⟩ t := by
  have hk : a.kind.isElement = true := by
    rw [he]
    rfl
  refine ⟨⟨[], ks, l, e, f, loose, next, marked, ?_, rfl, Alike.refl ks, After.self bound f, hbehind⟩,
    ⟨hshaped, hold, hcalm.not_isLoop hk⟩⟩
  rw [ht, ← he]
  rfl

theorem of_standing (before : Tree) {ks : Context} {f c' : Forest Node} {n : NodeId} {tag : String}
    (h : Standing ⟨bound, ks, f, behind⟩ n tag c' t) (hshaped : t.Shaped) (hold : t.Old bound)
    (hcalm : Calm ks f) (hc : c'.Leafy) (hleafy : (f ++ rest ks).Leafy) :
    ∃ made : Forest Node, made.Inert bound ∧
      Reached bound (behind ++ older bound [n]) (c' ++ (made ++ (f ++ rest ks))) t ∧
      Registry.resume before t n = (c' ++ (made ++ (f ++ rest ks))).front? ∧
      ∀ g, Onward n g (c' ++ (made ++ (f ++ rest ks))) t := by
  obtain ⟨js, ks', l, e, f', loose, next, marked, rfl, -, halike, hafter, hbehind⟩ := h
  dsimp only at halike hafter hbehind
  obtain ⟨made, hmade, hrest⟩ := hafter.rest
  have hahead : f' ++ rest (js ++ ks') = made ++ (f ++ rest ks) := by
    rw [rest_append, ← Forest.append_assoc, hrest, Forest.append_assoc, halike.rest]
  refine ⟨made, hmade, ⟨⟨l, ⟨n, .element e⟩, f'⟩ :: (js ++ ks'), nil, c', loose, next, marked, rfl,
    hshaped, hold, ⟨Or.inl rfl, hafter.calm (hcalm.of_alike halike)⟩, ?_, ?_, ?_⟩, ?_, fun g => ?_⟩
  · exact leafy_append.2 ⟨hc, leafy_append.2 ⟨hmade.leafy, hleafy⟩⟩
  · rw [rest_cons, hahead]
  · rw [← hbehind, ← older_append, leading_cons, ids_nil, List.append_nil, List.append_assoc]
  · rw [resume_attached hshaped.numbered, hahead]
  · rw [← hahead]
    exact onward_around ⟨n, .element e⟩

theorem of_departed {before : Tree} {ks : Context} {l f loose : Forest Node} {next : NodeId}
    {marked : Option NodeId} (hbefore : before = around ks (l ++ cons a c f) loose next marked)
    (hnum : before.Numbered) (h : Departed ⟨bound, ks, f, behind⟩ a.id t) (hshaped : t.Shaped)
    (hold : t.Old bound) (hcalm : Calm ks f) (hleafy : (f ++ rest ks).Leafy) :
    Reached bound behind (f ++ rest ks) t ∧
      Registry.resume before t a.id = (f ++ rest ks).front? := by
  obtain ⟨ks', l', loose', next', marked', rfl, halike, hbehind, ha⟩ := h
  dsimp only at halike hbehind
  rw [halike.rest] at hleafy ⊢
  refine ⟨⟨ks', l', f, loose', next', marked', rfl, hshaped, hold, hcalm.of_alike halike, hleafy, rfl,
    hbehind⟩, ?_⟩
  rw [hbefore] at hnum ⊢
  exact resume_gone halike hnum hshaped.numbered ha

theorem step (hr : ∀ x ∈ r.directives, x.IsStandard) {d : Dialect}
    (h : Reached bound behind (cons a c g) t)
    (herror : (Registry.runAt d a.id (r.orderedAt t a.id) t).error = none) :
    ∃ behind' ahead', Course bound a c g behind (r.fateOf a.kind) behind' ahead' ∧
      Reached bound behind' ahead' (Registry.runAt d a.id (r.orderedAt t a.id) t).tree ∧
      Registry.resume t (Registry.runAt d a.id (r.orderedAt t a.id) t).tree a.id = ahead'.front? ∧
      Onward a.id g ahead' (Registry.runAt d a.id (r.orderedAt t a.id) t).tree := by
  have hkind := h.kind?
  obtain ⟨ks, l, f, loose, next, marked, ht, hshaped, hold, hcalm, hleafy, rfl, hbehind⟩ :=
    h.exists_place
  obtain ⟨helement, hc, hg⟩ := hleafy
  cases hk : a.kind.isElement with
  | false =>
    have hnone : r.orderedAt t a.id = [] := by
      rw [Registry.orderedAt, element?, hkind, Option.bind_some, Kind.element?_eq_none hk]
    have hnil : c = nil := helement.resolve_left (by rw [hk]; exact Bool.false_ne_true)
    subst hnil
    rw [hnone, r.fateOf_of_not_element hk]
    have hinert : (nil : Forest Node).Inert bound := trivial
    refine ⟨_, _, .keeps hinert, ⟨ks, l ++ tree a nil, f, loose, next, marked, ?_, hshaped,
      hold, hcalm.tail, hg, rfl, ?_⟩, ?_, ?_⟩
    · rw [Forest.append_assoc, tree_append]
      exact ht
    · rw [← hbehind, ← older_append, ids_append, ids_tree, ids_nil, List.append_assoc]
    · show Registry.resume t t a.id = _
      rw [ht] at hshaped ⊢
      exact resume_attached hshaped.numbered
    · show Onward a.id _ _ t
      rw [ht]
      exact onward_around a
  | true =>
    obtain ⟨e, he⟩ := Kind.exists_element hk
    have hordered : r.orderedAt t a.id = r.ordered e := by
      rw [Registry.orderedAt, element?, hkind, he]
      rfl
    have hds := Registry.isStandard_orderedAt hr t a.id
    rw [hordered] at hds herror ⊢
    obtain ⟨hstand, hready⟩ := standing_place ht hshaped hold hcalm hbehind he
    obtain ⟨hpost, hready'⟩ := Registry.post_runAt hds hstand hready herror
    have hall : r.fateOf a.kind = Fate.all ((r.ordered e).map fun x => fate e.tag x.2.name) := by
      rw [he]
      rfl
    rw [← hall] at hpost
    cases hfate : r.fateOf a.kind with
    | keeps =>
      rw [hfate] at hpost
      obtain ⟨made, hmade, hreached, hresume, honward⟩ := of_standing t hpost hready'.shaped
        hready'.old hcalm.tail hc hg
      exact ⟨_, _, .keeps hmade, hreached, hresume, honward _⟩
    | empties =>
      rw [hfate] at hpost
      obtain ⟨c', hc', hstand'⟩ := hpost
      obtain ⟨made, hmade, hreached, hresume, honward⟩ := of_standing t hstand' hready'.shaped
        hready'.old hcalm.tail hc'.leafy hg
      exact ⟨_, _, .empties hc' hmade, hreached, hresume, honward _⟩
    | removes =>
      rw [hfate] at hpost
      obtain ⟨hreached, hresume⟩ := of_departed ht hshaped.numbered hpost hready'.shaped hready'.old
        hcalm.tail hg
      exact ⟨_, _, .removes, hreached, hresume,
        Or.inr ⟨Departed.isAttached hpost hready'.shaped.numbered, rfl⟩⟩

/-- What holds at the start of a pass and is kept by each visit, with the calls that it makes, holds at the
end of the pass. -/
theorem visit_calls (hr : ∀ x ∈ r.directives, x.IsStandard) {d : Dialect}
    {P : List Call → List NodeId → Forest Node → Tree → Prop}
    (hP : ∀ {calls behind a c g t behind' ahead'}, Reached bound behind (cons a c g) t →
      P calls behind (cons a c g) t → (Registry.runAt d a.id (r.orderedAt t a.id) t).error = none →
      Course bound a c g behind (r.fateOf a.kind) behind' ahead' →
      Reached bound behind' ahead' (Registry.runAt d a.id (r.orderedAt t a.id) t).tree →
      Onward a.id g ahead' (Registry.runAt d a.id (r.orderedAt t a.id) t).tree →
      P (calls ++ (Registry.runAt d a.id (r.orderedAt t a.id) t).calls) behind' ahead'
        (Registry.runAt d a.id (r.orderedAt t a.id) t).tree)
    {visits : Nat} (calls : List Call) (h : Reached bound behind ahead t) (hstart : P calls behind ahead t)
    (herror : (r.visit d visits ahead.front? t).error = none) :
    ∃ behind', Reached bound behind' nil (r.visit d visits ahead.front? t).tree ∧
      P (calls ++ (r.visit d visits ahead.front? t).calls) behind' nil
        (r.visit d visits ahead.front? t).tree := by
  have hend : ∀ {visits : Nat} {calls : List Call} {behind : List NodeId} {t : Tree},
      Reached bound behind nil t → P calls behind nil t →
      ∃ behind', Reached bound behind' nil (r.visit d visits none t).tree ∧
        P (calls ++ (r.visit d visits none t).calls) behind' nil (r.visit d visits none t).tree := by
    intro visits calls behind t h hstart
    rw [Registry.visit_none, List.append_nil]
    exact ⟨behind, h, hstart⟩
  induction visits generalizing calls behind ahead t with
  | zero =>
    -- A pass that runs out of visits before its end has failed.
    cases ahead with
    | nil => exact hend h hstart
    | cons a c g => cases herror
  | succ visits ih =>
    cases ahead with
    | nil => exact hend h hstart
    | cons a c g =>
      have hfront : (cons a c g).front? = some a.id := rfl
      rw [hfront, Registry.visit] at herror ⊢
      cases hhere : (Registry.runAt d a.id (r.orderedAt t a.id) t).error with
      | some e =>
        simp only [hhere] at herror
        cases herror
      | none =>
        obtain ⟨behind', ahead', hcourse, hreached, hresume, honward⟩ := h.step hr hhere
        simp only [hhere, hresume, ← List.append_assoc] at herror ⊢
        exact ih _ hreached (hP h hstart hhere hcourse hreached honward) herror

/-- What holds at the start of a pass and is kept by each visit holds at the end of the pass. -/
theorem visit (hr : ∀ x ∈ r.directives, x.IsStandard) {d : Dialect}
    {P : List NodeId → Forest Node → Tree → Prop}
    (hP : ∀ {behind a c g t behind' ahead'}, Reached bound behind (cons a c g) t →
      P behind (cons a c g) t → (Registry.runAt d a.id (r.orderedAt t a.id) t).error = none →
      Turn bound a c g behind behind' ahead' →
      Reached bound behind' ahead' (Registry.runAt d a.id (r.orderedAt t a.id) t).tree →
      P behind' ahead' (Registry.runAt d a.id (r.orderedAt t a.id) t).tree)
    {visits : Nat} (h : Reached bound behind ahead t) (hstart : P behind ahead t)
    (herror : (r.visit d visits ahead.front? t).error = none) :
    ∃ behind', Reached bound behind' nil (r.visit d visits ahead.front? t).tree ∧
      P behind' nil (r.visit d visits ahead.front? t).tree :=
  visit_calls (P := fun _ => P) hr (fun h hp he hcourse hreached _ => hP h hp he hcourse.turn hreached) [] h
    hstart herror

end Reached

/-! ## A document that was read -/

theorem Forest.IsMarkup.leafy {f : Forest Node} (h : f.kinds.IsMarkup) : f.Leafy := by
  induction f with
  | nil => exact trivial
  | cons a c g ihc ihg =>
    rw [kinds_cons] at h
    obtain ⟨ha, hc, hg⟩ := h
    refine ⟨ha.imp_right fun hleaf => ?_, ihc hc, ihg hg⟩
    cases c with
    | nil => rfl
    | cons b d c => cases hleaf.2

/-- A pass over a document that was read begins with all of it ahead. -/
theorem reached_ofContent {f : Forest Kind} (hf : f.IsMarkup) :
    Reached (ofContent f).next [] (f.numberFrom 1).1 (ofContent f) := by
  have hkinds : (f.numberFrom 1).1.kinds.IsMarkup := by
    rw [kinds_numberFrom]
    exact hf
  refine ⟨[], nil, (f.numberFrom 1).1, nil, (f.numberFrom 1).2, none, rfl, shaped_ofContent hf,
    ⟨Nat.le_refl _, fun x hx _ => ?_⟩, trivial, hkinds.leafy, Forest.append_nil _, rfl⟩
  rw [ofContent, tree, preorder_cons, preorder_nil, List.append_nil, List.mem_cons] at hx
  rcases hx with rfl | hx
  · rfl
  · exact hkinds.isMade x hx

end HtmlTemplate
