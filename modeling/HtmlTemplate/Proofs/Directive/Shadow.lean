import HtmlTemplate.Proofs.Directive.Discarded
import HtmlTemplate.Proofs.Directive.Undeclared

/-! # Elements beside their shadows

The shadow of an element has none of its declarations, and nothing that was declared is around it
(`Stance.shadow`). A directive that declares something changes nothing about the shadow
(`step_declaring`); any other does the same to the shadow (`step_shadow`). It fails only for the element,
and not for the shadow, if the element is to go on with a loop and a declaration came in between.
-/

namespace HtmlTemplate

open Forest

/-! ## Effects and eager fragments -/

namespace Niche

/-- No eager fragment is behind the gap, at the top. -/
def EndsLate (x : Niche Node) : Prop :=
  ∀ k ∈ x.after.rootKinds, k.isLate = true

variable {x y z : Niche Node} {a b : Node} {c g : Forest Node}

theorem EndsLate.plant (hx : x.EndsLate)
    (hz : ∀ k ∈ z.after.rootKinds, k ∈ x.right.rootKinds ∨ k.isLate = true) : (x.plant z).EndsLate := by
  cases x with
  | here l r => exact fun k hk => (hz k hk).elim (hx k) id
  | inside l o x r => exact hx

theorem EndsLate.again (hx : x.EndsLate) (h : x.again Node.kind = .ok y) : y.EndsLate := by
  unfold Niche.again at h
  split at h
  · cases h
    exact hx.plant fun k hk => Or.inl hk
  · cases h

theorem EndsLate.joinTop {side : Handler.Side} {alone : TemplateError} (hx : x.EndsLate)
    (h : x.joinTop Node.kind side alone = .ok y) : y.EndsLate := by
  unfold Niche.joinTop at h
  split at h
  · cases h
  · obtain ⟨z, -, rfl⟩ := exists_of_map_eq_ok h
    exact hx

theorem EndsLate.join {side : Handler.Side} {alone : TemplateError} (hx : x.EndsLate)
    (h : x.join Node.kind side alone = .ok y) : y.EndsLate := by
  cases x with
  | here l r => exact hx.joinTop h
  | inside l o x r =>
    rw [Niche.join] at h
    split at h
    · exact hx.joinTop h
    · obtain ⟨z, -, rfl⟩ := exists_of_map_eq_ok h
      exact hx

/-- Another late node in the place of an element. -/
theorem firm_exchange (ha : a.kind.isElement = true) (hx : (x.fill (tree a c)).Firm)
    (hb : b.kind.isLate = true) (hg : (tree b g).Firm) : (x.fill (tree b g)).Firm := by
  obtain ⟨hleft, -, hright⟩ := firm_beside hx
  rw [fill_eq_close] at hx ⊢
  refine Context.firm_close hx ?_ fun k hk => Kind.bears_change hk ⟨a.kind, by simp, ?_⟩ ?_
    ⟨b.kind, by simp, hb⟩
  · exact firm_append.2 ⟨hleft, firm_append.2 ⟨hg, hright⟩⟩
  · intro h
    rw [h] at ha
    cases ha
  · intro k hk
    simp only [rootKinds_append, rootKinds_tree, List.mem_append, List.mem_singleton] at hk ⊢
    rcases hk with hk | rfl | hk
    · exact Or.inl (Or.inl hk)
    · exact Or.inr hb
    · exact Or.inl (Or.inr (Or.inr hk))

theorem not_endsEager_fill (ha : a.kind.isLate = true) (hx : (x.fill (tree a c)).Firm)
    (hend : x.EndsLate) : ¬(x.fill (tree a c)).EndsEager := by
  cases x with
  | here l r => exact not_endsEager_cons ha hend
  | inside l o x r =>
    obtain ⟨k, hk⟩ := exists_mem_rootKinds_fill x a c
    exact not_endsEager_cons (Kind.isLate_of_bears (firm_append.1 hx).2.2.1 hk) hend

end Niche

namespace Effect

variable {e : Effect} {s : Site} {x y : Niche Node} {a : Node} {c : Forest Node}

theorem move_late (he : e.IsModest) (hx : (x.fill (tree a c)).Firm)
    (h : e.move .settled s x = .ok y) : e.move .settled s x.late = .ok y.late := by
  have hjoin {side : Handler.Side} {alone : TemplateError}
      (h : x.join Node.kind side alone = .ok y) : x.late.join Node.kind side alone = .ok y.late := by
    rw [Niche.join_late hx, h]
    rfl
  cases e with
  | mark | remove | content | change =>
    cases h
    rfl
  | fail => cases h
  | flank p q =>
    cases h
    have hp : (tree (Labelling.settled.make 0 p.kind) nil).late =
        tree (Labelling.settled.make 0 p.kind) nil := late_tree he.1
    have hq : ((q.map fun q => tree (Labelling.settled.make 1 q.kind) nil).getD nil).late =
        (q.map fun q => tree (Labelling.settled.make 1 q.kind) nil).getD nil := by
      cases q with
      | none => rfl
      | some q => exact late_tree (he.2 q rfl)
    simp only [move, Niche.flank, Niche.plant_late, Niche.late, late_append, hp, hq, Niche.left_late,
      Niche.right_late]
  | loop =>
    simp only [move] at h ⊢
    split at h
    · rename_i hparam
      cases h
      rw [if_pos hparam]
      simp only [Niche.wrap, Niche.plant_late, Niche.late, Niche.left_late, Niche.right_late, late_nil]
    · rename_i hparam
      rw [if_neg hparam]
      exact Niche.again_late h
  | condition =>
    simp only [move] at h ⊢
    split at h
    · rename_i hparam
      cases h
      have hbranch : (tree (Labelling.settled.make 2 .branch) nil).late =
          tree (Labelling.settled.make 2 .branch) nil := rfl
      rw [if_pos hparam]
      simp only [Niche.wrapTest, Niche.plant_late, Niche.late, Niche.left_late, Niche.right_late,
        late_nil, hbranch]
    · rename_i hparam
      rw [if_neg hparam]
      exact hjoin h
  | otherwise => exact hjoin h

/-- Without eager fragments around it, an element fails as it does with them, unless one of them is right
before it and it was to go on with a loop. -/
theorem move_late_error {error : TemplateError} (hx : (x.fill (tree a c)).Firm)
    (h : e.move .settled s x = .error error) :
    e.move .settled s x.late = .error error ∨
      e = .loop ∧ s.parameter = none ∧ error = .foreachAlone ∧ x.left.EndsEager := by
  have hjoin {side : Handler.Side} {alone : TemplateError}
      (h : x.join Node.kind side alone = .error error) :
      x.late.join Node.kind side alone = .error error := by
    rw [Niche.join_late hx, h]
    rfl
  cases e with
  | mark | remove | content | change | flank => cases h
  | fail => exact Or.inl h
  | loop =>
    simp only [move] at h ⊢
    split at h
    · cases h
    · rename_i hparam
      rw [if_neg hparam]
      have hnone := Option.not_isSome_iff_eq_none.1 hparam
      exact (Niche.again_late_error h).imp_right fun hlost => ⟨trivial, hnone, hlost⟩
  | condition =>
    simp only [move] at h ⊢
    split at h
    · cases h
    · rename_i hparam
      rw [if_neg hparam]
      exact Or.inl (hjoin h)
  | otherwise => exact Or.inl (hjoin h)

/-- Text or code that is late. -/
theorem firm_leaf {p : Leaf} (hp : p.kind.isLate = true) (i : Nat) :
    (tree (Labelling.settled.make i p.kind) nil).Firm := by
  rw [firm_tree hp]
  refine ⟨?_, trivial⟩
  obtain ⟨kind, hleaf⟩ := p
  cases kind <;> simp_all [Kind.bears, Labelling.settled]

theorem firm_move (he : e.IsModest) (ha : a.kind.isElement = true) (hx : (x.fill (tree a c)).Firm)
    (h : e.move .settled s x = .ok y) : (y.fill (tree a c)).Firm := by
  cases e with
  | mark | remove | content | change =>
    cases h
    exact hx
  | fail => cases h
  | flank p q =>
    cases h
    refine Niche.firm_flank ha hx (firm_leaf he.1 0) ?_ (List.forall_mem_singleton.2 he.1) ?_
    · cases q with
      | none => trivial
      | some q => exact firm_leaf (he.2 q rfl) 1
    · cases q with
      | none => exact List.forall_mem_nil _
      | some q => exact List.forall_mem_singleton.2 (he.2 q rfl)
  | loop =>
    simp only [move] at h
    split at h
    · cases h
      exact Niche.firm_wrap ha hx rfl
    · exact Niche.firm_again ha hx h
  | condition =>
    simp only [move] at h
    split at h
    · cases h
      exact Niche.firm_wrapTest ha hx rfl rfl rfl
    · exact (Niche.firm_join ha hx h).1
  | otherwise => exact (Niche.firm_join ha hx h).1

theorem endsLate_move (he : e.IsModest) (hx : x.EndsLate) (h : e.move .settled s x = .ok y) :
    y.EndsLate := by
  cases e with
  | mark | remove | content | change =>
    cases h
    exact hx
  | fail => cases h
  | flank p q =>
    cases h
    refine hx.plant fun k hk => ?_
    cases q with
    | none => exact Or.inl hk
    | some q =>
      rcases List.mem_cons.1 hk with rfl | hk
      · exact Or.inr (he.2 q rfl)
      · exact Or.inl hk
  | loop =>
    simp only [move] at h
    split at h
    · cases h
      exact hx.plant fun k hk => Or.inl hk
    · exact hx.again h
  | condition =>
    simp only [move] at h
    split at h
    · cases h
      exact hx.plant fun k hk => Or.inl hk
    · exact hx.join h
  | otherwise => exact hx.join h

end Effect

/-! ## Reports -/

/-- A report about a document without declarations beside one about the document with them: the other
handlers are run, to like effect, unless one of the given nodes is to go on with a loop and cannot. -/
def Report.Shadows {α β : Type} (R : α → β → Prop) (ns : List NodeId) (out : Report α)
    (out' : Report β) : Prop :=
  match out.result with
  | .ok a => ∃ b, R a b ∧ out' = ⟨out.calls.filter (!·.isDeclaration), .ok b⟩
  | .error e => out' = ⟨out.calls.filter (!·.isDeclaration), .error e⟩ ∨
      e = .foreachAlone ∧ ∃ n ∈ ns, out.calls.getLast? = some ⟨n, "foreach", none⟩

namespace Report

variable {α α' β β' : Type} {R : α → α' → Prop} {S : β → β' → Prop} {ns ms : List NodeId}

theorem shadows_silent {a : α} {b : α'} (h : R a b) (ns : List NodeId) :
    Shadows R ns (.silent a) (.silent b) :=
  ⟨b, h, rfl⟩

theorem Shadows.mono {out : Report α} {out' : Report α'} (h : out.Shadows R ns out') (hns : ns ⊆ ms) :
    out.Shadows R ms out' := by
  unfold Shadows at h ⊢
  split at h
  · exact h
  · exact h.imp_right fun ⟨he, n, hn, hlast⟩ => ⟨he, n, hns hn, hlast⟩

theorem Shadows.bind {x : Report α} {x' : Report α'} {k : α → Report β} {k' : α' → Report β'}
    (h : x.Shadows R ns x') (hk : ∀ a b, x.result = .ok a → R a b → (k a).Shadows S ns (k' b)) :
    (x.bind k).Shadows S ns (x'.bind k') := by
  unfold Shadows at h
  unfold Report.bind
  cases hx : x.result with
  | error e =>
    rw [hx] at h
    rcases h with rfl | h
    · exact Or.inl rfl
    · exact Or.inr h
  | ok a =>
    rw [hx] at h
    obtain ⟨b, hab, rfl⟩ := h
    have hnext := hk a b hx hab
    unfold Shadows at hnext ⊢
    dsimp only [after]
    cases hresult : (k a).result with
    | error e =>
      rw [hresult] at hnext
      rcases hnext with hnext | ⟨he, n, hn, hlast⟩
      · rw [hnext]
        exact Or.inl (by rw [List.filter_append])
      · exact Or.inr ⟨he, n, hn, by rw [List.getLast?_append, hlast]; rfl⟩
    | ok k' =>
      rw [hresult] at hnext
      obtain ⟨b', hb', hnext⟩ := hnext
      refine ⟨b', hb', ?_⟩
      rw [hnext, List.filter_append]

theorem Shadows.map {x : Report α} {x' : Report α'} {f : α → β} {f' : α' → β'} (h : x.Shadows R ns x')
    (hf : ∀ a b, R a b → S (f a) (f' b)) : (x.map f).Shadows S ns (x'.map f') := by
  unfold Shadows at h
  unfold Shadows Report.map
  cases hx : x.result with
  | error e =>
    rw [hx] at h
    rcases h with rfl | h
    · exact Or.inl rfl
    · exact Or.inr h
  | ok a =>
    rw [hx] at h
    obtain ⟨b, hab, rfl⟩ := h
    exact ⟨f' b, hf a b hab, rfl⟩

theorem silent_bind (a : α) (k : α → Report β) : (silent a).bind k = k a := by
  simp [silent, Report.bind, after]

end Report

/-! ## Elements while their directives run -/

/-- A node without declarations. -/
def Node.undeclared (r : Registry) (a : Node) : Node :=
  ⟨a.id, a.kind.mapElement r.undeclared⟩

namespace Stance

/-- An element without declarations, and without what has been declared around it. -/
def shadow (r : Registry) (x : Stance Node) : Stance Node :=
  ⟨x.niche.late, x.label.undeclared r, x.content⟩

/-- The call that runs a directive of the element. -/
def call (x : Stance Node) (z : String × Directive) : Call :=
  ⟨x.label.id, z.2.name, Registry.parameter? (x.label.kind.element?.bind (·.get? z.1))⟩

end Stance

/-- What becomes of an element, without what has been declared. -/
def Turnout.shadow (r : Registry) : Turnout Node → Turnout Node
  | kept x => kept (x.shadow r)
  | gone f => gone f.late

/-- What further directives do to an element that has been kept. -/
def Turnout.proceed (d : Dialect) (c : Forest Node) (ds : List (String × Directive)) :
    Turnout Node → Report (Turnout Node)
  | gone f => .silent (.gone f)
  | kept y => y.run .settled d c ds

theorem Leaf.late_planted (p : Leaf) (hp : p.kind.isLate = true) :
    (p.planted .settled).late = p.planted .settled :=
  late_tree (a := ⟨Tree.root, p.kind⟩) hp

theorem Kind.mapElement_comm {f g : Element → Element} (h : ∀ e, f (g e) = g (f e)) (k : Kind) :
    (k.mapElement g).mapElement f = (k.mapElement f).mapElement g := by
  cases k with
  | element e => exact congrArg Kind.element (h e)
  | document | text | code | conditional | branch | loop => rfl

namespace Stance

variable {r : Registry} {x y : Stance Node} {d : Dialect} {c : Forest Node} {z : String × Directive}
  {ds : List (String × Directive)}

theorem mapLabel_shadow {f : Element → Element} (hf : ∀ e, f (r.undeclared e) = r.undeclared (f e))
    (x : Stance Node) : (x.shadow r).mapLabel .settled f = (x.mapLabel .settled f).shadow r :=
  congrArg (fun k => Stance.mk x.niche.late ⟨x.label.id, k⟩ x.content) (Kind.mapElement_comm hf _)

theorem modest_undeclared {f : Element → Element} (hf : Element.Modest f) (e : Element) :
    f (r.undeclared e) = r.undeclared (f e) :=
  hf.keep (fun name hname v => by rw [r.not_isDeclaration_written name hname v]; rfl) e

/-- A directive that declares nothing is given the same parameter without the declarations. -/
theorem call_shadow (hz : z.1 = r.lead ++ z.2.name) (h : (x.call z).isDeclaration = false) :
    (x.shadow r).call z = x.call z := by
  unfold call shadow Node.undeclared at *
  dsimp only at h ⊢
  cases hk : x.label.kind with
  | element e =>
    rw [hk] at h
    refine congrArg (fun v => Call.mk x.label.id z.2.name (Registry.parameter? v)) ?_
    refine Element.get?_keep fun v hv => ?_
    have hv : e.get? z.1 = some v := hv
    rw [hz, r.isDeclaration_append x.label.id]
    simpa [Kind.element?, hv] using h
  | document | text | code | conditional | branch | loop => rfl

theorem act_shadow {e : Effect} {s : Site} {out : Turnout Node} (he : e.IsModest)
    (hx : (x.niche.fill (tree x.label nil)).Firm) (h : e.act .settled s x = .ok out) :
    e.act .settled s (x.shadow r) = .ok (out.shadow r) := by
  cases e with
  | remove p =>
    cases h
    refine congrArg (fun f => Except.ok (Turnout.gone f)) ?_
    rw [Niche.late_fill hx]
    cases p with
    | none => rfl
    | some p => exact congrArg x.niche.late.fill (p.late_planted (he p rfl)).symm
  | content p =>
    cases h
    rfl
  | change f =>
    cases h
    exact congrArg (fun y => Except.ok (Turnout.kept y)) (mapLabel_shadow (modest_undeclared he) x)
  | mark | flank | loop | condition | otherwise | fail =>
    rw [Effect.act_eq_move rfl] at h ⊢
    obtain ⟨y, hy, rfl⟩ := exists_of_map_eq_ok h
    rw [show (x.shadow r).niche = x.niche.late from rfl, Effect.move_late he hx hy]
    rfl

theorem act_shadow_error {e : Effect} {s : Site} {error : TemplateError}
    (hx : (x.niche.fill (tree x.label nil)).Firm) (h : e.act .settled s x = .error error) :
    e.act .settled s (x.shadow r) = .error error ∨
      e = .loop ∧ s.parameter = none ∧ error = .foreachAlone ∧ x.niche.left.EndsEager := by
  cases e with
  | remove | content | change => cases h
  | mark | flank | loop | condition | otherwise | fail =>
    rw [Effect.act_eq_move rfl] at h ⊢
    refine (Effect.move_late_error hx (eq_error_of_map h)).imp_left fun h => ?_
    rw [show (x.shadow r).niche = x.niche.late from rfl, h]
    rfl

end Stance

/-! ## The directives of an element -/

namespace Effect

/-- An effect that leaves the niche of its element alone. -/
def isStill : Effect → Bool
  | mark | remove _ | content _ | change _ | fail _ => true
  | flank _ _ | loop | condition | otherwise => false

def isLoop : Effect → Bool
  | loop => true
  | _ => false

/-- Whether nothing is left of the element. -/
def erases : Effect → Bool
  | remove none => true
  | _ => false

end Effect

namespace Handler

/-- Loops come first of all directives that go by what stands around their element. -/
theorem isStill_bareEffect (n : NodeId) (s : Site) (k : Kind) : ∀ x ∈ Registry.standardDirectives,
    Call.isDeclaration ⟨n, x.name, s.parameter⟩ = false → (bareEffect s k x.name).isStill = false →
      20 ≤ x.priority ∧ (x.priority = 20 → x.name = "foreach") := by
  have hextend (h : Call.isDeclaration ⟨n, "extend", s.parameter⟩ = false) :
      (bareEffect s k "extend").isStill = true := by
    have heffect : bareEffect s k "extend" =
        if s.parameter.isSome then .declaring (call s .extend) else .fail .extendAlone := rfl
    rw [heffect, show s.parameter.isSome = false from h]
    rfl
  have himport : (bareEffect s k "import").isStill = true := by
    have heffect : bareEffect s k "import" = if k.isResource then .remove none else .change id := rfl
    rw [heffect]
    split <;> rfl
  have himports : (bareEffect s k "imports").isStill = true := by
    have heffect : bareEffect s k "imports" =
        if k.isResource then .calling (s.dialect.call .resourceBlock []) else .change id := rfl
    rw [heffect]
    split <;> rfl
  intro x hx hdeclares hstill
  rw [Bool.eq_false_iff] at hstill
  cases x, hx using Registry.standard_cases with
  | ignore | main => exact absurd rfl hstill
  | extend => exact absurd (hextend hdeclares) hstill
  | layout | nolayout => cases hdeclares
  | «import» => exact absurd himport hstill
  | imports => exact absurd himports hstill
  | _ => decide

theorem erases_bareEffect (s : Site) (k : Kind) (name : String)
    (h : (bareEffect s k name).erases = true) : name = "ignore" ∨ name = "import" ∧ k.isResource = true := by
  unfold bareEffect at h
  split at h
  · exact Or.inl rfl
  · split at h
    · exact Or.inr ⟨rfl, by assumption⟩
    · cases h
  all_goals first | cases h | (split at h <;> cases h)

theorem isLoop_bareEffect {s : Site} {k : Kind} {name : String}
    (h : (bareEffect s k name).isLoop = true) : name = "foreach" := by
  unfold bareEffect at h
  split at h <;> first | rfl | cases h | (split at h <;> cases h)

theorem bareEffect_congr {k k' : Kind} (h : k'.isResource = k.isResource) (s : Site) (name : String) :
    bareEffect s k' name = bareEffect s k name := by
  unfold bareEffect
  rw [h]

end Handler

/-- Directives in the order in which the standard ones run on an element. -/
structure Schedule (lead : String) (ds : List (String × Directive)) : Prop where
  mem : ∀ z ∈ ds, z.2 ∈ Registry.standardDirectives
  attr : ∀ z ∈ ds, z.1 = lead ++ z.2.name
  sorted : ds.Pairwise fun x y => x.2.priority ≤ y.2.priority
  nodup : (ds.map Prod.fst).Nodup

namespace Schedule

variable {lead : String} {z w : String × Directive} {ds : List (String × Directive)}

theorem tail (h : Schedule lead (z :: ds)) : Schedule lead ds where
  mem := (List.forall_mem_cons.1 h.mem).2
  attr := (List.forall_mem_cons.1 h.attr).2
  sorted := (List.pairwise_cons.1 h.sorted).2
  nodup := (List.nodup_cons.1 h.nodup).2

theorem ne (h : Schedule lead (z :: ds)) (hw : w ∈ ds) : w.1 ≠ z.1 :=
  fun heq => (List.nodup_cons.1 h.nodup).1 (heq ▸ List.mem_map_of_mem hw)

theorem name_ne (h : Schedule lead (z :: ds)) (hw : w ∈ ds) : w.2.name ≠ z.2.name := by
  intro heq
  refine h.ne hw ?_
  rw [h.attr w (List.mem_cons_of_mem z hw), h.attr z (List.mem_cons_self ..), heq]

theorem le (h : Schedule lead (z :: ds)) : ∀ w ∈ z :: ds, z.2.priority ≤ w.2.priority :=
  List.forall_mem_cons.2 ⟨Int.le_refl _, (List.pairwise_cons.1 h.sorted).1⟩

/-- No directive after the loop comes as early as that. -/
theorem lt (h : Schedule lead (z :: ds)) (hz : 20 ≤ z.2.priority ∧ (z.2.priority = 20 → z.2.name = "foreach")) :
    ∀ w ∈ ds, 20 < w.2.priority := by
  have hloop : ∀ x ∈ Registry.standardDirectives, x.priority = 20 → x.name = "foreach" := by decide
  intro w hw
  have hle := h.le w (List.mem_cons_of_mem z hw)
  refine Int.lt_iff_le_and_ne.2 ⟨Int.le_trans hz.1 hle, fun heq => h.name_ne hw ?_⟩
  rw [hloop w.2 (h.mem w (List.mem_cons_of_mem z hw)) heq.symm, hz.2 (Int.le_antisymm (heq ▸ hle) hz.1)]

theorem ordered {e : Element} (he : e.Distinct) (lead : String) :
    Schedule lead ((Registry.standard lead).ordered e) where
  mem _ hz := Registry.mem_of_mem_ordered hz
  attr z hz := by
    obtain ⟨a, -, ha⟩ := List.mem_filterMap.1 (((Registry.standard lead).ordered_perm e).mem_iff.1 hz)
    obtain ⟨x, hx, rfl⟩ := Option.map_eq_some_iff.1 ha
    exact Registry.eq_of_directive? hx
  sorted := Registry.ordered_pairwise _ e
  nodup := by
    rw [(((Registry.standard lead).ordered_perm e).map Prod.fst).nodup_iff]
    refine he.sublist ?_
    unfold Registry.written
    induction e.attributes with
    | nil => exact List.Sublist.refl _
    | cons a l ih =>
      rw [List.filterMap_cons, List.map_cons]
      cases (Registry.standard lead).directive? a.1 with
      | none => exact ih.cons _
      | some x => exact ih.cons_cons _

end Schedule

/-! ## Elements that keep to their schedule -/

section Steady

/-- An element with directives that are still to run. It may be that some fragment is `planted` right before
it by now or later, that it is to go on with a loop (`continues`), and that nothing is left of it
(`vanishes`). -/
structure Stance.Steady (r : Registry) (planted continues vanishes : Prop)
    (ds : List (String × Directive)) (x : Stance Node) : Prop where
  isElement : x.label.kind.isElement = true
  firm : (x.niche.fill (tree x.label nil)).Firm
  endsLate : x.niche.EndsLate
  content : ∀ p ∈ x.content, p.kind.isLate = true
  distinct : ∀ e ∈ x.label.kind.element?, e.Distinct
  carried : ∀ e ∈ x.label.kind.element?, ∀ a ∈ e.attributes, r.isDeclaration a = true → a.1 ∈ ds.map Prod.fst
  top : (∃ z ∈ ds, z.2.priority ≤ 20) → ∃ l, x.niche = .here l nil ∧ (l.EndsEager → planted)
  declares : (∃ z ∈ ds, (x.call z).isDeclaration = true) → (∀ z ∈ ds, z.2.name ≠ "ignore") → planted
  continues : ∀ z ∈ ds, z.2.name = "foreach" → (x.call z).parameter = none → continues
  vanishes : ∀ z ∈ ds, (z.2.name = "ignore" ∨ z.2.name = "import" ∧ x.label.kind.isResource = true) → vanishes

variable {lead : String} {planted continues vanishes : Prop} {d : Dialect} {c : Forest Node}
  {z w : String × Directive} {ds : List (String × Directive)} {x y : Stance Node}

namespace Stance

theorem step_eq (hz : z.2.name ∉ ["tr", "tn"]) (x : Stance Node) :
    x.step .settled d c z = ⟨[x.call z],
      (Handler.bareEffect ⟨d, x.label.id, (x.call z).parameter⟩ x.label.kind z.2.name).act .settled
        ⟨d, x.label.id, (x.call z).parameter⟩ (x.mapLabel .settled (·.erase z.1))⟩ := by
  rw [step, Handler.effect_content hz, Handler.bareEffect_congr
    (isResource_mapLabel (f := (·.erase z.1)) (fun _ => rfl) .settled x)]
  rfl

/-- What a directive leaves of the attributes of its element. -/
def Relabels (z : String × Directive) (x y : Stance Node) : Prop :=
  ∃ f, Element.Modest f ∧ y.label = ⟨x.label.id, x.label.kind.mapElement fun e => f (e.erase z.1)⟩

theorem relabels_act {e : Effect} {s : Site} (he : ∀ f, e = .change f → Element.Modest f)
    (h : e.act .settled s (x.mapLabel .settled (·.erase z.1)) = .ok (.kept y)) : Relabels z x y := by
  have hid : Relabels z x (x.mapLabel .settled (·.erase z.1)) := ⟨id, Element.modest_id, rfl⟩
  cases e with
  | remove => cases h
  | content p =>
    cases h
    exact hid
  | change f =>
    cases h
    refine ⟨f, he f rfl, congrArg (Node.mk x.label.id) ?_⟩
    change (x.label.kind.mapElement (·.erase z.1)).mapElement f = _
    cases x.label.kind <;> rfl
  | mark | flank | loop | condition | otherwise | fail =>
    rw [Effect.act_eq_move rfl] at h
    obtain ⟨_, -, hy⟩ := exists_of_map_eq_ok h
    cases hy
    exact hid

namespace Relabels

variable (h : Relabels z x y)
include h

theorem isElement : y.label.kind.isElement = x.label.kind.isElement := by
  obtain ⟨f, -, hy⟩ := h
  rw [hy, Kind.isElement_mapElement]

theorem exists_element {e : Element} (he : e ∈ y.label.kind.element?) :
    ∃ e₀ ∈ x.label.kind.element?, ∃ f, Element.Modest f ∧ e = f (e₀.erase z.1) := by
  obtain ⟨f, hf, hy⟩ := h
  rw [hy] at he
  cases hk : x.label.kind with
  | element e₀ =>
    rw [hk] at he
    exact ⟨e₀, rfl, f, hf, (Option.some.inj he).symm⟩
  | document | text | code | conditional | branch | loop =>
    rw [hk] at he
    cases he

theorem isResource : y.label.kind.isResource = x.label.kind.isResource := by
  obtain ⟨f, hf, hy⟩ := h
  rw [hy]
  exact Kind.isResource_mapElement (f := fun e => f (e.erase z.1)) (fun e => hf.tag (e.erase z.1)) _

theorem call_eq (hne : w.1 ≠ z.1) (hw : w.1 = lead ++ w.2.name)
    (hname : w.2.name ∈ ["layout", "nolayout", "extend", "foreach"]) : y.call w = x.call w := by
  obtain ⟨f, hf, hy⟩ := h
  have hwritten : w.1 ∉ Handler.written := hw ▸ Registry.append_notMem_written lead _ hname
  rw [call, call, hy]
  refine congrArg (fun v => Call.mk x.label.id w.2.name (Registry.parameter? v)) ?_
  cases x.label.kind with
  | element e => exact (hf.get? hwritten _).trans (Element.get?_keep fun _ _ => bne_iff_ne.2 hne)
  | document | text | code | conditional | branch | loop => rfl

theorem isDeclaration_eq (hne : w.1 ≠ z.1) (hw : w.1 = lead ++ w.2.name) :
    (y.call w).isDeclaration = (x.call w).isDeclaration := by
  by_cases hname : w.2.name ∈ ["layout", "nolayout", "extend"]
  · rw [h.call_eq hne hw]
    simp only [List.mem_cons, List.not_mem_nil, or_false] at hname ⊢
    tauto
  · simp only [List.mem_cons, List.not_mem_nil, or_false, not_or] at hname
    have hfalse (x : Stance Node) : (x.call w).isDeclaration = false := by
      simp [call, Call.isDeclaration, hname]
    rw [hfalse, hfalse]

end Relabels

/-- What an element is like when the next directive has run and has kept it. -/
theorem Steady.next (hds : Schedule lead (z :: ds))
    (hx : x.Steady (.standard lead) planted continues vanishes (z :: ds)) (h : Relabels z x y)
    (hz : z.2.name ≠ "ignore") (hfirm : (y.niche.fill (tree x.label nil)).Firm)
    (hend : y.niche.EndsLate) (hcontent : ∀ p ∈ y.content, p.kind.isLate = true)
    (htop : (∃ z ∈ ds, z.2.priority ≤ 20) → ∃ l, y.niche = .here l nil ∧ (l.EndsEager → planted)) :
    y.Steady (.standard lead) planted continues vanishes ds where
  isElement := h.isElement.trans hx.isElement
  firm := by
    have hy : y.label.kind.isElement = true := h.isElement.trans hx.isElement
    have hlate := Kind.isLate_of_isElement hy
    refine Niche.firm_exchange hx.isElement hfirm hlate ?_
    rw [firm_tree hlate]
    exact ⟨Kind.bears_of_isElement hy _, trivial⟩
  endsLate := hend
  content := hcontent
  distinct e he := by
    obtain ⟨e₀, he₀, f, hf, rfl⟩ := h.exists_element he
    exact hf.distinct ((hx.distinct e₀ he₀).keep _)
  carried e he a ha hdeclares := by
    obtain ⟨e₀, he₀, f, hf, rfl⟩ := h.exists_element he
    rcases hf.mem ha with ha | ha
    · obtain ⟨ha, hne⟩ := List.mem_filter.1 ha
      have hcarried := hx.carried e₀ he₀ a ha hdeclares
      rw [List.map_cons, List.mem_cons] at hcarried
      exact hcarried.resolve_left (bne_iff_ne.1 hne)
    · have := (Registry.standard lead).not_isDeclaration_written a.1 ha a.2
      rw [this] at hdeclares
      cases hdeclares
  top := htop
  declares := by
    rintro ⟨w, hw, hdeclares⟩ hignore
    refine hx.declares ⟨w, List.mem_cons_of_mem z hw, ?_⟩ (List.forall_mem_cons.2 ⟨hz, hignore⟩)
    rwa [← h.isDeclaration_eq (hds.ne hw) (hds.tail.attr w hw)]
  continues w hw hname hparam := by
    refine hx.continues w (List.mem_cons_of_mem z hw) hname ?_
    rwa [← h.call_eq (hds.ne hw) (hds.tail.attr w hw) (by simp [hname])]
  vanishes w hw hname := by
    rw [h.isResource] at hname
    exact hx.vanishes w (List.mem_cons_of_mem z hw) hname

theorem relabels_step (hds : Schedule lead (z :: ds)) (hnames : z.2.name ∉ ["tr", "tn"])
    (h : (x.step .settled d c z).result = .ok (.kept y)) : Relabels z x y := by
  rw [step_eq hnames] at h
  refine relabels_act (fun f hf => ?_) h
  have hmem := hds.mem z (List.mem_cons_self ..)
  cases hz : (x.call z).isDeclaration with
  | true =>
    obtain ⟨code, hcode⟩ := Handler.bareEffect_of_isDeclaration (n := x.label.id) (k := x.label.kind)
      (s := ⟨d, x.label.id, (x.call z).parameter⟩) hz
    rw [hcode] at hf
    cases hf
  | false =>
    have hmodest := Handler.isModest_bareEffect x.label.id ⟨d, x.label.id, (x.call z).parameter⟩
      x.label.kind z.2 hmem hz
    rwa [hf] at hmodest

/-- What is left when a directive has run: an element with fewer directives, or trees without it. -/
def Stays (lead : String) (planted continues vanishes : Prop) (ds : List (String × Directive)) :
    Turnout Node → Turnout Node → Prop
  | .kept y, out => y.Steady (.standard lead) planted continues vanishes ds ∧
      out = .kept (y.shadow (.standard lead))
  | .gone f, out => f.Firm ∧ (f.EndsEager → planted ∧ vanishes) ∧ out = .gone f.late

section Declaring

variable (hds : Schedule lead (z :: ds))
  (hx : x.Steady (.standard lead) planted continues vanishes (z :: ds))
  (hz : (x.call z).isDeclaration = true)
include hds hz

theorem priority_declaring : z.2.priority = 10 ∧ z.2.name ∉ ["tr", "tn"] ∧ z.2.name ≠ "ignore" := by
  have hpriority : ∀ x ∈ Registry.standardDirectives, x.name ∈ ["layout", "nolayout", "extend"] →
      x.priority = 10 ∧ x.name ∉ ["tr", "tn"] ∧ x.name ≠ "ignore" := by decide
  refine hpriority z.2 (hds.mem z (List.mem_cons_self ..)) ?_
  simp only [call, Call.isDeclaration, Bool.or_eq_true, Bool.and_eq_true, beq_iff_eq] at hz
  simp only [List.mem_cons, List.not_mem_nil, or_false]
  tauto

include hx

theorem undeclared_erase {e : Element} (he : e ∈ x.label.kind.element?) :
    (Registry.standard lead).undeclared (e.erase z.1) = (Registry.standard lead).undeclared e := by
  refine congrArg (Element.mk e.tag) ?_
  dsimp only [Element.erase]
  rw [List.filter_filter]
  refine List.filter_congr fun a ha => ?_
  by_cases hattr : a.1 = z.1
  · have hname := hds.attr z (List.mem_cons_self ..)
    have hget : e.get? z.1 = some a.2 := hattr ▸ Element.get?_of_mem (hx.distinct e he) ha
    have hdeclares : (Registry.standard lead).isDeclaration a = true := by
      have := (Registry.standard lead).isDeclaration_append x.label.id z.2.name a.2
      rw [show (Registry.standard lead).lead ++ z.2.name = a.1 from (hattr.trans hname).symm] at this
      rw [this, ← hz, call, show x.label.kind.element? = some e from he, Option.bind_some, hget]
    simp [hdeclares]
  · simp [hattr]

/-- A directive that declares something leaves the element as it is, apart from that. -/
theorem step_declaring (ns : List NodeId) :
    (x.step .settled d c z).Shadows (Stays lead planted continues vanishes ds) ns
      (.silent (.kept (x.shadow (.standard lead)))) := by
  obtain ⟨hpriority, hnames, hignore⟩ := priority_declaring hds hz
  obtain ⟨l, hl, -⟩ := hx.top ⟨z, List.mem_cons_self .., by rw [hpriority]; decide⟩
  obtain ⟨code, hcode⟩ := Handler.bareEffect_of_isDeclaration (n := x.label.id) (k := x.label.kind)
    (s := ⟨d, x.label.id, (x.call z).parameter⟩) hz
  have hplanted : planted := by
    refine hx.declares ⟨z, List.mem_cons_self .., hz⟩ fun w hw hname => ?_
    have hfirst : ∀ x ∈ Registry.standardDirectives, x.name = "ignore" → x.priority < 10 := by decide
    have hle := hds.le w hw
    rw [hpriority] at hle
    exact absurd (hfirst w.2 (hds.mem w hw) hname) (Int.not_lt.2 hle)
  have heager : (Kind.code (Fragment.eager code)).isLate = false := rfl
  have hlate : (tree (⟨Tree.root, .code (Fragment.eager code)⟩ : Node) nil).late = nil := late_cons_eager heager
  have hresult : (x.step .settled d c z).result = .ok (.kept { x.mapLabel .settled (·.erase z.1) with
      niche := .here (l ++ tree ⟨Tree.root, .code (Fragment.eager code)⟩ nil) nil }) := by
    rw [step_eq hnames, hcode]
    refine congrArg (fun n => Except.ok (Turnout.kept { x.mapLabel .settled (·.erase z.1) with niche := n })) ?_
    change x.niche.flank _ nil = _
    rw [hl]
    rfl
  have hsteady := hx.next hds (relabels_step hds hnames hresult) hignore (by
    have hfirm := hx.firm
    rw [hl, Niche.fill, firm_append] at hfirm
    exact firm_append.2 ⟨firm_append.2 ⟨hfirm.1, fun _ => rfl, rfl, trivial, trivial⟩, hfirm.2⟩)
    (List.forall_mem_nil _) hx.content fun _ => ⟨_, rfl, fun _ => hplanted⟩
  unfold Report.Shadows
  rw [hresult]
  refine ⟨.kept (x.shadow (.standard lead)), ⟨hsteady, congrArg Turnout.kept ?_⟩, ?_⟩
  · have hniche : x.niche.late = (Niche.here (l ++ tree ⟨Tree.root, .code (Fragment.eager code)⟩ nil) nil).late := by
      rw [hl, Niche.late, Niche.late, late_append, hlate, append_nil]
    have hlabel : x.label.kind.mapElement (Registry.standard lead).undeclared =
        (x.label.kind.mapElement (·.erase z.1)).mapElement (Registry.standard lead).undeclared := by
      have herase := fun e => undeclared_erase hds hx hz (e := e)
      cases hk : x.label.kind with
      | element e => exact congrArg Kind.element (herase e (by rw [hk]; rfl)).symm
      | document | text | code | conditional | branch | loop => rfl
    rw [shadow, shadow, hniche, Node.undeclared, hlabel]
    rfl
  · rw [show (x.step .settled d c z).calls = [x.call z] from rfl, List.filter_singleton, hz]
    rfl

end Declaring

section Plain

variable (hds : Schedule lead (z :: ds)) (hnames : z.2.name ∉ ["tr", "tn"])
  (hx : x.Steady (.standard lead) planted continues vanishes (z :: ds))
  (hz : (x.call z).isDeclaration = false)
include hds hnames hx hz

theorem kept_step (h : (x.step .settled d c z).result = .ok (.kept y)) :
    y.Steady (.standard lead) planted continues vanishes ds := by
  have hmem := hds.mem z (List.mem_cons_self ..)
  have hrelabels := relabels_step hds hnames h
  have hmodest := Handler.isModest_bareEffect x.label.id ⟨d, x.label.id, (x.call z).parameter⟩
    x.label.kind z.2 hmem hz
  have hstill := Handler.isStill_bareEffect x.label.id ⟨d, x.label.id, (x.call z).parameter⟩
    x.label.kind z.2 hmem hz
  rw [step_eq hnames] at h
  dsimp only at h
  have hignore : z.2.name ≠ "ignore" := by
    intro hname
    rw [hname] at h
    cases h
  have htop : (∃ w ∈ ds, w.2.priority ≤ 20) → ∃ l, x.niche = .here l nil ∧ (l.EndsEager → planted) :=
    fun ⟨w, hw, hle⟩ => hx.top ⟨w, List.mem_cons_of_mem z hw, hle⟩
  generalize Handler.bareEffect _ _ _ = e at h hmodest hstill
  cases e with
  | remove => cases h
  | content p =>
    cases h
    exact hx.next hds hrelabels hignore hx.firm hx.endsLate (fun q hq => Option.some.inj hq ▸ hmodest) htop
  | change f =>
    cases h
    exact hx.next hds hrelabels hignore hx.firm hx.endsLate hx.content htop
  | mark =>
    cases h
    exact hx.next hds hrelabels hignore hx.firm hx.endsLate hx.content htop
  | fail => cases h
  | flank | loop | condition | otherwise =>
    rw [Effect.act_eq_move rfl] at h
    obtain ⟨n, hn, hy⟩ := exists_of_map_eq_ok h
    cases hy
    refine hx.next hds hrelabels hignore (Effect.firm_move hmodest hx.isElement hx.firm hn)
      (Effect.endsLate_move hmodest hx.endsLate hn) hx.content ?_
    rintro ⟨w, hw, hle⟩
    exact absurd (hds.lt (hstill rfl) w hw) (Int.not_lt.2 hle)

theorem gone_step {f : Forest Node} (h : (x.step .settled d c z).result = .ok (.gone f)) :
    f.Firm ∧ (f.EndsEager → planted ∧ vanishes) := by
  have hmem := hds.mem z (List.mem_cons_self ..)
  have hmodest := Handler.isModest_bareEffect x.label.id ⟨d, x.label.id, (x.call z).parameter⟩
    x.label.kind z.2 hmem hz
  have herases := Handler.erases_bareEffect ⟨d, x.label.id, (x.call z).parameter⟩ x.label.kind z.2.name
  rw [step_eq hnames] at h
  dsimp only at h
  generalize Handler.bareEffect _ _ _ = e at h hmodest herases
  cases e with
  | remove p =>
    cases h
    cases p with
    | some p =>
      have hlate := hmodest p rfl
      have hfirm := Niche.firm_exchange hx.isElement hx.firm (b := ⟨Tree.root, p.kind⟩) hlate
        (Effect.firm_leaf hlate 0)
      exact ⟨hfirm, fun h => absurd h (Niche.not_endsEager_fill hlate hfirm hx.endsLate)⟩
    | none =>
      have hearly : ∀ x ∈ Registry.standardDirectives, x.name = "ignore" ∨ x.name = "import" →
          x.priority ≤ 20 := by decide
      have hname := herases rfl
      obtain ⟨l, hl, hplanted⟩ := hx.top ⟨z, List.mem_cons_self ..,
        hearly z.2 hmem (hname.imp_right And.left)⟩
      have hfill : x.niche.fill nil = l := by
        rw [hl, Niche.fill, nil_append, append_nil]
      have hfirm := (Niche.firm_beside hx.firm).1
      rw [hl] at hfirm
      change (x.niche.fill nil).Firm ∧ ((x.niche.fill nil).EndsEager → _)
      rw [hfill]
      exact ⟨hfirm, fun h => ⟨hplanted h, hx.vanishes z (List.mem_cons_self ..) hname⟩⟩
  | content | change => cases h
  | mark | flank | loop | condition | otherwise | fail =>
    rw [Effect.act_eq_move rfl] at h
    obtain ⟨n, -, hy⟩ := exists_of_map_eq_ok h
    cases hy

/-- A directive that declares nothing does the same without the declarations. -/
theorem step_shadow {ns : List NodeId} (hns : planted → continues → x.label.id ∈ ns) :
    (x.step .settled d c z).Shadows (Stays lead planted continues vanishes ds) ns
      ((x.shadow (.standard lead)).step .settled d c z) := by
  have hmem := hds.mem z (List.mem_cons_self ..)
  have hmodest := Handler.isModest_bareEffect x.label.id ⟨d, x.label.id, (x.call z).parameter⟩
    x.label.kind z.2 hmem hz
  have hcall := call_shadow (r := .standard lead) (hds.attr z (List.mem_cons_self ..)) hz
  have hcalls : (x.step .settled d c z).calls.filter (!·.isDeclaration) = [x.call z] := by
    rw [show (x.step .settled d c z).calls = [x.call z] from rfl, List.filter_singleton, hz]
    rfl
  have hfirm : ((x.mapLabel .settled (·.erase z.1)).niche.fill
      (tree (x.mapLabel .settled (·.erase z.1)).label nil)).Firm := by
    have helement : (x.mapLabel .settled (·.erase z.1)).label.kind.isElement = true :=
      (Kind.isElement_mapElement _ _).trans hx.isElement
    have hlate := Kind.isLate_of_isElement helement
    refine Niche.firm_exchange hx.isElement hx.firm hlate ?_
    rw [firm_tree hlate]
    exact ⟨Kind.bears_of_isElement helement _, trivial⟩
  have hshadow : (x.shadow (.standard lead)).step .settled d c z = ⟨[x.call z],
      (Handler.bareEffect ⟨d, x.label.id, (x.call z).parameter⟩ x.label.kind z.2.name).act .settled
        ⟨d, x.label.id, (x.call z).parameter⟩
        ((x.mapLabel .settled (·.erase z.1)).shadow (.standard lead))⟩ := by
    have hresource : (x.shadow (.standard lead)).label.kind.isResource = x.label.kind.isResource :=
      Kind.isResource_mapElement (f := (Registry.standard lead).undeclared) (fun _ => rfl) _
    rw [step_eq hnames, hcall, mapLabel_shadow (f := (·.erase z.1)) fun e => Element.erase_keep _ _ e,
      Handler.bareEffect_congr hresource]
    rfl
  unfold Report.Shadows
  rw [hshadow, hcalls]
  cases hresult : (x.step .settled d c z).result with
  | ok out =>
    have hact := hresult
    rw [step_eq hnames] at hact
    refine ⟨out.shadow (.standard lead), ?_, congrArg (Report.mk _) (act_shadow hmodest hfirm hact)⟩
    cases out with
    | kept y => exact ⟨kept_step hds hnames hx hz hresult, rfl⟩
    | gone f =>
      obtain ⟨hf, hend⟩ := gone_step hds hnames hx hz hresult
      exact ⟨hf, hend, rfl⟩
  | error e =>
    have hact := hresult
    rw [step_eq hnames] at hact
    refine (act_shadow_error (r := .standard lead) hfirm hact).imp (congrArg (Report.mk _)) ?_
    rintro ⟨hloop, hparam, herror, hleft⟩
    have hname := Handler.isLoop_bareEffect (by rw [hloop]; rfl)
    have hpriority : ∀ x ∈ Registry.standardDirectives, x.name = "foreach" → x.priority ≤ 20 := by decide
    obtain ⟨l, hl, hplanted⟩ := hx.top ⟨z, List.mem_cons_self .., hpriority z.2 hmem hname⟩
    refine ⟨herror, x.label.id, hns (hplanted ?_) ?_, ?_⟩
    · rwa [show (x.mapLabel .settled (·.erase z.1)).niche.left = l by
        change x.niche.left = l
        rw [hl]
        rfl] at hleft
    · exact hx.continues z (List.mem_cons_self ..) hname hparam
    · have hlast : (x.call z) = ⟨x.label.id, "foreach", none⟩ := by
        rw [← hname, ← hparam]
        rfl
      exact congrArg some hlast

end Plain

theorem run_cons (z : String × Directive) (ds : List (String × Directive)) (x : Stance Node) :
    x.run .settled d c (z :: ds) = (x.step .settled d c z).bind (Turnout.proceed d c ds) := by
  rw [run]
  refine congrArg _ (funext fun out => ?_)
  cases out <;> rfl

/-- The directives of an element do the same without the declarations among them. -/
theorem run_shadow {ns : List NodeId} (hds : Schedule lead ds) (hnames : ∀ z ∈ ds, z.2.name ∉ ["tr", "tn"])
    (hx : x.Steady (.standard lead) planted continues vanishes ds)
    (hns : planted → continues → x.label.id ∈ ns) :
    (x.run .settled d c ds).Shadows (Stays lead planted continues vanishes []) ns
      ((x.shadow (.standard lead)).run .settled d c (ds.filter fun z => !(x.call z).isDeclaration)) := by
  induction ds generalizing x with
  | nil => exact Report.shadows_silent ⟨hx, rfl⟩ ns
  | cons z ds ih =>
    obtain ⟨hname, hnames⟩ := List.forall_mem_cons.1 hnames
    have hnext : ∀ out out', (x.step .settled d c z).result = .ok out →
        Stays lead planted continues vanishes ds out out' →
        (out.proceed d c ds).Shadows (Stays lead planted continues vanishes []) ns
          (out'.proceed d c (ds.filter fun z => !(x.call z).isDeclaration)) := by
      intro out out' hout h
      cases out with
      | gone f =>
        obtain ⟨hf, hend, rfl⟩ := h
        exact Report.shadows_silent ⟨hf, hend, rfl⟩ ns
      | kept y =>
        obtain ⟨hy, rfl⟩ := h
        have hrelabels := relabels_step hds hname hout
        have hfilter : (ds.filter fun z => !(x.call z).isDeclaration) =
            ds.filter fun z => !(y.call z).isDeclaration :=
          List.filter_congr fun w hw =>
            congrArg Bool.not (hrelabels.isDeclaration_eq (hds.ne hw) (hds.tail.attr w hw)).symm
        rw [hfilter]
        refine ih hds.tail hnames hy ?_
        rw [show y.label.id = x.label.id from id_step hout]
        exact hns
    rw [List.filter_cons, run_cons]
    cases hz : (x.call z).isDeclaration with
    | true =>
      have hrun := (step_declaring hds hx hz ns).bind hnext
      rwa [Report.silent_bind] at hrun
    | false =>
      rw [Bool.not_false, if_pos rfl, run_cons]
      exact (step_shadow hds hname hx hz hns).bind hnext

end Stance

end Steady

end HtmlTemplate
