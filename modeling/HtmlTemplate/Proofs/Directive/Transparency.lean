import HtmlTemplate.Proofs.Chunk.Late
import HtmlTemplate.Proofs.Directive.Shadow

/-! # Declarations and the body

What is declared about the layout of a page does not change the body of the page
(`transform_undeclared`), unless an element is to go on with a loop and a declaration came in between
(`obstructed`).
-/

namespace HtmlTemplate

open Forest

/-! ## Documents without declarations -/

namespace Registry

/-- An element plants a fragment before itself. -/
def declares (r : Registry) (k : Kind) : Bool :=
  !r.carries "ignore" k && k.element?.any fun e => e.attributes.any r.isDeclaration

/-- An element is to go on with the loop right before it. -/
def continues (r : Registry) (k : Kind) : Bool :=
  k.element?.any fun e =>
    e.has (r.lead ++ "foreach") && (parameter? (e.get? (r.lead ++ "foreach"))).isNone

/-- Nothing is left of an element. -/
def vanishes (r : Registry) (k : Kind) : Bool :=
  r.carries "ignore" k || k.isResource && r.carries "import" k

/-- The elements that are to go on with a loop and have a planted fragment right before them; `blocked` says
whether there is one before the first tree. -/
def obstructed (r : Registry) : (blocked : Bool) → Forest Node → List NodeId
  | _, nil => []
  | blocked, cons a c rest =>
    let planted := blocked || r.declares a.kind
    (if planted && r.continues a.kind then [a.id] else []) ++
      (r.obstructed false c ++ r.obstructed (planted && r.vanishes a.kind) rest)

variable {lead : String} {d : Dialect} {a : Node} {left : Forest Node} {blocked : Bool}

theorem mem_ordered_of_isDeclaration {e : Element} {a : String × AttrValue} (ha : a ∈ e.attributes)
    (h : (standard lead).isDeclaration a = true) : a.1 ∈ ((standard lead).ordered e).map Prod.fst := by
  have hname : ∃ name ∈ ["layout", "nolayout", "extend"], a.1 = lead ++ name := by
    simp only [isDeclaration, Bool.or_eq_true, Bool.and_eq_true, beq_iff_eq] at h
    rcases h with (h | h) | ⟨h, -⟩
    · exact ⟨"layout", by decide, h⟩
    · exact ⟨"nolayout", by decide, h⟩
    · exact ⟨"extend", by decide, h⟩
  obtain ⟨name, hname, hattr⟩ := hname
  have hnames : ∀ name ∈ ["layout", "nolayout", "extend"], name ∈ (standard lead).names := by
    show ∀ name ∈ ["layout", "nolayout", "extend"], name ∈ (standard "").names
    decide
  obtain ⟨x, hx⟩ := (standard lead).exists_directive? (hnames name hname)
  refine List.mem_map.2 ⟨(a.1, x), ?_, rfl⟩
  refine ((standard lead).ordered_perm e).mem_iff.2 (List.mem_filterMap.2 ⟨a, ha, ?_⟩)
  rw [hattr, show (standard lead).directive? (lead ++ name) = some x from hx]
  rfl

theorem fst_mem_of_mem_ordered {r : Registry} {e : Element} {z : String × Directive}
    (h : z ∈ r.ordered e) : z.1 ∈ e.attributes.map Prod.fst := by
  obtain ⟨a, ha, haz⟩ := List.mem_filterMap.1 ((r.ordered_perm e).mem_iff.1 h)
  obtain ⟨x, -, rfl⟩ := Option.map_eq_some_iff.1 haz
  exact List.mem_map_of_mem ha

/-- An element before its directives run. -/
theorem steady {e : Element} (ha : a.kind = .element e) (he : e.Distinct) (hleft : left.Firm)
    (hblocked : left.EndsEager → blocked = true) :
    (⟨.here left nil, a, none⟩ : Stance Node).Steady (standard lead)
      ((blocked || (standard lead).declares a.kind) = true) ((standard lead).continues a.kind = true)
      ((standard lead).vanishes a.kind = true) ((standard lead).orderedOf a.kind) := by
  have hordered : (standard lead).orderedOf a.kind = (standard lead).ordered e := by rw [ha]; rfl
  have helement : a.kind.isElement = true := by rw [ha]; rfl
  have hlate := Kind.isLate_of_isElement helement
  have hds := Schedule.ordered he lead
  have hcarries {name : String} (hname : name ∈ (standard lead).names) :=
    mem_orderedOf_iff (k := a.kind) hname
  have hnames : ∀ name ∈ ["ignore", "import"], name ∈ (standard lead).names := by
    show ∀ name ∈ ["ignore", "import"], name ∈ (standard "").names
    decide
  refine ⟨helement, ?_, List.forall_mem_nil _, nofun, ?_, ?_, fun _ => ⟨left, rfl, fun h => ?_⟩, ?_, ?_, ?_⟩
  · refine firm_append.2 ⟨hleft, firm_append.2 ⟨(firm_tree hlate).2 ⟨?_, trivial⟩, trivial⟩⟩
    exact Kind.bears_of_isElement helement _
  · intro e' he'
    rw [ha] at he'
    exact Option.some.inj he' ▸ he
  · intro e' he' x hx hdeclares
    rw [ha] at he'
    obtain rfl : e = e' := Option.some.inj he'
    rw [hordered]
    exact mem_ordered_of_isDeclaration hx hdeclares
  · rw [hblocked h]
    rfl
  · rintro ⟨z, hz, hdeclares⟩ hignore
    have hfalse : (standard lead).carries "ignore" a.kind = false := Bool.eq_false_iff.2 fun h => by
      obtain ⟨w, hw, hname⟩ := (hcarries (hnames "ignore" (by decide))).2 h
      exact hignore w hw hname
    rw [hordered] at hz
    obtain ⟨x, hx, hxz⟩ := List.mem_map.1 (fst_mem_of_mem_ordered hz)
    have hcall : (standard lead).isDeclaration x = true := by
      have happend := (standard lead).isDeclaration_append a.id z.2.name x.2
      rw [show (standard lead).lead ++ z.2.name = x.1 from (hxz.trans (hds.attr z hz)).symm] at happend
      rw [happend, ← hdeclares, Stance.call, ha, Kind.element?, Option.bind_some, ← hxz,
        Element.get?_of_mem he hx]
    rw [declares, hfalse, ha, Bool.or_eq_true]
    exact Or.inr (List.any_eq_true.2 ⟨x, hx, hcall⟩)
  · intro z hz hname hparam
    have hz' : z ∈ (standard lead).ordered e := hordered ▸ hz
    have hattr : z.1 = lead ++ "foreach" := by rw [hds.attr z hz', hname]
    have hhas : e.has (lead ++ "foreach") = true := by
      have := ((standard lead).mem_names_ordered e "foreach").1 (List.mem_map.2 ⟨z, hz', hname⟩)
      exact this.2
    rw [Stance.call, ha, hattr] at hparam
    rw [continues, ha, Kind.element?, Option.any_some, Bool.and_eq_true]
    exact ⟨hhas, Option.isNone_iff_eq_none.2 hparam⟩
  · intro z hz hname
    rw [vanishes, Bool.or_eq_true, Bool.and_eq_true]
    rcases hname with hname | ⟨hname, hresource⟩
    · exact Or.inl ((hcarries (hnames "ignore" (by decide))).1 ⟨z, hz, hname⟩)
    · exact Or.inr ⟨hresource, (hcarries (hnames "import" (by decide))).1 ⟨z, hz, hname⟩⟩

/-- What comes of an element is the same without declarations, apart from what is declared. -/
theorem level_shadow {planted continues vanishes : Prop} {ns : List NodeId} {out out' : Turnout Node}
    (h : Stance.Stays lead planted continues vanishes [] out out') {below below' : Report (Forest Node)}
    (hbelow : below.Shadows (fun k k' => k.Firm ∧ k' = k.late) ns below') :
    (out.level .settled below).Shadows
      (fun k k' => k.Firm ∧ (k.EndsEager → planted ∧ vanishes) ∧ k' = k.late) ns
      (out'.level .settled below') := by
  cases out with
  | gone f =>
    obtain ⟨hf, hend, rfl⟩ := h
    exact Report.shadows_silent ⟨hf, hend, rfl⟩ ns
  | kept x =>
    obtain ⟨hx, rfl⟩ := h
    have hlate := Kind.isLate_of_isElement hx.isElement
    have hlabel : x.label.undeclared (standard lead) = x.label := by
      have hkept : ∀ e ∈ x.label.kind.element?, (standard lead).undeclared e = e := fun e he =>
        congrArg (Element.mk e.tag) (List.filter_eq_self.2 fun a ha => by
          rw [Bool.eq_false_iff.2 fun h => List.not_mem_nil (hx.carried e he a ha h)]
          rfl)
      refine congrArg (Node.mk x.label.id) ?_
      cases hk : x.label.kind with
      | element e => exact congrArg Kind.element (hkept e (by rw [hk]; rfl))
      | document | text | code | conditional | branch | loop => rfl
    have hcontent : ((x.content.map fun p => Report.silent (p.planted .settled)).getD below).Shadows
        (fun k k' => k.Firm ∧ k' = k.late) ns
        ((x.content.map fun p => Report.silent (p.planted .settled)).getD below') := by
      have hleaf := hx.content
      cases hp : x.content with
      | none => exact hbelow
      | some p =>
        rw [hp] at hleaf
        exact Report.shadows_silent ⟨Effect.firm_leaf (hleaf p rfl) 0,
          (p.late_planted (hleaf p rfl)).symm⟩ ns
    rw [Turnout.level, Turnout.level, Stance.shadow, hlabel]
    refine hcontent.map ?_
    rintro g g' ⟨hg, rfl⟩
    have hfirm := Niche.firm_exchange hx.isElement hx.firm hlate
      ((firm_tree hlate).2 ⟨Kind.bears_of_isElement hx.isElement _, hg⟩)
    refine ⟨hfirm, fun h => absurd h (Niche.not_endsEager_fill hlate hfirm hx.endsLate), ?_⟩
    rw [Niche.late_fill hx.firm, late_tree hlate]

theorem orderedOf_undeclared {e : Element} (ha : a.kind = .element e) (he : e.Distinct) (x : Stance Node)
    (hx : x.label = a) : (standard lead).orderedOf (a.undeclared (standard lead)).kind =
      ((standard lead).orderedOf a.kind).filter fun z => !(x.call z).isDeclaration := by
  have hkind : (a.undeclared (standard lead)).kind = .element ((standard lead).undeclared e) := by
    rw [Node.undeclared, ha]
    rfl
  rw [hkind, ha]
  refine (ordered_undeclared he a.id).trans (List.filter_congr fun z _ => ?_)
  rw [Stance.call, hx, ha]
  rfl

/-- The trees up to an element once all is done with it, with its declarations and without. -/
theorem element_shadow {e : Element} {c c' : Forest Node} {ns : List NodeId}
    {below below' : Report (Forest Node)} (ha : a.kind = .element e) (he : e.Distinct)
    (htranslates : (standard lead).translates a.kind = false) (hleft : left.Firm)
    (hblocked : left.EndsEager → blocked = true)
    (hns : (blocked || (standard lead).declares a.kind) = true → (standard lead).continues a.kind = true →
      a.id ∈ ns)
    (hbelow : below.Shadows (fun k k' => k.Firm ∧ k' = k.late) ns below') :
    ((Stance.run .settled d c ((standard lead).orderedOf a.kind) ⟨.here left nil, a, none⟩).bind
      (·.level .settled below)).Shadows
      (fun k k' => k.Firm ∧ (k.EndsEager → (blocked || (standard lead).declares a.kind) = true ∧
        (standard lead).vanishes a.kind = true) ∧ k' = k.late) ns
      ((Stance.run .settled d c' ((standard lead).orderedOf (a.undeclared (standard lead)).kind)
        ⟨.here left.late nil, a.undeclared (standard lead), none⟩).bind (·.level .settled below')) := by
  have hnames := not_translation htranslates
  have hds : Schedule lead ((standard lead).orderedOf a.kind) := by
    rw [ha]
    exact Schedule.ordered he lead
  have hrun := Stance.run_shadow (d := d) (c := c) hds hnames (steady ha he hleft hblocked) hns
  rw [orderedOf_undeclared ha he ⟨.here left nil, a, none⟩ rfl,
    Stance.run_content (fun z hz => hnames z (List.mem_filter.1 hz).1) .settled c' c]
  exact hrun.bind fun out out' _ h => level_shadow h hbelow

/-- Text and code stay as they are. -/
theorem leaf_shadow {c : Forest Node} {ns : List NodeId} {below : Report (Forest Node)} {P : Prop}
    (ha : a.kind.isLeaf = true) (hlate : a.kind.isLate = true) (hleft : left.Firm)
    (hbelow : below = .silent nil) :
    ((Stance.run .settled d c ((standard lead).orderedOf a.kind) ⟨.here left nil, a, none⟩).bind
      (·.level .settled below)).Shadows
      (fun k k' => k.Firm ∧ (k.EndsEager → P) ∧ k' = k.late) ns
      ((Stance.run .settled d c ((standard lead).orderedOf (a.undeclared (standard lead)).kind)
        ⟨.here left.late nil, a.undeclared (standard lead), none⟩).bind (·.level .settled below)) := by
  have hordered : (standard lead).orderedOf a.kind = [] := by
    cases hk : a.kind <;> simp_all [Kind.isLeaf, orderedOf, Kind.element?]
  have hundeclared : a.undeclared (standard lead) = a := by
    refine congrArg (Node.mk a.id) ?_
    cases hk : a.kind <;> simp_all [Kind.isLeaf, Kind.mapElement]
  have hbears : a.kind.bears [] := by
    cases hk : a.kind <;> simp_all [Kind.isLeaf, Kind.bears]
  have hfirm : (left ++ (tree a nil ++ nil)).Firm :=
    firm_append.2 ⟨hleft, firm_append.2 ⟨(firm_tree hlate).2 ⟨hbears, trivial⟩, trivial⟩⟩
  rw [hundeclared, hordered, hbelow]
  refine Report.shadows_silent ⟨hfirm, fun h => absurd h ?_, ?_⟩ ns
  · exact not_endsEager_cons hlate (List.forall_mem_nil _)
  · change left.late ++ (tree a nil ++ nil) = (left ++ (tree a nil ++ nil)).late
    rw [late_append, append_nil, late_tree hlate]
    rfl

/-- A pass over a forest does the same without declarations, apart from what is declared. -/
theorem report_shadow {f : Forest Node} (hf : f.kinds.IsMarkup)
    (hk : ∀ a ∈ f.preorder, a.kind.isLate = true ∧ (standard lead).translates a.kind = false ∧
      ∀ e ∈ a.kind.element?, e.Distinct)
    (hleft : left.Firm) (hblocked : left.EndsEager → blocked = true) :
    ((standard lead).report .settled d left f).Shadows (fun k k' => k.Firm ∧ k' = k.late)
      ((standard lead).obstructed blocked f)
      ((standard lead).report .settled d left.late (f.map (Node.undeclared (standard lead)))) := by
  induction f generalizing left blocked with
  | nil => exact Report.shadows_silent ⟨hleft, rfl⟩ _
  | cons a c rest ihc ihr =>
    rw [preorder_cons, List.forall_mem_cons, List.forall_mem_append] at hk
    obtain ⟨⟨hlate, htranslates, hdistinct⟩, hkc, hkr⟩ := hk
    obtain ⟨ha, hc, hr⟩ := hf
    have hhere : (blocked || (standard lead).declares a.kind) = true →
        (standard lead).continues a.kind = true →
        a.id ∈ (standard lead).obstructed blocked (cons a c rest) := by
      intro hplanted hcontinues
      rw [obstructed, hplanted, hcontinues]
      exact List.mem_append_left _ (List.mem_singleton.2 rfl)
    have hinner : (standard lead).obstructed false c ⊆
        (standard lead).obstructed blocked (cons a c rest) := by
      rw [obstructed]
      exact List.subset_append_of_subset_right _ (List.subset_append_left _ _)
    have hlater : (standard lead).obstructed ((blocked || (standard lead).declares a.kind) &&
        (standard lead).vanishes a.kind) rest ⊆
          (standard lead).obstructed blocked (cons a c rest) := by
      rw [obstructed]
      exact List.subset_append_of_subset_right _ (List.subset_append_right _ _)
    generalize (standard lead).obstructed blocked (cons a c rest) = ns at hhere hinner hlater ⊢
    have hbelow := (ihc hc hkc firm_nil fun h => absurd h not_endsEager_nil).mono hinner
    rw [map_cons, report, report]
    refine Report.Shadows.bind (R := fun k k' => k.Firm ∧ (k.EndsEager →
      (blocked || (standard lead).declares a.kind) = true ∧ (standard lead).vanishes a.kind = true) ∧
        k' = k.late) ?_ ?_
    · rcases ha with helement | ⟨hleaf, hnil⟩
      · obtain ⟨e, ha⟩ := Kind.exists_element helement
        exact element_shadow ha (hdistinct e (by rw [ha]; rfl)) htranslates hleft hblocked hhere hbelow
      · obtain rfl : c = nil := by
          cases c with
          | nil => rfl
          | cons => cases hnil
        exact leaf_shadow hleaf hlate hleft rfl
    · rintro k k' - ⟨hfirm, hend, rfl⟩
      refine (ihr hr hkr hfirm fun h => ?_).mono hlater
      rw [Bool.and_eq_true]
      exact hend h

/-- The document without declarations. -/
def undeclare (r : Registry) (t : Tree) : Tree :=
  { t with forest := t.forest.map (Node.undeclared r) }

theorem undeclare_ofContent (r : Registry) (f : Forest Kind) :
    r.undeclare (.ofContent f) = .ofContent (f.map (Kind.mapElement r.undeclared)) := by
  unfold Tree.ofContent
  rw [numberFrom_map]
  rfl

end Registry

theorem Forest.IsMarkup.mapElement {f : Forest Kind} (hf : f.IsMarkup) (g : Element → Element) :
    (f.map (Kind.mapElement g)).IsMarkup := by
  induction f with
  | nil => trivial
  | cons k c r ihc ihr =>
    obtain ⟨hk, hc, hr⟩ := hf
    refine ⟨?_, ihc hc, ihr hr⟩
    rcases hk with hk | ⟨hk, rfl⟩
    · exact Or.inl ((Kind.isElement_mapElement k g).trans hk)
    · refine Or.inr ⟨?_, rfl⟩
      cases k <;> exact hk

/-! ## The margin -/

namespace Margin

variable {d : Dialect}

theorem note_of_isDeclaration {x : Call} (hx : x.isDeclaration = true) (m : Margin) : m.note d x = m := by
  have hnames : ∀ name ∈ ["layout", "nolayout", "extend"], name ∉ Handler.importNames ∧ name ≠ "main" := by
    decide
  have hname : x.directive ∈ ["layout", "nolayout", "extend"] := by
    simp only [Call.isDeclaration, Bool.or_eq_true, Bool.and_eq_true, beq_iff_eq] at hx
    simp only [List.mem_cons, List.not_mem_nil, or_false]
    tauto
  obtain ⟨himport, hmain⟩ := hnames _ hname
  rw [note, if_neg himport, if_neg hmain]

theorem after_filter (m : Margin) (calls : List Call) :
    m.after d (calls.filter (!·.isDeclaration)) = m.after d calls := by
  induction calls generalizing m with
  | nil => rfl
  | cons x calls ih =>
    rw [List.filter_cons]
    cases hx : x.isDeclaration with
    | true =>
      refine (ih m).trans ?_
      rw [after, after, List.foldl_cons, note_of_isDeclaration hx]
    | false => exact ih (m.note d x)

/-- All that stands at the head of a document is eager. -/
theorem head_after_late {m : Margin} (hm : m.head.Firm ∧ m.head.late = nil) (calls : List Call) :
    (m.after d calls).head.Firm ∧ (m.after d calls).head.late = nil := by
  induction calls generalizing m with
  | nil => exact hm
  | cons x calls ih =>
    refine ih ?_
    unfold note
    split
    · split
      · exact ⟨⟨fun _ => rfl, rfl, trivial, hm.1⟩, (late_cons_eager rfl).trans hm.2⟩
      · exact hm
    · split <;> exact hm

end Margin

/-! ## The body -/

/-- The body of what a run leaves behind, with texts joined again that eager fragments kept apart. -/
theorem Run.Accords.join_body {d : Dialect} {bound : NodeId} {run : Run} {calls : List Call}
    {k : Forest Node} (h : run.Accords d bound ⟨calls, .ok k⟩)
    (hcalls : ∀ c ∈ calls, c.node < bound ∧ c.node ≠ Tree.root) (hk : k.Firm) :
    Chunk.join (run.tree.body d) = Chunk.join ((Block.sequence
      ((k.late.shown (Margin.blank.after d calls).marked).blocks d)).filter (!·.isEager)) := by
  obtain ⟨hhead, hlate⟩ := Margin.head_after_late (d := d) (m := .blank) ⟨trivial, rfl⟩ calls
  have hmarked : (Margin.blank.after d calls).marked ≠ some Tree.root := by
    intro hroot
    rcases Margin.marked_after d Margin.blank calls Tree.root hroot with hn | ⟨c, hc, hn⟩
    · cases hn
    · exact (hcalls c hc).2 hn
  have hmain := h.kindsAt_main hcalls (k := k) rfl
  rw [Tree.body, Tree.chunks, hmain, Forest.chunks, Chunk.join_filter_join fun _ => rfl,
    filter_shown_late (firm_append.2 ⟨hhead, hk⟩) hmarked, late_append, hlate, nil_append]

/-- One run does the same as another, apart from declarations, unless one of the given nodes could not go on
with a loop. -/
def Run.Transparent (d : Dialect) (ns : List NodeId) (run run' : Run) : Prop :=
  (run.error = run'.error ∨ run.error = some .foreachAlone ∧
    ∃ n ∈ ns, run.calls.getLast? = some ⟨n, "foreach", none⟩) ∧
  (run.error = none → Chunk.join (run.tree.body d) = Chunk.join (run'.tree.body d))

theorem Run.Accords.transparent {d : Dialect} {bound bound' : NodeId} {run run' : Run} {ns : List NodeId}
    {out out' : Report (Forest Node)} (h : run.Accords d bound out) (h' : run'.Accords d bound' out')
    (hcalls : ∀ c ∈ out.calls, c.node < bound ∧ c.node ≠ Tree.root)
    (hcalls' : ∀ c ∈ out'.calls, c.node < bound' ∧ c.node ≠ Tree.root)
    (hshadow : out.Shadows (fun k k' => k.Firm ∧ k' = k.late) ns out') : run.Transparent d ns run' := by
  obtain ⟨calls, result⟩ := out
  cases result with
  | error e =>
    have herror : run.error = some e := h.2
    refine ⟨hshadow.imp ?_ ?_, fun hnone => ?_⟩
    · rintro rfl
      exact herror.trans (show run'.error = some e from h'.2).symm
    · rintro ⟨rfl, hlast⟩
      exact ⟨herror, h.1 ▸ hlast⟩
    · rw [herror] at hnone
      cases hnone
  | ok k =>
    obtain ⟨_, ⟨hk, rfl⟩, rfl⟩ := hshadow
    refine ⟨Or.inl (h.2.1.trans h'.2.1.symm), fun _ => ?_⟩
    rw [h.join_body hcalls hk, h'.join_body hcalls' (firm_late hk), late_late, Margin.after_filter]

/-- A pass over markup does the same without declarations, apart from what is declared. -/
theorem Registry.transparent_undeclare {lead : String} {f : Forest Kind} (d : Dialect) (hf : f.IsMarkup)
    (hk : ∀ k ∈ f.preorder, k.isLate = true ∧ (standard lead).translates k = false ∧
      ∀ e ∈ k.element?, e.Distinct) :
    ((standard lead).run d (.ofContent f)).Transparent d
      ((standard lead).obstructed false (f.numberFrom 1).1)
      ((standard lead).run d ((standard lead).undeclare (.ofContent f))) := by
  have hds (f : Forest Kind) : ∀ k ∈ f.preorder, ∀ z ∈ (standard lead).orderedOf k, z.2.IsStandard :=
    fun k _ => isStandard_orderedOf (fun x hx => ⟨x, hx, rfl, rfl⟩) k
  have hnodes : ∀ a ∈ (f.numberFrom 1).1.preorder, a.kind.isLate = true ∧
      (standard lead).translates a.kind = false ∧ ∀ e ∈ a.kind.element?, e.Distinct := by
    intro a ha
    refine hk a.kind ?_
    rw [← kinds_numberFrom 1 f, preorder_kinds]
    exact List.mem_map_of_mem ha
  have hnumber : ((f.map (Kind.mapElement (standard lead).undeclared)).numberFrom 1).1 =
      (f.numberFrom 1).1.map (Node.undeclared (standard lead)) := by
    rw [numberFrom_map]
    rfl
  have hstart : (nil : Forest Node).EndsEager → false = true := fun h => absurd h not_endsEager_nil
  have hshadow := report_shadow (d := d) ((kinds_numberFrom 1 f).symm ▸ hf) hnodes firm_nil hstart
  rw [← hnumber, late_nil] at hshadow
  have hrun := accords_run hf (hds f) d
  have hrun' := accords_run (hf.mapElement (standard lead).undeclared) (hds _) d
  rw [undeclare_ofContent]
  exact hrun.transparent hrun' (lt_next_of_call f) (lt_next_of_call _) hshadow

namespace Compiler

/-- What is declared about the layout of the page does not change its body: without the declarations a
document without translations fails as it does with them, unless a declaration came between a loop and
the element that was to go on with it, and otherwise the chunks of the body are the same, once texts
between which something was declared are joined. -/
theorem transform_undeclared (d d₀ : Dialect) (lead lead₀ source : String) :
    let c := standard d lead
    let t := Markup.parse lead₀ d₀ source
    let out := c.transform t
    let out' := c.transform (c.registry.undeclare t)
    (∀ a ∈ (t.below Tree.root).preorder, c.registry.translates a.kind = false) →
      (out.error = out'.error ∨ out.error = some .foreachAlone ∧
        ∃ n ∈ c.registry.obstructed false (t.below Tree.root),
          out.calls.getLast? = some ⟨n, "foreach", none⟩) ∧
      (out.error = none → Chunk.join (out.tree.body d) = Chunk.join (out'.tree.body d)) := by
  intro c t out out' htranslates
  have hbelow : t.below Tree.root = ((Markup.content lead₀ d₀ source).numberFrom 1).1 := Tree.below_ofContent _
  have hk : ∀ k ∈ (Markup.content lead₀ d₀ source).preorder, k.isLate = true ∧
      (Registry.standard lead).translates k = false ∧ ∀ e ∈ k.element?, e.Distinct := by
    intro k hk
    refine ⟨?_, ?_, ?_⟩
    · exact Markup.forall_content (P := fun k => k.isLate = true) (fun _ => rfl) (fun _ => rfl) (fun _ => rfl)
        source k hk
    · rw [← kinds_numberFrom 1 (Markup.content lead₀ d₀ source), preorder_kinds] at hk
      obtain ⟨a, ha, rfl⟩ := List.mem_map.1 hk
      exact htranslates a (hbelow ▸ ha)
    · exact Markup.forall_content (P := fun k => ∀ e ∈ k.element?, e.Distinct)
        (fun tag e he => Option.some.inj he ▸ Element.distinct_ofMarkup lead₀ d₀ tag) nofun nofun source k hk
  have hrun : out.Transparent d (c.registry.obstructed false (t.below Tree.root)) out' := by
    rw [hbelow]
    exact Registry.transparent_undeclare d (Markup.isMarkup_content lead₀ d₀ source) hk
  exact hrun

/-- A paragraph and what is written instead of it, with a declaration on each of them. -/
theorem transform_undeclared_branches :
    let c := standard .php "j:"
    let t := Markup.parse "j:" .php "<p j:if=a j:layout=l>x</p><b j:else j:nolayout>y</b>"
    let out := c.transform t
    let out' := c.transform (c.registry.undeclare t)
    (∀ a ∈ (t.below Tree.root).preorder, c.registry.translates a.kind = false) ∧
      (out.error = out'.error ∨ out.error = some .foreachAlone ∧
        ∃ n ∈ c.registry.obstructed false (t.below Tree.root),
          out.calls.getLast? = some ⟨n, "foreach", none⟩) ∧
      out.error = none ∧ out.calls.length = 4 ∧ out'.calls.length = 2 ∧
      Chunk.join (out.tree.body .php) = Chunk.join (out'.tree.body .php) := by
  intro c t out out'
  have htranslates : ∀ a ∈ (t.below Tree.root).preorder, c.registry.translates a.kind = false := by
    decide +kernel
  have hnone : out.error = none := by decide +kernel
  obtain ⟨herror, hbody⟩ := transform_undeclared .php .php "j:" "j:" _ htranslates
  exact ⟨htranslates, herror, hnone, by decide +kernel, by decide +kernel, hbody hnone⟩

/-- An item that is to go on with a loop fails for the declaration between them, and would not without it. A
declaration between two breaks keeps their texts apart. -/
theorem transform_differs_undeclared :
    let c := standard .php "j:"
    let t₁ := c.parse "<li j:foreach=\"$a as $b\">1</li><li j:layout=l j:foreach>2</li>"
    let t₂ := c.parse "<br><br j:layout=l>"
    (∀ t ∈ [t₁, t₂], ∀ a ∈ (t.below Tree.root).preorder, c.registry.translates a.kind = false) ∧
      (c.transform t₁).error = some .foreachAlone ∧
      (c.transform (c.registry.undeclare t₁)).error = none ∧
      (c.transform t₂).error = none ∧ (c.transform (c.registry.undeclare t₂)).error = none ∧
      (c.transform t₂).tree.body .php = [.text "<br>", .text "<br>"] ∧
      (c.transform (c.registry.undeclare t₂)).tree.body .php = [.text "<br><br>"] := by
  decide +kernel

end Compiler

end HtmlTemplate
