import HtmlTemplate.Proofs.Directive.Attributes
import HtmlTemplate.Proofs.Forest.Late
import Mathlib.Data.Option.Basic

/-! # Elements without declarations

The directives that declare something about the layout of the page can be taken off an element. The other
directives of the element stay as they are (`ordered_undeclared`), and what they do to its attributes does
not depend on those that were taken off (`Modest`).
-/

namespace HtmlTemplate

open Forest

/-! ## Attributes -/

namespace Element

/-- The element with those of its attributes that have property `p`. -/
def keep (p : String × AttrValue → Bool) (e : Element) : Element :=
  { e with attributes := e.attributes.filter p }

/-- The element with some attributes set one after the other. -/
def edit (l : List (String × AttrValue)) (e : Element) : Element :=
  l.foldl (fun e a => e.set a.1 a.2) e

/-- No attribute stands twice. -/
def Distinct (e : Element) : Prop :=
  (e.attributes.map Prod.fst).Nodup

variable {e : Element} {name attr : String} {value : AttrValue} {p : String × AttrValue → Bool}

theorem erase_keep (p : String × AttrValue → Bool) (name : String) (e : Element) :
    (e.keep p).erase name = (e.erase name).keep p :=
  congrArg (Element.mk e.tag) (List.filter_comm ..)

theorem get?_keep (hp : ∀ v ∈ e.get? name, p (name, v) = true) : (e.keep p).get? name = e.get? name := by
  obtain ⟨tag, l⟩ := e
  unfold get? keep at *
  dsimp only at hp ⊢
  induction l with
  | nil => rfl
  | cons a l ih =>
    rw [lookup_cons_eq] at hp ⊢
    rw [List.filter_cons]
    by_cases ha : name = a.1
    · rw [if_pos ha] at hp ⊢
      have hpa : p a = true := by
        have := hp a.2 rfl
        rwa [ha] at this
      rw [if_pos hpa, lookup_cons_eq, if_pos ha]
    · rw [if_neg ha] at hp ⊢
      split
      · rw [lookup_cons_eq, if_neg ha, ih hp]
      · exact ih hp

theorem has_keep (hp : ∀ v, p (name, v) = true) : (e.keep p).has name = e.has name := by
  unfold has keep
  rw [List.any_filter]
  refine List.any_congr rfl fun a => ?_
  by_cases ha : a.1 = name
  · subst ha
    simp [hp a.2]
  · simp [ha]

theorem get?_of_mem (he : e.Distinct) {a : String × AttrValue} (ha : a ∈ e.attributes) :
    e.get? a.1 = some a.2 := by
  obtain ⟨tag, l⟩ := e
  unfold Distinct at he
  unfold get?
  dsimp only at he ha ⊢
  induction l with
  | nil => cases ha
  | cons b l ih =>
    rw [List.map_cons, List.nodup_cons] at he
    rw [lookup_cons_eq]
    rcases List.mem_cons.1 ha with rfl | ha
    · exact if_pos rfl
    · have hne : a.1 ≠ b.1 := fun h => he.1 (h ▸ List.mem_map_of_mem ha)
      rw [if_neg hne]
      exact ih he.2 ha

/-! ## Attributes that are set -/

theorem set_keep (hp : ∀ v, p (name, v) = true) (value : AttrValue) :
    (e.keep p).set name value = (e.set name value).keep p := by
  obtain ⟨tag, l⟩ := e
  refine congrArg (Element.mk tag) ?_
  unfold keep set
  dsimp only
  induction l with
  | nil => simp [setIn, hp]
  | cons a l ih =>
    by_cases ha : a.1 = name
    · have hpa : p a = true := by
        subst ha
        exact hp a.2
      rw [setIn, if_pos ha, List.filter_cons, if_pos hpa, setIn, if_pos ha, List.filter_cons,
        if_pos (hp value)]
    · rw [setIn, if_neg ha, List.filter_cons, List.filter_cons]
      split
      · rw [setIn, if_neg ha, ih]
      · exact ih

theorem get?_set (h : attr ≠ name) : (e.set name value).get? attr = e.get? attr := by
  obtain ⟨tag, l⟩ := e
  unfold get? set
  dsimp only
  induction l with
  | nil => rw [setIn, lookup_cons_eq, if_neg h]
  | cons a l ih =>
    rw [setIn]
    split
    · rename_i ha
      rw [lookup_cons_eq, if_neg h, lookup_cons_eq, if_neg (ha ▸ h)]
    · rw [lookup_cons_eq, lookup_cons_eq, ih]

theorem Distinct.set (he : e.Distinct) (name : String) (value : AttrValue) :
    (e.set name value).Distinct := by
  obtain ⟨tag, l⟩ := e
  unfold Distinct Element.set at *
  dsimp only at he ⊢
  induction l with
  | nil => exact List.nodup_singleton _
  | cons a l ih =>
    rw [List.map_cons, List.nodup_cons] at he
    rw [setIn]
    split
    · rename_i ha
      rw [List.map_cons, List.nodup_cons, ← ha]
      exact he
    · rename_i ha
      rw [List.map_cons, List.nodup_cons]
      refine ⟨fun hmem => ?_, ih he.2⟩
      obtain ⟨b, hb, hname⟩ := List.mem_map.1 hmem
      rcases mem_setIn hb with hb | hb
      · exact he.1 (hname ▸ List.mem_map_of_mem hb)
      · exact ha (hname ▸ hb)

theorem Distinct.keep (he : e.Distinct) (p : String × AttrValue → Bool) : (e.keep p).Distinct :=
  he.sublist (List.filter_sublist.map Prod.fst)

theorem Distinct.edit (he : e.Distinct) (l : List (String × AttrValue)) : (e.edit l).Distinct := by
  induction l generalizing e with
  | nil => exact he
  | cons a l ih => exact ih (he.set a.1 a.2)

theorem distinct_ofMarkup (lead : String) (d : Dialect) (tag : Tag) : (ofMarkup lead d tag).Distinct := by
  have hedit := Distinct.edit (e := ofTag tag.name) List.nodup_nil
    (tag.attributes.map fun a => (a.1, AttrValue.ofSource lead d a.1 a.2))
  rwa [Element.edit, List.foldl_map] at hedit

/-! ## Changes -/

/-- A change sets some of the attributes that directives write, and reads no others. -/
def Modest (f : Element → Element) : Prop :=
  ∃ edits : Element → List (String × AttrValue), (∀ e, f e = e.edit (edits e)) ∧
    (∀ e, ∀ a ∈ edits e, a.1 ∈ Handler.written) ∧
    ∀ p, (∀ name ∈ Handler.written, ∀ v, p (name, v) = true) → ∀ e, edits (e.keep p) = edits e

variable {f : Element → Element} {l : List (String × AttrValue)}

theorem edit_keep (hp : ∀ a ∈ l, ∀ v, p (a.1, v) = true) (e : Element) :
    (e.keep p).edit l = (e.edit l).keep p := by
  induction l generalizing e with
  | nil => rfl
  | cons a l ih =>
    obtain ⟨ha, hl⟩ := List.forall_mem_cons.1 hp
    change ((e.keep p).set a.1 a.2).edit l = ((e.set a.1 a.2).edit l).keep p
    rw [set_keep ha, ih hl]

theorem get?_edit (hl : ∀ a ∈ l, attr ≠ a.1) (e : Element) : (e.edit l).get? attr = e.get? attr := by
  induction l generalizing e with
  | nil => rfl
  | cons a l ih =>
    obtain ⟨ha, hl⟩ := List.forall_mem_cons.1 hl
    exact (ih hl (e.set a.1 a.2)).trans (get?_set ha)

theorem mem_edit {a : String × AttrValue} (ha : a ∈ (e.edit l).attributes) :
    a ∈ e.attributes ∨ ∃ b ∈ l, a.1 = b.1 := by
  induction l generalizing e with
  | nil => exact Or.inl ha
  | cons b l ih =>
    rcases ih ha with ha | ⟨c, hc, hname⟩
    · exact (mem_setIn ha).imp_right fun hname => ⟨b, List.mem_cons_self .., hname⟩
    · exact Or.inr ⟨c, List.mem_cons_of_mem b hc, hname⟩

theorem tag_edit (l : List (String × AttrValue)) (e : Element) : (e.edit l).tag = e.tag := by
  induction l generalizing e with
  | nil => rfl
  | cons a l ih => exact ih (e.set a.1 a.2)

theorem Modest.tag (hf : Modest f) (e : Element) : (f e).tag = e.tag := by
  obtain ⟨edits, heq, -⟩ := hf
  rw [heq, tag_edit]

theorem Modest.keep (hf : Modest f) (hp : ∀ name ∈ Handler.written, ∀ v, p (name, v) = true)
    (e : Element) : f (e.keep p) = (f e).keep p := by
  obtain ⟨edits, heq, hnames, hkeep⟩ := hf
  rw [heq, heq, hkeep p hp, edit_keep fun a ha => hp a.1 (hnames e a ha)]

theorem Modest.get? (hf : Modest f) (hattr : attr ∉ Handler.written) (e : Element) :
    (f e).get? attr = e.get? attr := by
  obtain ⟨edits, heq, hnames, -⟩ := hf
  rw [heq]
  refine get?_edit (fun a ha h => ?_) e
  rw [h] at hattr
  exact hattr (hnames e a ha)

theorem Modest.mem (hf : Modest f) {a : String × AttrValue} (ha : a ∈ (f e).attributes) :
    a ∈ e.attributes ∨ a.1 ∈ Handler.written := by
  obtain ⟨edits, heq, hnames, -⟩ := hf
  rw [heq] at ha
  refine (mem_edit ha).imp_right fun ⟨b, hb, hname⟩ => ?_
  rw [hname]
  exact hnames e b hb

theorem Modest.distinct (hf : Modest f) (he : e.Distinct) : (f e).Distinct := by
  obtain ⟨edits, heq, -⟩ := hf
  rw [heq]
  exact he.edit _

theorem modest_id : Modest id :=
  ⟨fun _ => [], fun _ => rfl, fun _ => List.forall_mem_nil _, fun _ _ _ => rfl⟩

end Element

namespace Handler

open Element

variable {e : Element}

theorem modest_setChange {name : String} (hname : name ∈ written) (helper : Helper) (s : Site) :
    Modest (setChange name helper s) :=
  ⟨fun _ => [(name, .code (Fragment.expression (call s helper)))], fun _ => rfl,
    fun _ => List.forall_mem_singleton.2 hname, fun _ _ _ => rfl⟩

theorem modest_classChange (s : Site) : Modest (classChange s) := by
  have hclass : "class" ∈ written := by decide
  refine ⟨fun e => [("class", .code (Fragment.expression (classCode s.dialect (e.get? "class") s.code)))],
    fun _ => rfl, fun _ => List.forall_mem_singleton.2 hclass, fun p hp e => ?_⟩
  dsimp only
  rw [get?_keep fun v _ => hp "class" hclass v]

theorem modest_hrefChange (s : Site) : Modest (hrefChange s) := by
  have hclass : "class" ∈ written := by decide
  have hhref : "href" ∈ written := by decide
  refine ⟨fun e => ("href", .code (Fragment.expression (call s .link))) :: if e.has "class" then [] else
    [("class", .code (Fragment.statement (s.dialect.echoIf (call s .isCurrent) "current")))], ?_, ?_, ?_⟩
  · intro e
    unfold hrefChange
    dsimp only
    split <;> rfl
  · intro e a ha
    rcases List.mem_cons.1 ha with rfl | ha
    · exact hhref
    · split at ha
      · cases ha
      · rw [List.mem_singleton.1 ha]
        exact hclass
  · intro p hp e
    dsimp only
    rw [has_keep (hp "class" hclass)]

theorem modest_assetChange (s : Site) : Modest (assetChange s) := by
  refine ⟨fun e => ((s.parameter <|> e.get? (resourceAttribute e)).map fun path =>
    (resourceAttribute e, .code (Fragment.expression
      (s.dialect.call .asset [AttrValue.parameterCode s.dialect (some path)])))).toList, ?_, ?_, ?_⟩
  · intro e
    unfold assetChange
    dsimp only
    cases s.parameter <|> e.get? (resourceAttribute e) <;> rfl
  · intro e a ha
    obtain ⟨path, -, rfl⟩ := Option.mem_map.1 (Option.mem_toList.1 ha)
    exact resourceAttribute_mem e
  · intro p hp e
    have hattr : resourceAttribute (e.keep p) = resourceAttribute e := by
      rw [resourceAttribute, resourceAttribute, has_keep (hp "href" (by decide))]
      rfl
    dsimp only
    rw [hattr, get?_keep fun v _ => hp _ (resourceAttribute_mem e) v]

end Handler

/-! ## Declarations -/

/-- A call that declares something about the layout of the page. -/
def Call.isDeclaration (x : Call) : Bool :=
  x.directive == "layout" || x.directive == "nolayout" || x.directive == "extend" && x.parameter.isSome

/-- What a directive does if it declares nothing: what it writes is late, and it sets attributes only. -/
def Effect.IsModest : Effect → Prop
  | remove p => ∀ q ∈ p, q.kind.isLate = true
  | flank p q => p.kind.isLate = true ∧ ∀ q' ∈ q, q'.kind.isLate = true
  | content p => p.kind.isLate = true
  | change f => Element.Modest f
  | _ => True

namespace Handler

theorem bareEffect_of_isDeclaration {n : NodeId} {name : String} {s : Site} {k : Kind}
    (h : Call.isDeclaration ⟨n, name, s.parameter⟩ = true) :
    ∃ code, bareEffect s k name = .declaring code := by
  have hextend : bareEffect s k "extend" =
      if s.parameter.isSome then .declaring (call s .extend) else .fail .extendAlone := rfl
  simp only [Call.isDeclaration, Bool.or_eq_true, Bool.and_eq_true, beq_iff_eq] at h
  rcases h with (rfl | rfl) | ⟨rfl, hparam⟩
  · exact ⟨_, rfl⟩
  · exact ⟨_, rfl⟩
  · exact ⟨_, hextend.trans (if_pos hparam)⟩

theorem isModest_bareEffect (n : NodeId) (s : Site) (k : Kind) : ∀ x ∈ Registry.standardDirectives,
    Call.isDeclaration ⟨n, x.name, s.parameter⟩ = false → (bareEffect s k x.name).IsModest := by
  have hmarkup : (markup s).isLate = true := by rw [Kind.isLate, eager?_markup]; rfl
  have hplain : (plainText s).isLate = true := by rw [Kind.isLate, eager?_plainText]; rfl
  have hcapture (helper : Helper) : (Effect.capturing helper s).IsModest :=
    ⟨rfl, fun q hq => Option.some.inj hq ▸ rfl⟩
  have hinstead {kind : Kind} (hleaf : kind.isLeaf = true) (hlate : kind.isLate = true) :
      (Effect.remove (some ⟨kind, hleaf⟩)).IsModest := fun q hq => Option.some.inj hq ▸ hlate
  have hextend (h : Call.isDeclaration ⟨n, "extend", s.parameter⟩ = false) :
      (bareEffect s k "extend").IsModest := by
    have heffect : bareEffect s k "extend" =
        if s.parameter.isSome then .declaring (call s .extend) else .fail .extendAlone := rfl
    have hnone : s.parameter.isSome = false := h
    rw [heffect, hnone]
    trivial
  have hnone : (Effect.remove none).IsModest := fun q hq => absurd hq (Option.not_mem_none q)
  have himport : (bareEffect s k "import").IsModest := by
    have heffect : bareEffect s k "import" = if k.isResource then .remove none else .change id := rfl
    rw [heffect]
    split
    · exact hnone
    · exact Element.modest_id
  have himports : (bareEffect s k "imports").IsModest := by
    have heffect : bareEffect s k "imports" =
        if k.isResource then .calling (s.dialect.call .resourceBlock []) else .change id := rfl
    rw [heffect]
    split
    · exact hinstead rfl rfl
    · exact Element.modest_id
  intro x hx hdeclares
  cases x, hx using Registry.standard_cases with
  | ignore => exact hnone
  | extend => exact hextend hdeclares
  | layout | nolayout => exact Bool.noConfusion hdeclares
  | «import» => exact himport
  | imports => exact himports
  | assign | append | prepend => exact hcapture _
  | embed | block => exact hinstead rfl rfl
  | outerhtml => exact hinstead _ hmarkup
  | outertext => exact hinstead _ hplain
  | innerhtml | html => exact hmarkup
  | innertext | text => exact hplain
  | datetime | src => exact modest_setChange (by decide) _ s
  | «class» => exact modest_classChange s
  | file => exact modest_assetChange s
  | href => exact modest_hrefChange s
  | main | foreach | «if» | «else» | tr | tn => trivial

end Handler

namespace Registry

/-- An attribute that declares something about the layout of the page. -/
def isDeclaration (r : Registry) (a : String × AttrValue) : Bool :=
  a.1 == r.lead ++ "layout" || a.1 == r.lead ++ "nolayout" ||
    a.1 == r.lead ++ "extend" && (parameter? (some a.2)).isSome

/-- The element without declarations. -/
def undeclared (r : Registry) (e : Element) : Element :=
  e.keep (!r.isDeclaration ·)

variable {r : Registry} {e : Element}

theorem isDeclaration_append (r : Registry) (n : NodeId) (name : String) (v : AttrValue) :
    r.isDeclaration (r.lead ++ name, v) = Call.isDeclaration ⟨n, name, parameter? (some v)⟩ := by
  have hlead (name' : String) : (r.lead ++ name == r.lead ++ name') = (name == name') := by
    rw [Bool.eq_iff_iff, beq_iff_eq, beq_iff_eq, String.append_right_inj]
  rw [isDeclaration, Call.isDeclaration, hlead, hlead, hlead]

/-- The attributes that directives write do not end like these directives. -/
theorem append_notMem_written (lead : String) :
    ∀ name ∈ ["layout", "nolayout", "extend", "foreach"], lead ++ name ∉ Handler.written := by
  intro name hname hmem
  have hlast : ∀ name ∈ ["layout", "nolayout", "extend", "foreach"], name.toList ≠ [] ∧
      ∀ attr ∈ Handler.written, attr.toList.getLast? ≠ name.toList.getLast? := by decide
  obtain ⟨hne, hlast⟩ := hlast name hname
  refine hlast _ hmem ?_
  rw [String.toList_append, List.getLast?_append_of_ne_nil _ hne]

/-- The attributes that directives write declare nothing. -/
theorem not_isDeclaration_written (r : Registry) :
    ∀ name ∈ Handler.written, ∀ v, r.isDeclaration (name, v) = false := by
  intro name hname v
  have hne (suffix : String) (h : suffix ∈ ["layout", "nolayout", "extend", "foreach"]) :
      (name == r.lead ++ suffix) = false := beq_eq_false_iff_ne.2 fun heq =>
    append_notMem_written r.lead suffix h (heq ▸ hname)
  rw [isDeclaration, hne "layout" (by decide), hne "nolayout" (by decide), hne "extend" (by decide)]
  rfl

theorem insertByPriority_of_le {x : String × Directive} {l : List (String × Directive)}
    (h : ∀ y ∈ l, x.2.priority ≤ y.2.priority) : insertByPriority x l = x :: l := by
  cases l with
  | nil => rfl
  | cons y l => exact if_pos (h y (List.mem_cons_self ..))

theorem filter_insertByPriority (q : String × Directive → Bool) (x : String × Directive)
    {l : List (String × Directive)} (hl : l.Pairwise fun x y => x.2.priority ≤ y.2.priority) :
    (insertByPriority x l).filter q =
      if q x then insertByPriority x (l.filter q) else l.filter q := by
  induction l with
  | nil => cases hq : q x <;> simp [insertByPriority, hq]
  | cons y l ih =>
    rw [List.pairwise_cons] at hl
    rw [insertByPriority]
    split
    · rename_i hle
      have hle : ∀ z ∈ (y :: l).filter q, x.2.priority ≤ z.2.priority := by
        intro z hz
        rcases List.mem_cons.1 (List.mem_filter.1 hz).1 with rfl | hz
        · exact hle
        · exact Int.le_trans hle (hl.1 z hz)
      rw [List.filter_cons, insertByPriority_of_le hle]
    · rename_i hlt
      rw [List.filter_cons, ih hl.2, List.filter_cons]
      cases q y <;> cases q x <;> simp [insertByPriority, hlt]

/-- Directives that are taken off do not change the order of the others. -/
theorem ordered_keep {p : String × AttrValue → Bool} {q : String × Directive → Bool}
    (hpq : ∀ a ∈ e.attributes, ∀ x, r.directive? a.1 = some x → p a = q (a.1, x)) :
    r.ordered (e.keep p) = (r.ordered e).filter q := by
  have hwritten : r.written (e.keep p) = (r.written e).filter q := by
    unfold written Element.keep
    rw [List.filterMap_filter, List.filter_filterMap]
    refine List.filterMap_congr fun a ha => ?_
    cases hx : r.directive? a.1 with
    | none => simp
    | some x => rw [hpq a ha x hx]; simp [Option.filter]
  have hsort (l : List (String × Directive)) :
      (l.filter q).foldr insertByPriority [] = (l.foldr insertByPriority []).filter q := by
    induction l with
    | nil => rfl
    | cons x l ih =>
      rw [List.foldr_cons, filter_insertByPriority q x (sorted_pairwise l), List.filter_cons, ← ih]
      split <;> rfl
  rw [ordered, ordered, hwritten, hsort]

/-- The directives that are left are those that declare nothing. -/
theorem ordered_undeclared (he : e.Distinct) (n : NodeId) :
    r.ordered (r.undeclared e) =
      (r.ordered e).filter fun z => !Call.isDeclaration ⟨n, z.2.name, parameter? (e.get? z.1)⟩ := by
  refine ordered_keep fun a ha x hx => congrArg Bool.not ?_
  rw [Element.get?_of_mem he ha, ← r.isDeclaration_append, ← eq_of_directive? hx]

end Registry

end HtmlTemplate
