import HtmlTemplate.Proofs.Directive.Shown
import HtmlTemplate.Proofs.Markup.Content

/-! # Content that is discarded

Some directives throw away what is below their element, or the element itself. What stood there does not
matter then (`finish_hollow`): it is neither read, unless a translation around it reads it, nor visited
(`report_hollow`), and the other nodes are treated alike whatever numbers they got (`exists_rename`).
-/

namespace HtmlTemplate

open Forest HtmlTemplate.Tree

namespace Handler

/-- The directives that discard the content of any element. -/
def discardNames : List String :=
  ["ignore", "embed", "block", "outerhtml", "outertext", "innerhtml", "innertext", "html", "text"]

/-- The directive of the given name discards what is below an element of kind `k`. -/
def Discards (k : Kind) (name : String) : Prop :=
  name ∈ discardNames ∨ k.isResource = true ∧ name ∈ importNames

end Handler

namespace Registry

/-- A node carries the directive of the given name. -/
def carries (r : Registry) (name : String) (k : Kind) : Bool :=
  k.element?.any (·.has (r.lead ++ name))

def translates (r : Registry) (k : Kind) : Bool :=
  ["tr", "tn"].any (r.carries · k)

def discards (r : Registry) (k : Kind) : Bool :=
  Handler.discardNames.any (r.carries · k) || k.isResource && Handler.importNames.any (r.carries · k)

/-- The forest without what is discarded below its elements. What is below a translation is left as it
is. -/
def hollow (r : Registry) : Forest Node → Forest Node
  | nil => nil
  | cons a c rest =>
    cons a (if r.translates a.kind then c else if r.discards a.kind then nil else r.hollow c)
      (r.hollow rest)

end Registry

/-! ## Directives that discard -/

/-- An effect that puts something else in the place of an element or of its content. -/
def Effect.discards : Effect → Bool
  | remove _ | content _ => true
  | _ => false

/-- An effect that leaves an element its tag. -/
def Effect.KeepsTag : Effect → Prop
  | change f => ∀ e, (f e).tag = e.tag
  | _ => True

namespace Handler

/-- Only translations read the content of their element. -/
theorem effect_content {name : String} (hname : name ∉ ["tr", "tn"]) (s : Site) (k : Kind)
    (c : Forest Kind) : effect s k c name = bareEffect s k name := by
  unfold effect
  split
  · exact absurd (by decide) hname
  · exact absurd (by decide) hname
  · rfl

theorem Discards.congr {k k' : Kind} {name : String} (h : Discards k name)
    (hk : k'.isResource = k.isResource) : Discards k' name := by
  rwa [Discards, hk]

theorem discards_effect {k : Kind} {name : String} (h : Discards k name) (s : Site) (c : Forest Kind) :
    (effect s k c name).discards = true := by
  have hdiscard : ∀ name ∈ discardNames, (effect s k c name).discards = true := by
    simp only [discardNames, List.forall_mem_cons]
    and_intros <;> first | rfl | exact List.forall_mem_nil _
  have himport (hk : k.isResource = true) : ∀ name ∈ importNames, (effect s k c name).discards = true := by
    have himport : effect s k c "import" = if k.isResource then .remove none else .change id := rfl
    have himports : effect s k c "imports" =
        if k.isResource then .calling (s.dialect.call .resourceBlock []) else .change id := rfl
    rw [if_pos hk] at himport himports
    simp only [importNames, List.forall_mem_cons, himport, himports]
    exact ⟨rfl, rfl, List.forall_mem_nil _⟩
  rcases h with h | ⟨hk, h⟩
  · exact hdiscard name h
  · exact himport hk name h

theorem standard_keepsTag (s : Site) (k : Kind) (c : Forest Kind) :
    ∀ x ∈ Registry.standardDirectives, (effect s k c x.name).KeepsTag := by
  have hite {p : Prop} [Decidable p] {e e' : Effect} (he : e.KeepsTag) (he' : e'.KeepsTag) :
      (if p then e else e').KeepsTag := by
    split
    · exact he
    · exact he'
  intro x hx
  cases x, hx using Registry.standard_cases with
  | extend => exact hite trivial trivial
  | «import» | imports => exact hite trivial fun _ => rfl
  | datetime | src | «class» => exact fun _ => rfl
  | file => exact tag_assetChange s
  | href => exact tag_hrefChange s
  | _ => trivial

theorem keepsTag_effect {x : Directive} (hx : x.IsStandard) (s : Site) (k : Kind) (c : Forest Kind) :
    (effect s k c x.name).KeepsTag := by
  obtain ⟨x₀, hx₀, hname, -⟩ := hx
  rw [hname]
  exact standard_keepsTag s k c x₀ hx₀

end Handler

/-! ## Elements whose content is discarded -/

theorem Kind.isResource_mapElement {f : Element → Element} (hf : ∀ e, (f e).tag = e.tag) (k : Kind) :
    (k.mapElement f).isResource = k.isResource := by
  cases k with
  | element e => simp only [mapElement, isResource, element?, Option.any_some, hf]
  | document | text | code | conditional | branch | loop => rfl

/-- Nothing is left of an element, or something else is below it. -/
def Turnout.isEmptied {α : Type} : Turnout α → Bool
  | kept x => x.content.isSome
  | gone _ => true

theorem Turnout.level_of_isEmptied {α : Type} {lab : Labelling α} {out : Turnout α}
    (h : out.isEmptied = true) (below below' : Report (Forest α)) :
    out.level lab below = out.level lab below' := by
  cases out with
  | gone f => rfl
  | kept x =>
    obtain ⟨p, hp⟩ := Option.isSome_iff_exists.1 h
    rw [level, level, hp]
    rfl

theorem Report.bind_congr {α β : Type} {x : Report α} {f g : α → Report β}
    (h : ∀ a, x.result = .ok a → f a = g a) : x.bind f = x.bind g := by
  unfold bind
  cases hx : x.result with
  | error e => rfl
  | ok a => exact congrArg (after x.calls) (h a hx)

namespace Stance

variable {α : Type} {lab : Labelling α} {d : Dialect} {s : Site} {x y : Stance α} {c : Forest α}
  {z : String × Directive} {ds : List (String × Directive)} {out : Turnout α}

theorem isEmptied_act {e : Effect} (h : e.act lab s x = .ok out)
    (hx : x.content.isSome = true ∨ e.discards = true) : out.isEmptied = true := by
  cases e with
  | remove p | content p =>
    cases h
    rfl
  | change f =>
    cases h
    exact hx.resolve_right Bool.false_ne_true
  | mark | flank | loop | condition | otherwise | fail =>
    rw [Effect.act_eq_move rfl] at h
    obtain ⟨y, -, rfl⟩ := exists_of_map_eq_ok h
    exact hx.resolve_right Bool.false_ne_true

theorem isResource_mapLabel {f : Element → Element} (hf : ∀ e, (f e).tag = e.tag) (lab : Labelling α)
    (x : Stance α) :
    (lab.kind (x.mapLabel lab f).label).isResource = (lab.kind x.label).isResource := by
  rw [mapLabel, lab.kind_alter, Kind.isResource_mapElement hf]

theorem isResource_step (hz : z.2.IsStandard) (h : (x.step lab d c z).result = .ok (.kept y)) :
    (lab.kind y.label).isResource = (lab.kind x.label).isResource := by
  have herase := isResource_mapLabel (f := (·.erase z.1)) (fun _ => rfl) lab x
  have hkeeps := Handler.keepsTag_effect hz (x.site lab d z.1)
    (lab.kind (x.mapLabel lab (·.erase z.1)).label)
    (((x.mapLabel lab (·.erase z.1)).below lab c).map lab.kind)
  rw [step] at h
  dsimp only at h
  generalize Handler.effect _ _ _ _ = e at h hkeeps
  cases e with
  | remove p => cases h
  | content p =>
    cases h
    exact herase
  | change f =>
    cases h
    rw [isResource_mapLabel hkeeps, herase]
  | mark | flank | loop | condition | otherwise | fail =>
    rw [Effect.act_eq_move rfl] at h
    obtain ⟨y, -, hy⟩ := exists_of_map_eq_ok h
    cases hy
    exact herase

theorem isEmptied_run (hds : ∀ z ∈ ds, z.2.IsStandard)
    (hx : x.content.isSome = true ∨ ∃ z ∈ ds, Handler.Discards (lab.kind x.label) z.2.name)
    (h : (x.run lab d c ds).result = .ok out) : out.isEmptied = true := by
  induction ds generalizing x with
  | nil =>
    cases h
    exact hx.resolve_right fun ⟨z, hz, _⟩ => List.not_mem_nil hz
  | cons z ds ih =>
    obtain ⟨hz, hds⟩ := List.forall_mem_cons.1 hds
    rcases run_cons_eq_ok h with ⟨f, -, rfl⟩ | ⟨y, hstep, hy⟩
    · rfl
    · refine ih hds ?_ hy
      have hlabel := isResource_mapLabel (f := (·.erase z.1)) (fun _ => rfl) lab x
      have hemptied (h : x.content.isSome = true ∨ _) : y.content.isSome = true :=
        isEmptied_act (x := x.mapLabel lab (·.erase z.1)) hstep h
      rcases hx with hx | ⟨w, hw, hdiscards⟩
      · exact Or.inl (hemptied (Or.inl hx))
      · rcases List.mem_cons.1 hw with rfl | hw
        · exact Or.inl (hemptied (Or.inr (Handler.discards_effect (hdiscards.congr hlabel) _ _)))
        · exact Or.inr ⟨w, hw, hdiscards.congr (isResource_step hz hstep)⟩

/-- What directives do does not depend on the content unless a translation is among them. -/
theorem run_content (hds : ∀ z ∈ ds, z.2.name ∉ ["tr", "tn"]) (lab : Labelling α) (c c' : Forest α)
    (x : Stance α) :
    x.run lab d c ds = x.run lab d c' ds := by
  induction ds generalizing x with
  | nil => rfl
  | cons z ds ih =>
    obtain ⟨hz, hds⟩ := List.forall_mem_cons.1 hds
    have hstep : x.step lab d c z = x.step lab d c' z := by
      simp only [step, Handler.effect_content hz]
    rw [run, run, hstep]
    refine congrArg _ (funext fun out => ?_)
    cases out with
    | gone f => rfl
    | kept y => exact ih hds y

end Stance

/-! ## Documents without what is discarded -/

namespace Registry

variable {lead name : String} {d : Dialect} {k : Kind}

theorem mem_orderedOf_iff (hname : name ∈ (standard lead).names) :
    (∃ z ∈ (standard lead).orderedOf k, z.2.name = name) ↔ (standard lead).carries name k = true := by
  cases k with
  | element e =>
    have hmem := (standard lead).mem_names_ordered e name
    rw [List.mem_map] at hmem
    exact hmem.trans (and_iff_right hname)
  | document | text | code | conditional | branch | loop =>
    exact iff_of_false (fun ⟨z, hz, _⟩ => List.not_mem_nil hz) Bool.false_ne_true

theorem exists_discards (h : (standard lead).discards k = true) :
    ∃ z ∈ (standard lead).orderedOf k, Handler.Discards k z.2.name := by
  have hnames : ∀ name ∈ Handler.discardNames ++ Handler.importNames, name ∈ (standard lead).names := by
    show ∀ name ∈ Handler.discardNames ++ Handler.importNames, name ∈ (standard "").names
    decide
  rw [discards, Bool.or_eq_true, Bool.and_eq_true, List.any_eq_true, List.any_eq_true] at h
  rcases h with ⟨name, hname, h⟩ | ⟨hk, name, hname, h⟩
  · obtain ⟨z, hz, rfl⟩ := (mem_orderedOf_iff (hnames name (List.mem_append_left _ hname))).2 h
    exact ⟨z, hz, Or.inl hname⟩
  · obtain ⟨z, hz, rfl⟩ := (mem_orderedOf_iff (hnames name (List.mem_append_right _ hname))).2 h
    exact ⟨z, hz, Or.inr ⟨hk, hname⟩⟩

theorem not_translation (h : (standard lead).translates k = false) :
    ∀ z ∈ (standard lead).orderedOf k, z.2.name ∉ ["tr", "tn"] := by
  intro z hz hname
  have hnames : ∀ name ∈ ["tr", "tn"], name ∈ (standard lead).names := by
    show ∀ name ∈ ["tr", "tn"], name ∈ (standard "").names
    decide
  have hcarries := (mem_orderedOf_iff (hnames _ hname)).1 ⟨z, hz, rfl⟩
  rw [translates, List.any_eq_false] at h
  exact h z.2.name hname hcarries

/-- A pass does not depend on what is discarded. -/
theorem report_hollow (left f : Forest Node) :
    (standard lead).report .settled d left ((standard lead).hollow f) =
      (standard lead).report .settled d left f := by
  induction f generalizing left with
  | nil => rfl
  | cons a c rest ihc ihr =>
    rw [hollow, report, report, funext ihr]
    refine congrArg (Report.bind · _) ?_
    by_cases htranslates : (standard lead).translates a.kind = true
    · rw [if_pos htranslates]
    · rw [if_neg htranslates]
      have hnames := not_translation (Bool.eq_false_iff.2 htranslates)
      have hrun (c' : Forest Node) := Stance.run_content (d := d) hnames .settled c' c
        ⟨.here left nil, a, none⟩
      rw [show Labelling.settled.kind a = a.kind from rfl, hrun]
      by_cases hdiscards : (standard lead).discards a.kind = true
      · rw [if_pos hdiscards]
        refine Report.bind_congr fun out hout => Turnout.level_of_isEmptied ?_ _ _
        refine Stance.isEmptied_run (isStandard_orderedOf ?_ _) ?_ hout
        · exact fun x hx => ⟨x, hx, rfl, rfl⟩
        · exact Or.inr (exists_discards hdiscards)
      · rw [if_neg hdiscards, ihc]

end Registry

/-! ## Other numbers -/

namespace Forest

variable {f g : Forest Node} {rename : NodeId → NodeId}

theorem eq_map_rename (hkinds : g.kinds = f.kinds) (hids : g.ids = f.ids.map rename) :
    g = f.map (Node.rename rename) := by
  induction f generalizing g with
  | nil =>
    cases g with
    | nil => rfl
    | cons b c' r' => cases hkinds
  | cons a c r ihc ihr =>
    cases g with
    | nil => cases hkinds
    | cons b c' r' =>
      rw [kinds_cons, kinds_cons, cons.injEq] at hkinds
      obtain ⟨hkind, hc, hr⟩ := hkinds
      rw [ids_cons, ids_cons, List.map_cons, List.map_append, List.cons.injEq] at hids
      have hlength : c'.ids.length = (c.ids.map rename).length := by
        have := congrArg (·.preorder.length) hc
        simpa [ids, preorder_kinds] using this
      obtain ⟨hcids, hrids⟩ := List.append_inj hids.2 hlength
      rw [map_cons, ← ihc hc hcids, ← ihr hr hrids, Node.rename, ← hids.1, ← hkind]

/-- The numbers of a list one after the other, from that of the document on. -/
def numberAt (l : List Nat) (bound i : Nat) : Nat :=
  (0 :: l)[i]?.getD (bound + (1 + i))

theorem numberAt_injective {l : List Nat} {bound : Nat} (hl : (0 :: l).Nodup)
    (hbound : ∀ n ∈ l, n < bound) : Function.Injective (numberAt l bound) := by
  have hle (i : Nat) (hi : i < (0 :: l).length) : (0 :: l)[i] ≤ bound := by
    cases i with
    | zero => exact Nat.zero_le _
    | succ i => exact Nat.le_of_lt (hbound _ (List.getElem_mem _))
  intro i j h
  unfold numberAt at h
  by_cases hi : i < (0 :: l).length <;> by_cases hj : j < (0 :: l).length
  · rw [List.getElem?_eq_getElem hi, List.getElem?_eq_getElem hj] at h
    exact (hl.getElem_inj_iff).1 h
  · rw [List.getElem?_eq_getElem hi, List.getElem?_eq_none (Nat.le_of_not_lt hj), Option.getD_some,
      Option.getD_none] at h
    have := hle i hi
    omega
  · rw [List.getElem?_eq_none (Nat.le_of_not_lt hi), List.getElem?_eq_getElem hj, Option.getD_some,
      Option.getD_none] at h
    have := hle j hj
    omega
  · rw [List.getElem?_eq_none (Nat.le_of_not_lt hi), List.getElem?_eq_none (Nat.le_of_not_lt hj),
      Option.getD_none, Option.getD_none] at h
    omega

theorem map_numberAt (l : List Nat) (bound : Nat) :
    (List.range' 1 l.length).map (numberAt l bound) = l := by
  refine List.ext_getElem (by simp) fun i hi hi' => ?_
  simp [numberAt, Nat.add_comm 1 i, hi']

/-- Nodes with different numbers are the nodes in document order, by other numbers. -/
theorem exists_rename {bound : NodeId} (hnodup : (root :: g.ids).Nodup)
    (hbound : ∀ n ∈ g.ids, n < bound) :
    ∃ rename : NodeId → NodeId, Function.Injective rename ∧ rename root = root ∧
      g = (g.kinds.numberFrom 1).1.map (Node.rename rename) := by
  refine ⟨numberAt g.ids bound, numberAt_injective hnodup hbound, rfl, ?_⟩
  refine eq_map_rename (kinds_numberFrom 1 _).symm ?_
  have hlength : g.kinds.preorder.length = g.ids.length := by
    rw [preorder_kinds, List.length_map, ids, List.length_map]
  rw [ids_numberFrom, hlength, map_numberAt]

end Forest

/-! ## The text -/

theorem Registry.ids_hollow (r : Registry) (f : Forest Node) : (r.hollow f).ids.Sublist f.ids := by
  induction f with
  | nil => exact List.Sublist.refl _
  | cons a c rest ihc ihr =>
    rw [hollow, ids_cons, ids_cons]
    refine (List.Sublist.append ?_ ihr).cons_cons _
    split
    · exact List.Sublist.refl _
    · split
      · exact List.nil_sublist _
      · exact ihc

namespace Registry

/-- The report about markup is that about what is not discarded, in document order and by other
numbers. -/
theorem report_numberFrom (lead : String) (d : Dialect) (f : Forest Kind) :
    ∃ rename : NodeId → NodeId, Function.Injective rename ∧ rename root = root ∧
      (standard lead).report .settled d nil (f.numberFrom 1).1 =
        ((standard lead).report .settled d nil
          (((standard lead).hollow (f.numberFrom 1).1).kinds.numberFrom 1).1).relabel
            (Forest.map (Node.rename rename)) rename := by
  have hsublist := (standard lead).ids_hollow (f.numberFrom 1).1
  rw [ids_numberFrom] at hsublist
  have hmem : ∀ n ∈ ((standard lead).hollow (f.numberFrom 1).1).ids, 1 ≤ n ∧ n < 1 + f.preorder.length :=
    fun n hn => List.mem_range'_1.1 (hsublist.subset hn)
  obtain ⟨rename, hrename, hroot, hmap⟩ := exists_rename (List.nodup_cons.2
    ⟨fun h => absurd (hmem root h).1 (by decide), hsublist.nodup List.nodup_range'⟩)
    (fun n hn => (hmem n hn).2)
  refine ⟨rename, hrename, hroot, ?_⟩
  have hmaps : Labelling.settled.Maps .settled (Node.rename rename) rename :=
    ⟨fun _ => rfl, fun _ => rfl, fun _ _ => rfl, fun _ k => congrArg (Node.mk · k) hroot⟩
  rw [← report_hollow, ← (standard lead).report_map hmaps, map_nil, ← hmap]

end Registry

namespace Compiler

/-- What is discarded does not matter. If two documents that were read differ only below elements that
discard their content, outside of translations, the same text or the same error comes of them, and the
same handlers are run with the same parameters, none of them on a node that is discarded. -/
theorem finish_hollow (d d₁ d₂ : Dialect) (lead lead₁ lead₂ s₁ s₂ : String) :
    let c := standard d lead
    let t₁ := Markup.parse lead₁ d₁ s₁
    let t₂ := Markup.parse lead₂ d₂ s₂
    let rest := fun t : Tree => c.registry.hollow (t.below root)
    (rest t₁).kinds = (rest t₂).kinds →
      c.finish (c.transform t₁) = c.finish (c.transform t₂) ∧
      (c.transform t₁).calls.map (fun x => (x.directive, x.parameter)) =
        (c.transform t₂).calls.map (fun x => (x.directive, x.parameter)) ∧
      ∀ x ∈ (c.transform t₁).calls, x.node ∈ (rest t₁).ids := by
  intro c t₁ t₂ rest hrest
  let f₁ := Markup.content lead₁ d₁ s₁
  let f₂ := Markup.content lead₂ d₂ s₂
  have hds (f : Forest Kind) : ∀ k ∈ f.preorder, ∀ z ∈ (Registry.standard lead).orderedOf k,
      z.2.IsStandard :=
    fun k _ => Registry.isStandard_orderedOf (fun x hx => ⟨x, hx, rfl, rfl⟩) k
  have hcalls {f : Forest Kind} (hf : f.IsMarkup) : (c.transform (.ofContent f)).calls =
      ((Registry.standard lead).report .settled d nil (f.numberFrom 1).1).calls :=
    (Registry.accords_run hf (hds f) d).1
  have htext {f : Forest Kind} (hf : f.IsMarkup) : c.finish (c.transform (.ofContent f)) =
      ((Registry.standard lead).report .settled d nil (f.numberFrom 1).1).text d :=
    Registry.finish_run hf (hds f)
  have hf₁ : f₁.IsMarkup := Markup.isMarkup_content lead₁ d₁ s₁
  have hf₂ : f₂.IsMarkup := Markup.isMarkup_content lead₂ d₂ s₂
  have ht₁ : t₁ = .ofContent f₁ := rfl
  have ht₂ : t₂ = .ofContent f₂ := rfl
  have hkinds : ((Registry.standard lead).hollow (f₁.numberFrom 1).1).kinds =
      ((Registry.standard lead).hollow (f₂.numberFrom 1).1).kinds := by
    rw [← below_ofContent, ← below_ofContent]
    exact hrest
  obtain ⟨r₁, hr₁, hroot₁, hreport₁⟩ := Registry.report_numberFrom lead d f₁
  obtain ⟨r₂, hr₂, hroot₂, hreport₂⟩ := Registry.report_numberFrom lead d f₂
  rw [hkinds] at hreport₁
  rw [ht₁, ht₂]
  refine ⟨?_, ?_, fun x hx => ?_⟩
  · rw [htext hf₁, htext hf₂, hreport₁, hreport₂, Report.text_relabel hr₁ hroot₁,
      Report.text_relabel hr₂ hroot₂]
  · rw [hcalls hf₁, hcalls hf₂, hreport₁, hreport₂]
    simp [Report.relabel, Call.rename]
  · rw [hcalls hf₁] at hx
    show x.node ∈ ((Registry.standard lead).hollow ((Tree.ofContent f₁).below root)).ids
    rw [below_ofContent]
    exact Registry.mem_ids_of_call nil x (by rwa [Registry.report_hollow])

/-- Directives that would fail or mark another node are discarded with the content of a paragraph. -/
theorem finish_hollow_paragraph :
    let c := standard .php "j:"
    let t₁ := Markup.parse "j:" .php "<p j:if=a j:html=b><i j:else j:main>x</i></p><br j:else>"
    let t₂ := Markup.parse "j:" .php "<p j:if=a j:html=b></p><br j:else>"
    let rest := fun t : Tree => c.registry.hollow (t.below root)
    (rest t₁).kinds = (rest t₂).kinds ∧ t₁.count = 5 ∧ t₂.count = 3 ∧
      c.finish (c.transform t₁) = c.finish (c.transform t₂) ∧
      (c.transform t₁).calls.map (fun x => (x.directive, x.parameter)) =
        [("if", some (.code (.expression "a"))), ("html", some (.code (.expression "b"))), ("else", none)] ∧
      ∀ x ∈ (c.transform t₁).calls, x.node ∈ (rest t₁).ids := by
  intro c t₁ t₂ rest
  have hrest : (rest t₁).kinds = (rest t₂).kinds := by decide +kernel
  obtain ⟨hfinish, hcalls, hnodes⟩ := finish_hollow .php .php .php "j:" "j:" "j:" _ _ hrest
  refine ⟨hrest, by decide +kernel, by decide +kernel, hfinish, hcalls.trans ?_, hnodes⟩
  show (c.transform t₂).calls.map _ = _
  decide +kernel

end Compiler

end HtmlTemplate
