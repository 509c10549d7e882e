import HtmlTemplate.Proofs.Directive.Pieces
import HtmlTemplate.Proofs.Directive.Undeclared
import Mathlib.Tactic.FinCases

/-! # The order in which handlers are called

Among handlers that leave the tree alone a pass shows what it does by itself. For each element in document order it
calls the directives that stand on it, by priority and then by the place of the attribute, and it takes these
attributes off (`run_idle`). The order is that of a list sorted by both (`ordered_eq_dispatched`), and each visit
leaves the rest of the tree for the next (`leads_idle`).
-/

namespace HtmlTemplate

open Forest Context HtmlTemplate.Tree

/-- A handler that leaves the tree alone and finds nothing wrong. -/
def Directive.Idle (x : Directive) : Prop :=
  ∀ s t, x.run s t = { tree := t }

/-- A directive on an element, with its attribute and the place where that stands. -/
structure Carried where
  position : Nat
  attr : String × AttrValue
  directive : Directive

namespace Carried

/-- By priority, and among equals by place. -/
def le (x y : Carried) : Bool :=
  x.directive.priority < y.directive.priority ||
    (x.directive.priority == y.directive.priority && x.position ≤ y.position)

/-- The call on node `n`: its parameter is the value of the attribute, unless that is empty. -/
def call (n : NodeId) (x : Carried) : Call :=
  ⟨n, x.directive.name, if x.attr.2 = .text "" then none else some x.attr.2⟩

/-- What a pass keeps of the directive until it runs. -/
def entry (x : Carried) : String × Directive :=
  (x.attr.1, x.directive)

theorem le_iff {x y : Carried} : x.le y = true ↔ x.directive.priority < y.directive.priority ∨
    x.directive.priority = y.directive.priority ∧ x.position ≤ y.position := by
  simp [le]

theorem le_trans (x y z : Carried) (hxy : x.le y = true) (hyz : y.le z = true) : x.le z = true := by
  rw [le_iff] at *
  omega

theorem le_total (x y : Carried) : (x.le y || y.le x) = true := by
  rw [Bool.or_eq_true, le_iff, le_iff]
  omega

end Carried

namespace Registry

/-- The directive whose name stands behind the lead. -/
def named? (r : Registry) (attr : String) : Option Directive :=
  r.directives.find? fun x => attr = r.lead ++ x.name

/-- The directives on an element, in the order of writing. -/
def carriedBy (r : Registry) (e : Element) : List Carried :=
  e.attributes.zipIdx.filterMap fun a => (r.named? a.1.1).map fun x => ⟨a.2, a.1, x⟩

/-- The directives on an element, in the order in which their handlers are called. -/
def dispatched (r : Registry) (e : Element) : List Carried :=
  (r.carriedBy e).mergeSort Carried.le

/-- The calls for what stands at node `n`. -/
def callsOn (r : Registry) (n : NodeId) : Option Element → List Call
  | some e => (r.dispatched e).map (Carried.call n)
  | none => []

/-- The element without the attributes that stand for directives. -/
def strip (r : Registry) (e : Element) : Element :=
  e.keep fun a => (r.named? a.1).isNone

def stripNode (r : Registry) (a : Node) : Node :=
  ⟨a.id, a.kind.mapElement r.strip⟩

/-- The tree without the attributes that stand for directives. -/
def stripped (r : Registry) (t : Tree) : Tree :=
  { t with forest := t.forest.map r.stripNode }

/-! ## The order on one element -/

variable {r : Registry} {e : Element}

theorem directive?_eq_named? (r : Registry) (attr : String) : r.directive? attr = r.named? attr := by
  rw [directive?, named?]
  split
  · rename_i hlead
    obtain ⟨tail, htail⟩ := List.isPrefixOf_iff_prefix.1 hlead
    have hattr : attr = r.lead ++ String.ofList tail := by
      rw [← String.toList_inj, String.toList_append, String.toList_ofList, htail]
    rw [get?, ← htail, List.drop_left, hattr]
    refine congrArg (r.directives.find? ·) (funext fun x => ?_)
    rw [decide_eq_decide, String.append_right_inj]
    exact eq_comm
  · rename_i hlead
    refine (List.find?_eq_none.2 fun x _ hx => hlead ?_).symm
    rw [decide_eq_true_eq] at hx
    rw [hx, String.toList_append, List.isPrefixOf_iff_prefix]
    exact List.prefix_append ..

theorem written_eq (r : Registry) (e : Element) : r.written e = (r.carriedBy e).map Carried.entry := by
  have hcarried : (r.carriedBy e).map Carried.entry =
      (e.attributes.zipIdx.map Prod.fst).filterMap fun a => (r.directive? a.1).map fun x => (a.1, x) := by
    rw [carriedBy, List.map_filterMap, List.filterMap_map]
    refine congrArg (List.filterMap · _) (funext fun a => ?_)
    rw [Option.map_map, Function.comp_apply, directive?_eq_named?]
    rfl
  rw [hcarried, List.zipIdx_map_fst]
  rfl

theorem mem_attributes_of_mem_carriedBy {x : Carried} (h : x ∈ r.carriedBy e) : x.attr ∈ e.attributes := by
  obtain ⟨a, ha, hx⟩ := List.mem_filterMap.1 h
  obtain ⟨y, -, rfl⟩ := Option.map_eq_some_iff.1 hx
  exact (List.mem_zipIdx ha).2.2 ▸ List.getElem_mem _

theorem carriedBy_pairwise (r : Registry) (e : Element) :
    (r.carriedBy e).Pairwise fun x y => x.position < y.position := by
  have hplaces : e.attributes.zipIdx.Pairwise fun a b => a.2 < b.2 := by
    rw [← List.pairwise_map, List.zipIdx_map_snd]
    exact List.pairwise_lt_range'
  refine List.Pairwise.filterMap _ (fun a b hab x hx y hy => ?_) hplaces
  obtain ⟨_, -, rfl⟩ := Option.map_eq_some_iff.1 hx
  obtain ⟨_, -, rfl⟩ := Option.map_eq_some_iff.1 hy
  exact hab

theorem insertByPriority_append {x : String × Directive} {l₁ l₂ : List (String × Directive)}
    (h₁ : ∀ y ∈ l₁, y.2.priority < x.2.priority) (h₂ : ∀ y ∈ l₂, x.2.priority ≤ y.2.priority) :
    insertByPriority x (l₁ ++ l₂) = l₁ ++ x :: l₂ := by
  induction l₁ with
  | nil =>
    cases l₂ with
    | nil => rfl
    | cons y l₂ => exact if_pos (h₂ y List.mem_cons_self)
  | cons y l₁ ih =>
    obtain ⟨hy, h₁⟩ := List.forall_mem_cons.1 h₁
    rw [List.cons_append, insertByPriority, if_neg (by omega), ih h₁, List.cons_append]

/-- Directives that are put in one after the other, the last first, are sorted. -/
theorem foldr_insertByPriority {l : List Carried} (hl : l.Pairwise fun x y => x.position < y.position) :
    (l.map Carried.entry).foldr insertByPriority [] = (l.mergeSort Carried.le).map Carried.entry := by
  induction l with
  | nil => simp
  | cons x l ih =>
    obtain ⟨hx, hl⟩ := List.pairwise_cons.1 hl
    obtain ⟨l₁, l₂, hcons, hrest, hbefore⟩ := List.mergeSort_cons Carried.le_trans Carried.le_total x l
    have hsorted : (l₁ ++ x :: l₂).Pairwise fun x y => x.le y = true :=
      hcons ▸ List.pairwise_mergeSort Carried.le_trans Carried.le_total (x :: l)
    have hbehind : ∀ y ∈ l₂, x.le y = true :=
      (List.pairwise_cons.1 (List.pairwise_append.1 hsorted).2.1).1
    rw [List.map_cons, List.foldr_cons, ih hl, hcons, hrest, List.map_append, List.map_append, List.map_cons]
    refine insertByPriority_append ?_ ?_
    · rw [List.forall_mem_map]
      intro y hy
      have hy' : y ∈ l.mergeSort Carried.le := by
        rw [hrest]
        exact List.mem_append_left _ hy
      have hlt := hx y (List.mem_mergeSort.1 hy')
      have hnot : ¬ x.le y = true := by simpa using hbefore y hy
      rw [Carried.le_iff] at hnot
      -- The place of `x` is the first, so only its priority can keep it behind.
      change y.directive.priority < x.directive.priority
      omega
    · rw [List.forall_mem_map]
      intro y hy
      have hle := Carried.le_iff.1 (hbehind y hy)
      change x.directive.priority ≤ y.directive.priority
      omega

theorem ordered_eq_dispatched (r : Registry) (e : Element) : r.ordered e = (r.dispatched e).map Carried.entry := by
  rw [ordered, written_eq, foldr_insertByPriority (r.carriedBy_pairwise e)]
  rfl

theorem mem_ordered_attr {a : String × AttrValue} (ha : a ∈ e.attributes) :
    a.1 ∈ (r.ordered e).map Prod.fst ↔ (r.named? a.1).isSome = true := by
  rw [((r.ordered_perm e).map Prod.fst).mem_iff, ← directive?_eq_named?, Option.isSome_iff_exists, List.mem_map]
  constructor
  · rintro ⟨x, hx, hattr⟩
    obtain ⟨b, -, hb⟩ := List.mem_filterMap.1 hx
    obtain ⟨y, hy, rfl⟩ := Option.map_eq_some_iff.1 hb
    exact ⟨y, hattr ▸ hy⟩
  · rintro ⟨x, hx⟩
    exact ⟨(a.1, x), List.mem_filterMap.2 ⟨a, ha, by rw [hx, Option.map_some]⟩, rfl⟩

theorem keep_ordered (r : Registry) (e : Element) :
    (e.keep fun a => a.1 ∉ (r.ordered e).map Prod.fst) = r.strip e := by
  refine congrArg (Element.mk e.tag) (List.filter_congr fun a ha => ?_)
  rw [Bool.eq_iff_iff, decide_eq_true_eq, mem_ordered_attr ha, Bool.not_eq_true, Option.isSome_eq_false_iff]

theorem nodup_ordered (he : e.Distinct) : ((r.ordered e).map Prod.fst).Nodup := by
  rw [((r.ordered_perm e).map Prod.fst).nodup_iff]
  have hwritten : (r.written e).Pairwise fun x y => x.1 ≠ y.1 := by
    refine List.Pairwise.filterMap _ (fun a b hab x hx y hy => ?_) (List.pairwise_map.1 he)
    obtain ⟨_, -, rfl⟩ := Option.map_eq_some_iff.1 hx
    obtain ⟨_, -, rfl⟩ := Option.map_eq_some_iff.1 hy
    exact hab
  exact List.pairwise_map.2 hwritten

theorem parameter?_eq (v : AttrValue) :
    parameter? (some v) = if v = .text "" then none else some v := by
  cases v with
  | text t => simp [parameter?]
  | code c => rfl

theorem calls_ordered (he : e.Distinct) (n : NodeId) :
    ((r.ordered e).map fun x => (⟨n, x.2.name, parameter? (e.get? x.1)⟩ : Call)) = r.callsOn n (some e) := by
  rw [ordered_eq_dispatched, List.map_map]
  refine List.map_congr_left fun x hx => ?_
  have hattr : e.get? x.attr.1 = some x.attr.2 :=
    Element.get?_of_mem he (mem_attributes_of_mem_carriedBy (List.mem_mergeSort.1 hx))
  rw [Function.comp_apply, Carried.call, ← parameter?_eq, ← hattr]
  rfl

/-! ## One visit -/

variable {d : Dialect} {ks : Context} {l c f g loose : Forest Node} {a : Node} {n next : NodeId}
  {marked : Option NodeId}

/-- Each handler is given the value that its attribute had at first, since only the attributes of others went. -/
theorem runAt_idle {ds : List (String × Directive)} (hds : ∀ x ∈ ds, x.2.Idle)
    (hdistinct : (ds.map Prod.fst).Nodup)
    (ht : (around ks (l ++ cons ⟨n, .element e⟩ c g) loose next marked).Numbered) :
    runAt d n ds (around ks (l ++ cons ⟨n, .element e⟩ c g) loose next marked) =
      ⟨around ks (l ++ cons ⟨n, .element (e.keep fun a => a.1 ∉ ds.map Prod.fst)⟩ c g) loose next marked,
        ds.map fun x => ⟨n, x.2.name, parameter? (e.get? x.1)⟩, none⟩ := by
  induction ds generalizing e with
  | nil =>
    have hkeep : (e.keep fun a => a.1 ∉ ([] : List (String × Directive)).map Prod.fst) = e := by
      simp [Element.keep]
    rw [hkeep]
    rfl
  | cons x ds ih =>
    obtain ⟨hx, hds⟩ := List.forall_mem_cons.1 hds
    obtain ⟨hnot, hdistinct⟩ := List.nodup_cons.1 (List.map_cons ▸ hdistinct)
    have hkeep : ((e.erase x.1).keep fun a => a.1 ∉ ds.map Prod.fst) =
        e.keep fun a => a.1 ∉ (x :: ds).map Prod.fst := by
      refine congrArg (Element.mk e.tag) ?_
      rw [Element.erase, List.filter_filter]
      refine List.filter_congr fun a _ => ?_
      rw [Bool.eq_iff_iff, Bool.and_eq_true, bne_iff_ne, decide_eq_true_eq, decide_eq_true_eq, List.map_cons,
        List.mem_cons, not_or]
      exact and_comm
    have hcalls : (ds.map fun y => (⟨n, y.2.name, parameter? ((e.erase x.1).get? y.1)⟩ : Call)) =
        ds.map fun y => ⟨n, y.2.name, parameter? (e.get? y.1)⟩ := by
      refine List.map_congr_left fun y hy => ?_
      have hne : y.1 ≠ x.1 := fun h => hnot (h ▸ List.mem_map_of_mem hy)
      rw [Element.get?_erase hne]
    rw [runAt, if_pos (isAttached_element ht), attribute?_element ht, eraseAttribute_element ht]
    dsimp only
    rw [hx, ih hds hdistinct (numbered_erase ht x.1), hkeep, hcalls]
    rfl

theorem numbered_of_ids (ht : (around ks f loose next marked).Numbered) (hids : g.ids = f.ids) :
    (around ks g loose next marked).Numbered := by
  have hforest : (around ks g loose next marked).forest.ids = (around ks f loose next marked).forest.ids := by
    rw [ids_around, ids_around, ids_close, ids_close, hids]
  exact ⟨hforest ▸ ht.nodup, hforest ▸ ht.bound⟩

theorem ids_map_stripNode (r : Registry) (f : Forest Node) : (f.map r.stripNode).ids = f.ids := by
  induction f with
  | nil => rfl
  | cons a c f ihc ihf => rw [map_cons, ids_cons, ids_cons, ihc, ihf, stripNode]

/-- Whatever stands at a node, a visit makes its calls and takes its directives off. -/
theorem leads_node (hr : ∀ x ∈ r.directives, x.Idle) (ha : ∀ e ∈ a.kind.element?, e.Distinct)
    (ht : (around ks (l ++ cons a c g) loose next marked).Numbered) :
    r.Leads d 1 (r.callsOn a.id a.kind.element?) (some a.id) (around ks (l ++ cons a c g) loose next marked)
      (c ++ (g ++ rest ks)).front? (around ks (l ++ cons (r.stripNode a) c g) loose next marked) := by
  have hrun : runAt d a.id (r.orderedAt (around ks (l ++ cons a c g) loose next marked) a.id)
      (around ks (l ++ cons a c g) loose next marked) =
        ⟨around ks (l ++ cons (r.stripNode a) c g) loose next marked, r.callsOn a.id a.kind.element?, none⟩ := by
    obtain ⟨n, k⟩ := a
    cases k with
    | element e =>
      have he : e.Distinct := ha e rfl
      rw [orderedAt_element ht, runAt_idle (fun x hx => hr x.2 (mem_of_mem_ordered hx)) (nodup_ordered he) ht,
        keep_ordered, calls_ordered he]
      rfl
    | _ =>
      rw [orderedAt, element?, kind?_at ht.nodup (around_forest ..)]
      rfl
  have hnumbered : (around ks (l ++ cons (r.stripNode a) c g) loose next marked).Numbered :=
    numbered_of_ids ht (by simp [stripNode])
  have hleads : r.Leads d 1 _ (some a.id) _ _ _ := Leads.visit (congrArg Run.error hrun)
  rw [hrun] at hleads
  dsimp only at hleads
  rwa [show a.id = (r.stripNode a).id from rfl, resume_attached hnumbered] at hleads

/-! ## The whole pass -/

theorem leads_idle (hr : ∀ x ∈ r.directives, x.Idle) (hg : ∀ a ∈ g.preorder, ∀ e ∈ a.kind.element?, e.Distinct)
    (ht : (around ks (l ++ g) loose next marked).Numbered) :
    r.Leads d g.preorder.length (g.preorder.flatMap fun a => r.callsOn a.id a.kind.element?)
      (g ++ rest ks).front? (around ks (l ++ g) loose next marked)
      (rest ks).front? (around ks (l ++ g.map r.stripNode) loose next marked) := by
  induction g generalizing ks l with
  | nil => exact Leads.refl
  | cons a c g ihc ihg =>
    rw [preorder_cons, List.forall_mem_cons, List.forall_mem_append] at hg
    obtain ⟨ha, hc, hg⟩ := hg
    -- Below the node, what was done to it is part of the way down, and behind it part of what stands before.
    have hnode : (around ks (l ++ cons (r.stripNode a) c g) loose next marked).Numbered :=
      numbered_of_ids ht (by simp [stripNode])
    have hbelow : (around (⟨l, r.stripNode a, g⟩ :: ks) (nil ++ c) loose next marked).Numbered := hnode
    have hbehind : (around ks (l ++ tree (r.stripNode a) (c.map r.stripNode) ++ g) loose next marked).Numbered :=
      numbered_of_ids ht (by simp [ids_map_stripNode, stripNode])
    have hplace : around (⟨l, r.stripNode a, g⟩ :: ks) (nil ++ c.map r.stripNode) loose next marked =
        around ks (l ++ tree (r.stripNode a) (c.map r.stripNode) ++ g) loose next marked := by
      rw [Forest.append_assoc, tree_append]
      rfl
    have hinside := (leads_node (d := d) hr ha ht).trans (ihc hc hbelow)
    rw [hplace] at hinside
    have hleads := hinside.trans (ihg hg hbehind)
    have hlength : (cons a c g).preorder.length = 1 + c.preorder.length + g.preorder.length := by
      simp
      omega
    rw [hlength, preorder_cons, List.flatMap_cons, List.flatMap_append, ← List.append_assoc]
    rw [Forest.append_assoc, tree_append] at hleads
    exact hleads

theorem distinct_numbered (lead : String) (d : Dialect) (source : String) :
    ∀ a ∈ ((Markup.content lead d source).numberFrom 1).1.preorder, ∀ e ∈ a.kind.element?, e.Distinct := by
  intro a ha
  have hkind : a.kind ∈ (Markup.content lead d source).preorder := by
    rw [← kinds_numberFrom 1 (Markup.content lead d source), preorder_kinds]
    exact List.mem_map_of_mem ha
  exact Markup.forall_content (P := fun k => ∀ e ∈ k.element?, e.Distinct)
    (fun tag e he => Option.some.inj he ▸ Element.distinct_ofMarkup lead d tag) nofun nofun source a.kind hkind

/-- Each node stands for what is found at its number, and there is no call on the document. -/
theorem calls_descendants (ht : (around [] f loose next marked).forest.ids.Nodup) :
    (((around [] f loose next marked).descendants root).flatMap fun n =>
        r.callsOn n ((around [] f loose next marked).element? n)) =
      f.preorder.flatMap fun a => r.callsOn a.id a.kind.element? := by
  have hroot : (around [] f loose next marked).element? root = none := by
    rw [element?, kind?_at ht (around_root ..)]
    rfl
  rw [descendants_root, List.flatMap_cons, hroot, close_nil, ids, List.flatMap_map]
  refine List.flatMap_congr fun a ha => ?_
  have hkind : (around [] f loose next marked).kind? a.id = some a.kind := by
    rw [kind?_eq_some_iff ht, around, close_nil, preorder_cons]
    exact List.mem_cons_of_mem _ (List.mem_append_left _ ha)
  rw [element?, hkind]
  rfl

/-- Among idle handlers a pass makes the calls of each element in document order, and takes the directives off. -/
theorem run_idle {r : Registry} (hr : ∀ x ∈ r.directives, x.Idle) (d d₀ : Dialect) (lead source : String) :
    let t := Markup.parse lead d₀ source
    r.run d t =
      ⟨r.stripped t, (t.descendants root).flatMap fun n => r.callsOn n (t.element? n), none⟩ := by
  intro t
  have ht : t.Numbered := (Markup.shaped_parse lead d₀ source).numbered
  obtain ⟨content, next, hplace, hcontent⟩ : ∃ content next, t = around [] content nil next none ∧
      ∀ a ∈ content.preorder, ∀ e ∈ a.kind.element?, e.Distinct :=
    ⟨_, _, rfl, distinct_numbered lead d₀ source⟩
  clear_value t
  subst hplace
  have hleads : r.Leads d content.preorder.length _ (content ++ rest []).front? (around [] content nil next none)
      none (around [] (content.map r.stripNode) nil next none) :=
    leads_idle (l := nil) hr hcontent ht
  have hlimit : content.preorder.length ≤ r.visitLimit (around [] content nil next none) := by
    have hle := le_visitLimit r (around [] content nil next none)
    rw [around, close_nil, preorder_cons, List.length_cons, List.length_append] at hle
    exact Nat.le_trans (by omega) hle
  rw [rest_nil, Forest.append_nil] at hleads
  rw [run, firstChild?, below_root, calls_descendants ht.nodup]
  exact hleads.finish hlimit

/-- Of two directives of one priority the one written first goes first, and one of a lower priority before both. -/
theorem run_idle_ties :
    let idle (name : String) (priority : Int) : Directive := ⟨name, priority, fun _ t => { tree := t }⟩
    let r : Registry := ⟨"j:", [idle "i" 2, idle "if" 2, idle "b" (-1)]⟩
    let t := Markup.parse "j:" .php "<p j:if=x id=q j:i j:b=y>u<b j:ifs=z j:i=w></b></p>"
    (∀ x ∈ r.directives, x.Idle) ∧
      r.run .php t = ⟨r.stripped t, (t.descendants root).flatMap fun n => r.callsOn n (t.element? n), none⟩ ∧
      (r.run .php t).calls.map (fun x => (x.node, x.directive, x.parameter.isSome)) =
        [(1, "b", true), (1, "if", true), (1, "i", false), (3, "i", true)] := by
  intro idle r t
  have hr : ∀ x ∈ r.directives, x.Idle := by
    intro x hx
    fin_cases hx <;> exact fun _ _ => rfl
  exact ⟨hr, run_idle hr .php .php "j:" _, by decide +kernel⟩

end Registry

end HtmlTemplate
