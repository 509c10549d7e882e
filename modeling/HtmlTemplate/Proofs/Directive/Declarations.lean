import HtmlTemplate.Compiler
import HtmlTemplate.Dialect.Php
import HtmlTemplate.Proofs.Directive.Levels
import HtmlTemplate.Proofs.Directive.Reach
import HtmlTemplate.Proofs.Directive.Trace

/-! # The statements that come ahead of all output

Some directives declare a statement that is run first. An import goes to the head of the document; the
others go before their element, and so after all that was declared before: while the directives of an
element run, no such statement stands behind the element (`left_runAt`), and none is ahead of the pass
(`Reached.declared_step`). What is done to the document in between does not change their order.
-/

namespace HtmlTemplate

open Forest Context HtmlTemplate.Tree

/-! ## What calls declare -/

namespace Handler

/-- The import that a directive of the given name declares. -/
def import? (s : Site) : (name : String) → Option Fragment
  | "import" | "imports" => s.parameter.map fun _ => Fragment.eager (call s .importResource)
  | _ => none

/-- What a directive of the given name declares about the layout of the page. -/
def declaration? (s : Site) : (name : String) → Option Fragment
  | "layout" => some (Fragment.eager (call s .layout))
  | "nolayout" => some (Fragment.eager (s.dialect.call .disableLayout []))
  | "extend" => some (Fragment.eager (call s .extend))
  | _ => none

end Handler

namespace Call

def import? (d : Dialect) (x : Call) : Option Fragment :=
  Handler.import? ⟨d, x.node, x.parameter⟩ x.directive

def declaration? (d : Dialect) (x : Call) : Option Fragment :=
  Handler.declaration? ⟨d, x.node, x.parameter⟩ x.directive

/-- What has been declared after some calls, if it was `before` ahead of them: the last import comes first,
and the other declarations come in their order. -/
def declared (d : Dialect) (calls : List Call) (before : List Fragment) : List Fragment :=
  (calls.filterMap (import? d)).reverse ++ (before ++ calls.filterMap (declaration? d))

@[simp] theorem declared_nil (d : Dialect) (before : List Fragment) : declared d [] before = before := by
  simp [declared]

theorem declared_cons (d : Dialect) (x : Call) (calls : List Call) (before : List Fragment) :
    declared d (x :: calls) before =
      declared d calls ((x.import? d).toList ++ (before ++ (x.declaration? d).toList)) := by
  rw [declared, declared, List.filterMap_cons, List.filterMap_cons]
  cases x.import? d <;> cases x.declaration? d <;> simp

theorem declared_append (d : Dialect) (calls more : List Call) (before : List Fragment) :
    declared d (calls ++ more) before = declared d more (declared d calls before) := by
  simp [declared]

end Call

/-! ## Eager fragments in document order -/

/-- The fragment of a node that is written ahead of all output. -/
def Kind.eager? : Kind → Option Fragment
  | .code f => if f.isEager then some f else none
  | _ => none

theorem eager?_eager (code : String) :
    (Kind.code (Fragment.eager code)).eager? = some (Fragment.eager code) := rfl

theorem eager?_statement (code : String) : (Kind.code (Fragment.statement code)).eager? = none := rfl

/-- What is told of a node while the directives of `n` run: that it is `n`, or its eager fragment. -/
def Node.token (n : NodeId) (x : Node) : Option (Option Fragment) :=
  if x.id = n then some none else x.kind.eager?.map some

namespace Forest

def eagers (f : Forest Node) : List Fragment :=
  f.preorder.filterMap fun x => x.kind.eager?

def tokens (n : NodeId) (f : Forest Node) : List (Option Fragment) :=
  f.preorder.filterMap (Node.token n)

variable {n : NodeId} {a : Node} {c r f g : Forest Node}

@[simp] theorem tokens_nil : (nil : Forest Node).tokens n = [] := rfl

@[simp] theorem tokens_cons :
    (cons a c r).tokens n = (a.token n).toList ++ (c.tokens n ++ r.tokens n) := by
  rw [tokens, preorder_cons, List.filterMap_cons, List.filterMap_append]
  cases a.token n <;> rfl

@[simp] theorem tokens_append : (f ++ g).tokens n = f.tokens n ++ g.tokens n := by
  rw [tokens, preorder_append, List.filterMap_append]
  rfl

theorem eagers_cons : (cons a c r).eagers = a.kind.eager?.toList ++ (c ++ r).eagers := by
  rw [eagers, preorder_cons, List.filterMap_cons, ← preorder_append]
  cases a.kind.eager? <;> rfl

theorem exists_tokens_close (n : NodeId) (ks : Context) :
    ∃ front, ∀ f, (close ks f).tokens n = front ++ (f ++ rest ks).tokens n := by
  obtain ⟨front, hfront⟩ := exists_preorder_close ks
  refine ⟨front.filterMap (Node.token n), fun f => ?_⟩
  rw [tokens, hfront, List.filterMap_append]
  rfl

end Forest

namespace Node

variable {n : NodeId} {a : Node}

theorem token_self (h : a.id = n) : a.token n = some none := if_pos h

@[simp] theorem token_mk (n : NodeId) (k : Kind) : Node.token n ⟨n, k⟩ = some none := if_pos rfl

theorem token_other (h : a.id ≠ n) : a.token n = a.kind.eager?.map some := if_neg h

theorem token_new {m : NodeId} {kind : Kind} (h : n < m) : Node.token n ⟨m, kind⟩ = kind.eager?.map some :=
  token_other (Nat.ne_of_gt h)

end Node

/-- The one place of a node among eager fragments that all come before it. -/
theorem eq_of_append_none {α : Type} {l r : List (Option α)} {m : List α}
    (h : l ++ none :: r = m.map some ++ [none]) : l = m.map some ∧ r = [] := by
  induction l generalizing m with
  | nil =>
    cases m with
    | nil => simpa using h
    | cons x m => simp at h
  | cons x l ih =>
    cases m with
    | nil => simp at h
    | cons y m =>
      obtain ⟨rfl, htail⟩ := List.cons_eq_cons.1 h
      obtain ⟨rfl, rfl⟩ := ih htail
      exact ⟨rfl, rfl⟩

/-- All that was declared stands before node `n`. -/
def Led (n : NodeId) (before : List Fragment) (t : Tree) : Prop :=
  (t.below root).tokens n = before.map some ++ [none]

/-- All that was declared stands before node `n`, if this is still in the document. -/
def Left (n : NodeId) (before : List Fragment) (t : Tree) : Prop :=
  Led n before t ∨ (t.below root).tokens n = before.map some

namespace Handler

variable {s : Site} {t : Tree} {before : List Fragment} {kind : Kind}

/-! ## One directive -/

section Place

variable (hp : Placed s t) (h : Led s.node before t)
include hp h

/-- The place of an element among what was declared: what takes its place comes last. -/
theorem Placed.exists_led :
    ∃ (ks : Context) (l : Forest Node) (a : Node) (c r loose : Forest Node) (next : NodeId)
      (marked : Option NodeId), s.node = a.id ∧ a.kind.isElement = true ∧ s.node < next ∧
        t = around ks (l ++ cons a c r) loose next marked ∧ c.tokens s.node = [] ∧
        ∀ g, (close ks (l ++ (g ++ r))).tokens s.node = before.map some ++ g.tokens s.node := by
  obtain ⟨ks, l, a, c, r, loose, next, marked, hs, he, rfl⟩ := hp.exists_place
  have hlt : s.node < next := by
    rw [hs]
    exact hp.shaped.numbered.bound _ mem_ids_around
  obtain ⟨front, hfront⟩ := exists_tokens_close s.node ks
  have htokens : front ++ l.tokens s.node ++ none :: (c.tokens s.node ++ (r ++ rest ks).tokens s.node) =
      before.map some ++ [none] := by
    rw [← h, below_root, hfront]
    simp [Node.token_self hs.symm]
  obtain ⟨hbefore, hafter⟩ := eq_of_append_none htokens
  obtain ⟨hc, hrest⟩ := List.append_eq_nil_iff.1 hafter
  refine ⟨ks, l, a, c, r, loose, next, marked, hs, he, hlt, rfl, hc, fun g => ?_⟩
  have hg : (close ks (l ++ (g ++ r))).tokens s.node =
      front ++ l.tokens s.node ++ (g.tokens s.node ++ (r ++ rest ks).tokens s.node) := by
    rw [hfront]
    simp
  rw [hg, hbefore, hrest, List.append_nil]

/-- A change of the element changes no order. -/
theorem led_mapElement (f : Element → Element) : Led s.node before (t.mapElement s.node f) := by
  have hnum := hp.shaped.numbered
  obtain ⟨ks, l, a, c, r, loose, next, marked, hs, -, -, rfl, hc, hled⟩ := hp.exists_led h
  rw [Led, hs, mapElement_around hnum.nodup, below_root, ← tree_append, ← hs, hled]
  simp [tree, hc]

theorem left_detach : Left s.node before (t.detach s.node) := by
  have hnum := hp.shaped.numbered
  obtain ⟨ks, l, a, c, r, loose, next, marked, hs, -, -, rfl, hc, hled⟩ := hp.exists_led h
  refine Or.inr ?_
  have hnil := hled nil
  rw [nil_append, tokens_nil, List.append_nil] at hnil
  rw [hs, detach_around hnum.nodup, below_root, ← hs, hnil]

theorem led_putBefore (hk : kind.isConditional = false) :
    Led s.node (before ++ kind.eager?.toList) (putBefore s kind t) := by
  have hnum := hp.shaped.numbered
  obtain ⟨ks, l, a, c, r, loose, next, marked, hs, -, hlt, rfl, hc, hled⟩ := hp.exists_led h
  have hg := hled (tree ⟨next, kind⟩ nil ++ tree a c)
  rw [Forest.append_assoc, tree_append a] at hg
  rw [Led, putBefore_around hs hk hnum, below_root, hg]
  cases hkind : kind.eager? with
  | none => simp [tree, hc, Node.token_new hlt, hkind, Node.token_self hs.symm]
  | some f => simp [tree, hc, Node.token_new hlt, hkind, Node.token_self hs.symm]

section Plain

variable (hk : kind.isConditional = false) (heager : kind.eager? = none)
include hk heager

theorem left_putInstead : Left s.node before (putInstead s kind t) := by
  have hnum := hp.shaped.numbered
  obtain ⟨ks, l, a, c, r, loose, next, marked, hs, -, hlt, rfl, hc, hled⟩ := hp.exists_led h
  refine Or.inr ?_
  rw [putInstead_around hs hk hnum, below_root, hled]
  simp [tree, Node.token_new hlt, heager]

theorem led_putBelow : Led s.node before (putBelow s kind t) := by
  have hnum := hp.shaped.numbered
  obtain ⟨ks, l, a, c, r, loose, next, marked, hs, -, hlt, rfl, -, hled⟩ := hp.exists_led h
  rw [Led, putBelow_around hs hk hnum, below_root, ← tree_append, hled]
  simp [tree, Node.token_new hlt, heager, Node.token_self hs.symm]

end Plain

/-- An import comes ahead of all else. -/
theorem led_declareImport {v : AttrValue} (hv : s.parameter = some v) :
    Led s.node (Fragment.eager (call s .importResource) :: before) (declareImport s t) := by
  have hnum := hp.shaped.numbered
  obtain ⟨ks, l, a, c, r, loose, next, marked, hs, -, hlt, rfl, hc, hled⟩ := hp.exists_led h
  rw [Led, below_root] at h
  rw [Led, declareImport_around hv hnum, below_root, close_nil, tokens_append, h]
  simp [tree, Node.token_new hlt, eager?_eager]

/-! ## Loops and conditions -/

theorem led_loop : Led s.node before (loop s t).tree := by
  have hnum := hp.shaped.numbered
  obtain ⟨ks, l, a, c, r, loose, next, marked, hs, -, hlt, rfl, hc, hled⟩ := hp.exists_led h
  cases hv : s.parameter with
  | some v =>
    rw [Led, loop_some hs hnum hv, below_root, ← tree_append, hled]
    simp [tree, hc, Node.token_new hlt, Kind.eager?, Node.token_self hs.symm]
  | none =>
    cases hprev : ((around ks (l ++ cons a c r) loose next marked).previousSibling? s.node).filter
        (around ks (l ++ cons a c r) loose next marked).isLoop with
    | none =>
      rw [loop, hv]
      simp only [hprev]
      exact h
    | some p =>
      rw [hs] at hprev
      obtain ⟨l, b, m, rfl, rfl, hb⟩ := exists_loop_before hnum hprev
      rw [Led, below_root] at h
      rw [Forest.append_assoc, tree_append] at hnum h ⊢
      obtain ⟨front, hfront⟩ := exists_tokens_close s.node ks
      rw [Led, loop_none hs hv hb hnum, below_root, ← h, hfront, hfront]
      simp [tree]

omit h in
/-- Trees that are moved into a branch keep their place in document order but for the branches. -/
theorem tokens_join (side : Side) (alone : TemplateError) :
    ((join side alone s.node t).tree.below root).tokens s.node = (t.below root).tokens s.node := by
  have hnum := hp.shaped.numbered
  obtain ⟨ks, l, u, d, r, loose, hu, -, ht⟩ := hp.exists_unit
  rcases exists_conditional l with hl | ⟨l, b, g, m, rfl, hb, hm⟩
  · rw [ht] at hnum hu ⊢
    rw [join_alone hnum hu hl]
  · rw [Forest.append_assoc, cons_append] at ht
    obtain ⟨k₁, k₂, c₁, c₂, rfl, h₁, h₂⟩ := hp.shaped.exists_branches
      ((congrArg Tree.forest ht).trans (around_forest ..)) hb
    obtain ⟨front, hfront⟩ := exists_tokens_close s.node ks
    have hbranch : k₂.token s.node = none := by
      have hforest : t.forest = close (⟨l, b, m ++ cons u d r⟩ :: (ks ++ [documentFrame loose]))
          (tree k₁ c₁ ++ cons k₂ c₂ nil) := (congrArg Tree.forest ht).trans (around_forest ..)
      have hk := kind?_at hnum.nodup hforest
      rw [Node.token_other, h₂]
      · rfl
      · intro hid
        have helement := hp.element.of_kind? (hid ▸ hk)
        rw [h₂] at helement
        cases helement
    rw [ht] at hnum hu ⊢
    cases side with
    | holds =>
      by_cases hc : c₂ = nil
      · rw [join_holds hnum hb hm hu hc, below_root, below_root, hfront, hfront, hc]
        simp [tree, hbranch]
      · rw [join_holds_error hnum hb hm hu hc]
    | fails =>
      rw [join_fails hnum hb hm hu, below_root, below_root, hfront, hfront]
      simp [tree]

theorem led_condition : Led s.node before (condition s t).tree := by
  cases hv : s.parameter with
  | none =>
    rw [condition, hv, Led, tokens_join hp]
    exact h
  | some v =>
    have hnum := hp.shaped.numbered
    obtain ⟨ks, l, a, c, r, loose, next, marked, hs, -, hlt, rfl, hc, hled⟩ := hp.exists_led h
    have hlt₁ : s.node < next + 1 := Nat.lt_add_right 1 hlt
    have hlt₂ : s.node < next + 2 := Nat.lt_add_right 2 hlt
    rw [Led, condition_some hs hnum hv, below_root, ← tree_append, hled]
    simp [tree, hc, Node.token_new hlt, Node.token_new hlt₁, Node.token_new hlt₂, Kind.eager?,
      Node.token_self hs.symm]

/-! ## The standard directives -/

omit hp h in
theorem eager?_markup (s : Site) : (markup s).eager? = none := by
  unfold markup
  split <;> rfl

omit hp h in
theorem eager?_plainText (s : Site) : (plainText s).eager? = none := by
  unfold plainText
  split <;> rfl

theorem led_capture (helper : Helper) : Led s.node before (capture helper s t).tree := by
  have hnum := hp.shaped.numbered
  obtain ⟨ks, l, a, c, r, loose, next, marked, hs, -, hlt, rfl, hc, hled⟩ := hp.exists_led h
  have hlt₁ : s.node < next + 1 := Nat.lt_add_right 1 hlt
  rw [Led, capture_around helper hs hnum, below_root, hled]
  simp [tree, hc, Node.token_new hlt, Node.token_new hlt₁, eager?_statement, Node.token_self hs.symm]

theorem left_extend (herror : (extend s t).error = none) :
    Left s.node ([] ++ (before ++ [Fragment.eager (call s .extend)])) (extend s t).tree := by
  cases hv : s.parameter with
  | none =>
    rw [extend, hv] at herror
    cases herror
  | some v =>
    rw [extend, hv]
    exact Or.inl (led_putBefore hp h rfl)

theorem left_resource {gone : Tree → Tree}
    (hgone : ∀ {t' : Tree} {before : List Fragment}, Placed s t' → Led s.node before t' →
      Left s.node before (gone t')) :
    Left s.node ((s.parameter.map fun _ => Fragment.eager (call s .importResource)).toList ++ before)
      (if isResource (declareImport s t) s.node then gone (declareImport s t)
        else declareImport s t) := by
  have hplaced := (sound_importSteps hp).2
  rw [follow_importSteps] at hplaced
  have hled : Led s.node ((s.parameter.map fun _ => Fragment.eager (call s .importResource)).toList ++
      before) (declareImport s t) := by
    cases hv : s.parameter with
    | some v => exact led_declareImport hp h hv
    | none =>
      rw [declareImport, hv]
      exact h
  split
  · exact hgone hplaced hled
  · exact Or.inl hled

end Place

/-- What a directive declares comes last before its element, and an import comes first of all. -/
theorem left_standard : ∀ x ∈ Registry.standardDirectives, ∀ {s : Site} {t : Tree} {before : List Fragment},
    Placed s t → Led s.node before t → (x.run s t).error = none →
      Left s.node ((import? s x.name).toList ++ (before ++ (declaration? s x.name).toList))
        (x.run s t).tree := by
  intro x hx s t before hp h he
  have hplain {t' : Tree} (h' : Left s.node before t') : Left s.node ([] ++ (before ++ [])) t' := by
    rwa [List.nil_append, List.append_nil]
  have hbefore (code : String) :
      Left s.node ([] ++ (before ++ [Fragment.eager code])) (putBefore s (.code (Fragment.eager code)) t) :=
    Or.inl (led_putBefore hp h rfl)
  have hinstead {kind : Kind} (hk : kind.isConditional = false) (heager : kind.eager? = none) :
      Left s.node ([] ++ (before ++ [])) (putInstead s kind t) := hplain (left_putInstead hp h hk heager)
  have hbelow {kind : Kind} (hk : kind.isConditional = false) (heager : kind.eager? = none) :
      Left s.node ([] ++ (before ++ [])) (putBelow s kind t) := hplain (Or.inl (led_putBelow hp h hk heager))
  have himport {gone : Tree → Tree} (hgone : ∀ {t' : Tree} {before : List Fragment}, Placed s t' →
      Led s.node before t' → Left s.node before (gone t')) :
      Left s.node ((s.parameter.map fun _ => Fragment.eager (call s .importResource)).toList ++
        (before ++ [])) (if isResource (declareImport s t) s.node then gone (declareImport s t)
          else declareImport s t) := by
    rw [List.append_nil]
    exact left_resource hp h hgone
  cases x, hx using Registry.standard_cases with
  | ignore => exact hplain (left_detach hp h)
  | main => exact hplain (Or.inl h)
  | extend => exact left_extend hp h he
  | layout | nolayout => exact hbefore _
  | «import» => exact himport left_detach
  | imports => exact himport fun hp h => left_putInstead hp h rfl rfl
  | foreach => exact hplain (Or.inl (led_loop hp h))
  | «if» => exact hplain (Or.inl (led_condition hp h))
  | «else» => exact hplain (Or.inl ((tokens_join hp ..).trans h))
  | assign | append | prepend => exact hplain (Or.inl (led_capture hp h _))
  | embed | block => exact hinstead rfl rfl
  | outerhtml => exact hinstead (markup_kind _).1 (eager?_markup _)
  | outertext => exact hinstead (plainText_kind _).1 (eager?_plainText _)
  | innerhtml | html => exact hbelow (markup_kind _).1 (eager?_markup _)
  | innertext | text => exact hbelow (plainText_kind _).1 (eager?_plainText _)
  | tr | tn => exact hbelow rfl rfl
  | datetime | src | «class» | file | href => exact hplain (Or.inl (led_mapElement hp h _))

theorem left_run {x : Directive} (hx : x.IsStandard) {s : Site} {t : Tree} {before : List Fragment}
    (hp : Placed s t) (h : Led s.node before t) (herror : (x.run s t).error = none) :
    Left s.node ((import? s x.name).toList ++ (before ++ (declaration? s x.name).toList))
      (x.run s t).tree := by
  obtain ⟨x₀, hx₀, hname, hrun⟩ := hx
  rw [hrun] at herror ⊢
  rw [hname]
  exact left_standard x₀ hx₀ hp h herror

end Handler

/-! ## All directives of an element -/

section Element

variable {n : NodeId} {before : List Fragment} {t : Tree} {f : Forest Node}

theorem Led.mem_ids (h : Led n before t) : n ∈ (t.below root).ids := by
  have hnone : none ∈ (t.below root).tokens n := by simp [show _ = _ from h]
  obtain ⟨x, hx, htoken⟩ := List.mem_filterMap.1 hnone
  rw [Node.token] at htoken
  split at htoken
  · rename_i hid
    exact List.mem_map.2 ⟨x, hx, hid⟩
  · cases hk : x.kind.eager? <;> simp [hk] at htoken

theorem not_mem_ids_of_tokens (h : f.tokens n = before.map some) : n ∉ f.ids := by
  intro hn
  obtain ⟨x, hx, hid⟩ := List.mem_map.1 hn
  have hnone : none ∈ f.tokens n := List.mem_filterMap.2 ⟨x, hx, Node.token_self hid⟩
  simp [h] at hnone

theorem Tree.Shaped.isAttached_iff (ht : t.Shaped) (hroot : n ≠ root) :
    t.isAttached n = true ↔ n ∈ (t.below root).ids := by
  obtain ⟨content, loose, -, hplace⟩ := ht.exists_content
  have hnodup := ht.numbered.nodup
  rw [hplace] at hnodup ⊢
  rw [below_root]
  exact ⟨mem_of_isAttached hnodup hroot, isAttached_of_mem hnodup⟩

theorem Tree.Shaped.ne_root (ht : t.Shaped) (hn : t.IsKind Kind.isElement n) : n ≠ root := by
  rintro rfl
  have helement := hn.of_kind? ((ht.kind?_document_iff root).2 rfl)
  cases helement

namespace Registry

/-- What the directives of an element declare comes before it, in the order of their calls. -/
theorem left_runAt {d : Dialect} {ds : List (String × Directive)} (hds : ∀ x ∈ ds, x.2.IsStandard)
    (ht : t.Shaped) (hn : t.IsKind Kind.isElement n) (h : Led n before t)
    (herror : (runAt d n ds t).error = none) :
    Left n (Call.declared d (runAt d n ds t).calls before) (runAt d n ds t).tree := by
  induction ds generalizing t before with
  | nil =>
    rw [runAt, Call.declared_nil]
    exact Or.inl h
  | cons x ds ih =>
    obtain ⟨attr, x⟩ := x
    rw [List.forall_mem_cons] at hds
    have hatt : t.isAttached n = true := (ht.isAttached_iff (ht.ne_root hn)).2 h.mem_ids
    rw [runAt, if_pos hatt] at herror ⊢
    have hp : Handler.Placed ⟨d, n, parameter? (t.attribute? n attr)⟩ t := ⟨ht, hatt, hn⟩
    have herase : Led n before (t.eraseAttribute n attr) := Handler.led_mapElement hp h _
    have hp' := hp.eraseAttribute attr
    cases he : (x.run ⟨d, n, parameter? (t.attribute? n attr)⟩ (t.eraseAttribute n attr)).error with
    | some e =>
      simp only [he] at herror
      cases herror
    | none =>
      simp only [he] at herror ⊢
      rw [Call.declared_cons]
      have hshaped := hp'.shaped.follow (Handler.sound_script hds.1 hp')
      have hkind := hp'.element.follow (fun k f => by cases k <;> rfl) hp'.shaped.numbered
        (Handler.script x.name ⟨d, n, parameter? (t.attribute? n attr)⟩ (t.eraseAttribute n attr))
      rw [← Handler.run_eq_follow hds.1] at hshaped hkind
      rcases Handler.left_run hds.1 hp' herase he with hled | hgone
      · exact ih hds.2 hshaped hkind hled herror
      · have hout := (hshaped.isAttached_iff (ht.ne_root hn)).not.2 (not_mem_ids_of_tokens hgone)
        rw [runAt_gone (Bool.eq_false_iff.2 hout), Call.declared_nil]
        exact Or.inr hgone

end Registry

end Element

/-! ## The pass -/

theorem Tree.Shaped.hoisted {t : Tree} (ht : t.Shaped) :
    t.hoisted = (t.below root).eagers.map Chunk.code := by
  obtain ⟨content, loose, -, hplace⟩ := ht.exists_content
  have hkinds : t.kindsAt root = tree .document content.kinds := by
    rw [hplace]
    rfl
  rw [Tree.hoisted, hkinds, hplace, below_root, close_nil, tree, preorder_cons, preorder_kinds, eagers,
    List.map_filterMap, preorder_nil, List.append_nil, List.filterMap_cons, List.filterMap_map]
  refine List.filterMap_congr fun x _ => ?_
  cases hk : x.kind with
  | code f => by_cases hf : f.isEager = true <;> simp [Kind.eager?, hk, hf]
  | _ => simp [Kind.eager?, hk]

section Pass

variable {n : NodeId} {before : List Fragment} {t : Tree} {l : List Node}

/-- The kinds of nodes that say nothing ahead of all output. -/
def Kind.isLate (k : Kind) : Bool :=
  k.eager?.isNone

theorem filterMap_token (h : ∀ x ∈ l, x.id ≠ n) :
    l.filterMap (Node.token n) = (l.filterMap fun x => x.kind.eager?).map some := by
  rw [List.map_filterMap]
  exact List.filterMap_congr fun x hx => Node.token_other (h x hx)

theorem eagers_eq_nil_of_tokens {f : Forest Node} (h : f.tokens n = []) : f.eagers = [] := by
  refine List.filterMap_eq_nil_iff.2 fun x hx => ?_
  have hx' := List.filterMap_eq_nil_iff.1 h x hx
  rw [Node.token] at hx'
  split at hx'
  · cases hx'
  · exact Option.map_eq_none_iff.1 hx'

/-- What stands before a node that says nothing itself is all that there is. -/
theorem Left.eagers (h : Left n before t) (ht : t.Shaped) (hn : t.IsKind Kind.isLate n) :
    (t.below root).eagers = before := by
  have hkind : ∀ x ∈ (t.below root).preorder, x.id = n → x.kind.eager? = none := by
    rintro x hx rfl
    obtain ⟨content, loose, hf, hplace⟩ := ht.exists_content
    rw [hplace, below_root] at hx
    have hmem : (⟨x.id, x.kind⟩ : Node) ∈ t.forest.preorder := by
      rw [hf, preorder_cons]
      exact List.mem_cons_of_mem _ (List.mem_append_left _ hx)
    exact Option.isNone_iff_eq_none.1 (hn.of_kind? ((kind?_eq_some_iff ht.numbered.nodup).2 hmem))
  have htokens : (t.below root).eagers = ((t.below root).tokens n).filterMap id := by
    rw [Forest.eagers, tokens, List.filterMap_filterMap]
    refine List.filterMap_congr fun x hx => ?_
    rw [Node.token]
    split
    · rename_i hid
      exact hkind x hx hid
    · cases x.kind.eager? <;> rfl
  rw [htokens]
  rcases h with h | h
  · rw [show _ = _ from h]
    simp [List.filterMap_append]
  · rw [h]
    simp

/-- A node that the pass has come to is led by all that was declared, if none of it is ahead. -/
theorem Reached.led {bound : NodeId} {behind : List NodeId} {a : Node} {c g : Forest Node}
    (h : Reached bound behind (cons a c g) t) (hahead : (cons a c g).eagers = [])
    (hbefore : (t.below root).eagers = before) : Led a.id before t := by
  obtain ⟨ks, l, f, loose, next, marked, rfl, hshaped, -, -, -, rfl, -⟩ := h.exists_place
  obtain ⟨front, hfront⟩ := exists_preorder_close ks
  have hdoc : (close ks (l ++ cons a c f)).preorder =
      (front ++ l.preorder) ++ a :: (c ++ (f ++ rest ks)).preorder := by
    rw [hfront]
    simp
  have hapart : ∀ x ∈ (front ++ l.preorder) ++ (c ++ (f ++ rest ks)).preorder, x.id ≠ a.id := by
    have hnodup := nodup_content hshaped.numbered.nodup
    rw [ids, hdoc, List.map_append, List.map_cons, List.nodup_middle, List.nodup_cons,
      ← List.map_append] at hnodup
    exact fun x hx hid => hnodup.1 (List.mem_map.2 ⟨x, hx, hid⟩)
  rw [List.forall_mem_append] at hapart
  rw [eagers_cons, List.append_eq_nil_iff, Option.toList_eq_nil_iff, eagers] at hahead
  rw [below_root, eagers, hdoc, List.filterMap_append, List.filterMap_cons, hahead.1, hahead.2,
    List.append_nil] at hbefore
  rw [Led, below_root, tokens, hdoc, List.filterMap_append, List.filterMap_cons, Node.token_self rfl,
    filterMap_token hapart.1, filterMap_token hapart.2, hahead.2, hbefore]
  rfl

/-- What a visit declares is added to what was declared, and nothing of it is ahead of the pass. -/
theorem Reached.declared_step {r : Registry} (hr : ∀ x ∈ r.directives, x.IsStandard) {d : Dialect}
    {bound : NodeId} {behind behind' : List NodeId} {a : Node} {c g ahead' : Forest Node}
    (h : Reached bound behind (cons a c g) t) (hahead : (cons a c g).eagers = [])
    (hbefore : (t.below root).eagers = before)
    (herror : (Registry.runAt d a.id (r.orderedAt t a.id) t).error = none)
    (hreached : Reached bound behind' ahead' (Registry.runAt d a.id (r.orderedAt t a.id) t).tree)
    (honward : Onward a.id g ahead' (Registry.runAt d a.id (r.orderedAt t a.id) t).tree) :
    ((Registry.runAt d a.id (r.orderedAt t a.id) t).tree.below root).eagers =
        Call.declared d (Registry.runAt d a.id (r.orderedAt t a.id) t).calls before ∧
      ahead'.eagers = [] := by
  have hled := h.led hahead hbefore
  rw [eagers_cons, List.append_eq_nil_iff, Option.toList_eq_nil_iff] at hahead
  have hds := Registry.isStandard_orderedAt hr t a.id
  have hleft : Left a.id (Call.declared d (Registry.runAt d a.id (r.orderedAt t a.id) t).calls before)
      (Registry.runAt d a.id (r.orderedAt t a.id) t).tree := by
    cases hk : a.kind.isElement with
    | true => exact Registry.left_runAt hds h.shaped ⟨a.kind, h.kind?, hk⟩ hled herror
    | false =>
      have hnone : r.orderedAt t a.id = [] := by
        rw [Registry.orderedAt, element?, h.kind?, Option.bind_some, Kind.element?_eq_none hk]
      rw [hnone, Registry.runAt, Call.declared_nil]
      exact Or.inl hled
  have hlate : (Registry.runAt d a.id (r.orderedAt t a.id) t).tree.IsKind Kind.isLate a.id := by
    have hstart : t.IsKind Kind.isLate a.id := ⟨a.kind, h.kind?, Option.isNone_iff_eq_none.2 hahead.1⟩
    rw [Registry.runAt_eq_follow d a.id hds]
    exact hstart.follow (fun k f => by cases k <;> rfl) h.shaped.numbered _
  refine ⟨hleft.eagers hreached.shaped hlate, ?_⟩
  rcases honward with ⟨front, x, hx, hdoc⟩ | ⟨-, rfl⟩
  · have htokens : ((Registry.runAt d a.id (r.orderedAt t a.id) t).tree.below root).tokens a.id =
        front.filterMap (Node.token a.id) ++ none :: ahead'.tokens a.id := by
      rw [tokens, hdoc, List.filterMap_append, List.filterMap_cons, Node.token_self hx]
      rfl
    rcases hleft with hled' | hgone
    · rw [Led, htokens] at hled'
      exact eagers_eq_nil_of_tokens (eq_of_append_none hled').2
    · rw [htokens] at hgone
      have hnone : none ∈ (Call.declared d (Registry.runAt d a.id (r.orderedAt t a.id) t).calls
        before).map some := hgone ▸ by simp
      simp at hnone
  · exact List.filterMap_eq_nil_iff.2 fun x hx => List.filterMap_eq_nil_iff.1 hahead.2 x (by simp [hx])

/-- A pass that does not fail leaves in the document what its calls declare. -/
theorem hoisted_run {r : Registry} (hr : ∀ x ∈ r.directives, x.IsStandard) (d : Dialect) {f : Forest Kind}
    (hf : f.IsMarkup) (hcode : ∀ fragment, Kind.code fragment ∈ f.preorder → fragment.isEager = false)
    (herror : (r.run d (ofContent f)).error = none) :
    (r.run d (ofContent f)).tree.hoisted =
      (Call.declared d (r.run d (ofContent f)).calls []).map Chunk.code := by
  have hstart : (f.numberFrom 1).1.eagers = [] := by
    refine List.filterMap_eq_nil_iff.2 fun x hx => ?_
    have hmem : x.kind ∈ f.preorder := by
      rw [← kinds_numberFrom 1 f, preorder_kinds]
      exact List.mem_map_of_mem hx
    cases hk : x.kind with
    | code fragment => simp [Kind.eager?, hcode fragment (hk ▸ hmem)]
    | _ => rfl
  have hcursor : (ofContent f).firstChild? root = (f.numberFrom 1).1.front? := rfl
  unfold Registry.run at herror ⊢
  generalize r.visitLimit (ofContent f) = visits at herror ⊢
  rw [hcursor] at herror ⊢
  obtain ⟨_, hreached, hdeclared, -⟩ := (reached_ofContent hf).visit_calls hr
    (P := fun calls _ ahead t => (t.below root).eagers = Call.declared d calls [] ∧ ahead.eagers = [])
    (fun h hp he _ hreached honward => by
      rw [Call.declared_append]
      exact h.declared_step hr hp.2 hp.1 he hreached honward) [] ⟨hstart, hstart⟩ herror
  rw [List.nil_append] at hdeclared
  rw [hreached.shaped.hoisted, hdeclared]

end Pass

/-! ## The output -/

theorem isEager_of_mem_hoisted {t : Tree} {c : Chunk} (h : c ∈ t.hoisted) : c.isEager = true := by
  obtain ⟨k, -, hk⟩ := List.mem_filterMap.1 h
  split at hk
  · split at hk
    · rename_i hf
      cases hk
      exact hf
    · cases hk
  · cases hk

theorem not_mem_body_of_mem_hoisted {t : Tree} {c : Chunk} (h : c ∈ t.hoisted) (d : Dialect) :
    c ∉ t.body d := by
  intro hbody
  have hlate := (List.mem_filter.1 hbody).2
  rw [isEager_of_mem_hoisted h] at hlate
  cases hlate

/-- The output of a source is what its calls declare, the imports from the last to the first and then the
other declarations in order, and then the body, which has none of these statements. -/
theorem compile_declared (lead source : String) (d : Dialect) (output : String)
    (h : (Compiler.standard d lead).compile source = .ok output) :
    let out := (Registry.standard lead).run d (Markup.parse lead d source)
    let statements := ((out.calls.filterMap (Call.import? d)).reverse ++
      out.calls.filterMap (Call.declaration? d)).map Chunk.code
    output = Chunk.emit d statements ++ Chunk.emit d (out.tree.body d) ∧
      ∀ c ∈ statements, c ∉ out.tree.body d := by
  have hstandard : ∀ x ∈ (Registry.standard lead).directives, x.IsStandard := fun x hx => ⟨x, hx, rfl, rfl⟩
  have hcode := Markup.codes_content (P := fun f => f.isEager = false) (fun _ => rfl) lead d source
  have hfinish : (Compiler.standard d lead).finish
      ((Registry.standard lead).run d (Markup.parse lead d source)) = .ok output := h
  obtain ⟨herror, houtput⟩ := Compiler.finish_eq_ok_iff.1 hfinish
  have hhoisted := hoisted_run hstandard d (Markup.isMarkup_content lead d source) hcode herror
  rw [← Markup.parse] at hhoisted
  -- Nothing below is about how the pass went.
  generalize (Registry.standard lead).run d (Markup.parse lead d source) = out at houtput hhoisted ⊢
  subst houtput
  rw [Call.declared, List.nil_append] at hhoisted
  dsimp only
  rw [← hhoisted]
  exact ⟨rfl, fun c hc => not_mem_body_of_mem_hoisted hc d⟩

/-- Two imports and a layout that are declared around a condition. -/
theorem compile_declared_else :
    let source := "<br j:if=a j:layout=l><br j:else j:import=b><br j:imports=c>"
    let out := (Registry.standard "j:").run .php (Markup.parse "j:" .php source)
    let output := out.tree.serialize .php
    (Compiler.standard .php "j:").compile source = .ok output ∧
      out.calls.map Call.directive = ["layout", "if", "import", "else", "imports"] ∧
      output = Chunk.emit .php (["$this->import(c)", "$this->import(b)", "$this->layout(l)"].map
        fun code => .code (Fragment.eager code)) ++ Chunk.emit .php (out.tree.body .php) := by
  have hcalls : ((Registry.standard "j:").run .php (Markup.parse "j:" .php
      "<br j:if=a j:layout=l><br j:else j:import=b><br j:imports=c>")).calls =
      [⟨1, "layout", some (.code (.expression "l"))⟩, ⟨1, "if", some (.code (.expression "a"))⟩,
        ⟨2, "import", some (.code (.expression "b"))⟩, ⟨2, "else", none⟩,
        ⟨3, "imports", some (.code (.expression "c"))⟩] := by
    decide +kernel
  have herror : ((Registry.standard "j:").run .php (Markup.parse "j:" .php
      "<br j:if=a j:layout=l><br j:else j:import=b><br j:imports=c>")).error = none := by
    decide +kernel
  have hcompile : (Compiler.standard .php "j:").compile
      "<br j:if=a j:layout=l><br j:else j:import=b><br j:imports=c>" =
      .ok (((Registry.standard "j:").run .php (Markup.parse "j:" .php
        "<br j:if=a j:layout=l><br j:else j:import=b><br j:imports=c>")).tree.serialize .php) :=
    Compiler.finish_eq_ok_iff.2 ⟨herror, rfl⟩
  obtain ⟨houtput, -⟩ := compile_declared _ _ _ _ hcompile
  dsimp only
  generalize (Registry.standard "j:").run .php (Markup.parse "j:" .php
      "<br j:if=a j:layout=l><br j:else j:import=b><br j:imports=c>") = out at hcalls hcompile houtput ⊢
  rw [hcalls] at houtput
  exact ⟨hcompile, by rw [hcalls]; rfl, houtput⟩

end HtmlTemplate
