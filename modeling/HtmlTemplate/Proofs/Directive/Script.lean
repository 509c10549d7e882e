import HtmlTemplate.Proofs.Directive.Handlers
import HtmlTemplate.Proofs.Directive.Registry
import HtmlTemplate.Proofs.Tree.Steps

/-! # The steps that a handler takes

`script` lists the steps of each standard directive. The handlers do what their scripts say, in
whatever tree (`run_eq_follow`), and every step is sound at an element of a document
(`sound_script`).
-/

namespace HtmlTemplate.Handler

open Forest Context HtmlTemplate.Tree

/-! ## Scripts -/

def beforeSteps (s : Site) (kind : Kind) (t : Tree) : List Step :=
  [.edit (.create kind), .edit (.insertBefore s.node t.next)]

def afterSteps (s : Site) (kind : Kind) (t : Tree) : List Step :=
  [.edit (.create kind), .edit (.insertAfter s.node t.next)]

def insteadSteps (s : Site) (kind : Kind) (t : Tree) : List Step :=
  [.edit (.create kind), .edit (.replace s.node t.next)]

def belowSteps (s : Site) (kind : Kind) (t : Tree) : List Step :=
  [.edit (.create kind), .edit (.clear s.node), .edit (.append s.node t.next)]

def captureSteps (helper : Helper) (s : Site) (t : Tree) : List Step :=
  let start := beforeSteps s (.code (Fragment.statement (call s helper))) t
  start ++ afterSteps s (.code (Fragment.statement (s.dialect.call .endBlock []))) (t.follow start)

def importSteps (s : Site) (t : Tree) : List Step :=
  match s.parameter with
  | some _ =>
    [.edit (.create (.code (Fragment.eager (call s .importResource)))),
      .edit (.prepend Tree.root t.next)]
  | none => []

/-- What follows the import itself when the element only refers to the resource. -/
def resourceSteps (rest : Tree → List Step) (s : Site) (t : Tree) : List Step :=
  let t' := t.follow (importSteps s t)
  importSteps s t ++ if isResource t' s.node then rest t' else []

def translateSteps (helper : Helper) (count : List String) (s : Site) (t : Tree) : List Step :=
  let m := message s.dialect 0 (t.below s.node).kinds
  let args := s.dialect.literal (trimmed m.1) :: (count ++ m.2)
  belowSteps s (.code (Fragment.expression (s.dialect.call helper args))) t

def loopSteps (s : Site) (t : Tree) : List Step :=
  match s.parameter with
  | none =>
    match (t.previousSibling? s.node).filter t.isLoop with
    | some p => [.edit (.append p s.node)]
    | none => []
  | some _ =>
    [.edit (.create (.loop s.code)), .edit (.replace s.node t.next), .edit (.append t.next s.node)]

def joinSteps (side : Side) (alone : TemplateError) (n : NodeId) (t : Tree) : List Step :=
  let before := t.preceding (t.unit n)
  match before.find? t.isConditional with
  | none => []
  | some c =>
    match side.branch alone t c with
    | .error _ => []
    | .ok b =>
      ((before.takeWhile (!t.isConditional ·)).reverse ++ [t.unit n]).map fun m =>
        .edit (.append b m)

def conditionSteps (s : Site) (t : Tree) : List Step :=
  match s.parameter with
  | none => joinSteps .holds .ifAlone s.node t
  | some _ =>
    let start := [.edit (.create (.conditional s.code)), .edit (.replace s.node t.next)]
    start ++ match (t.follow start).thenBranch? t.next with
      | some b => [.edit (.append b s.node)]
      | none => []

def hrefChange (s : Site) (e : Element) : Element :=
  let linked := e.set "href" (.code (Fragment.expression (call s .link)))
  if e.has "class" then linked
  else linked.set "class" (.code (Fragment.statement (s.dialect.echoIf (call s .isCurrent) "current")))

def classChange (s : Site) (e : Element) : Element :=
  e.set "class" (.code (Fragment.expression (classCode s.dialect (e.get? "class") s.code)))

def assetChange (s : Site) (e : Element) : Element :=
  match s.parameter <|> e.get? (resourceAttribute e) with
  | some path =>
    let code := s.dialect.call .asset [AttrValue.parameterCode s.dialect (some path)]
    e.set (resourceAttribute e) (.code (Fragment.expression code))
  | none => e

def setChange (name : String) (helper : Helper) (s : Site) (e : Element) : Element :=
  e.set name (.code (Fragment.expression (call s helper)))

/-- The steps of the directive of the given name. -/
def script (name : String) (s : Site) (t : Tree) : List Step :=
  match name with
  | "ignore" => [.edit (.detach s.node)]
  | "main" => [.edit (.mark s.node)]
  | "extend" =>
    match s.parameter with
    | some _ => beforeSteps s (.code (Fragment.eager (call s .extend))) t
    | none => []
  | "layout" => beforeSteps s (.code (Fragment.eager (call s .layout))) t
  | "nolayout" => beforeSteps s (.code (Fragment.eager (s.dialect.call .disableLayout []))) t
  | "import" => resourceSteps (fun _ => [.edit (.detach s.node)]) s t
  | "imports" =>
    resourceSteps (insteadSteps s
      (.code (Fragment.expression (s.dialect.call .resourceBlock [])))) s t
  | "foreach" => loopSteps s t
  | "if" => conditionSteps s t
  | "else" => joinSteps .fails .elseAlone s.node t
  | "assign" => captureSteps .beginBlock s t
  | "append" => captureSteps .appendBlock s t
  | "prepend" => captureSteps .prependBlock s t
  | "embed" => insteadSteps s (.code (Fragment.expression (call s .embed))) t
  | "block" => insteadSteps s (.code (Fragment.expression (call s .block))) t
  | "outerhtml" => insteadSteps s (markup s) t
  | "innerhtml" | "html" => belowSteps s (markup s) t
  | "outertext" => insteadSteps s (plainText s) t
  | "innertext" | "text" => belowSteps s (plainText s) t
  | "tr" => translateSteps .translate [] s t
  | "tn" => translateSteps .translatePlural [s.code] s t
  | "datetime" => [.element s.node (setChange "datetime" .formatDate s)]
  | "src" => [.element s.node (setChange "src" .link s)]
  | "class" => [.element s.node (classChange s)]
  | "file" => [.element s.node (assetChange s)]
  | "href" => [.element s.node (hrefChange s)]
  | _ => []

/-! ## Handlers do what their scripts say -/

theorem follow_importSteps (s : Site) (t : Tree) :
    t.follow (importSteps s t) = declareImport s t := by
  unfold importSteps declareImport
  cases s.parameter <;> rfl

theorem follow_resourceSteps (rest : Tree → List Step) (s : Site) (t : Tree) :
    t.follow (resourceSteps rest s t) =
      if isResource (declareImport s t) s.node then
        (declareImport s t).follow (rest (declareImport s t))
      else declareImport s t := by
  unfold resourceSteps
  simp only [follow_append, follow_importSteps]
  split <;> rfl

theorem follow_import (s : Site) (t : Tree) :
    (importResource s t).tree = t.follow (script "import" s t) := by
  refine Eq.trans ?_ (follow_resourceSteps (fun _ => [.edit (.detach s.node)]) s t).symm
  rfl

theorem follow_imports (s : Site) (t : Tree) :
    (importList s t).tree = t.follow (script "imports" s t) := by
  refine Eq.trans ?_ (follow_resourceSteps (insteadSteps s
    (.code (Fragment.expression (s.dialect.call .resourceBlock [])))) s t).symm
  rfl

theorem follow_loopSteps (s : Site) (t : Tree) : t.follow (loopSteps s t) = (loop s t).tree := by
  unfold loopSteps loop
  cases s.parameter with
  | none =>
    cases h : (t.previousSibling? s.node).filter t.isLoop with
    | none => rfl
    | some p => rfl
  | some v => rfl

theorem follow_appends (t : Tree) (b : NodeId) (nodes : List NodeId) :
    t.follow (nodes.map fun m => .edit (.append b m)) = t.appendAll b nodes := by
  rw [follow, List.foldl_map]
  rfl

theorem follow_joinSteps (side : Side) (alone : TemplateError) (n : NodeId) (t : Tree) :
    t.follow (joinSteps side alone n t) = (join side alone n t).tree := by
  unfold joinSteps join
  cases hfind : (t.preceding (t.unit n)).find? t.isConditional with
  | none => simp [hfind]
  | some c =>
    cases hside : side.branch alone t c with
    | error e => simp [hfind, hside]
    | ok b => simp only [hfind, hside, follow_appends]

theorem follow_conditionSteps (s : Site) (t : Tree) :
    t.follow (conditionSteps s t) = (condition s t).tree := by
  unfold conditionSteps condition
  cases s.parameter with
  | none => exact follow_joinSteps ..
  | some v =>
    simp only [follow_append]
    have h : t.follow [.edit (.create (.conditional s.code)), .edit (.replace s.node t.next)] =
        (t.create (.conditional s.code)).replace s.node t.next := rfl
    rw [h]
    cases ((t.create (.conditional s.code)).replace s.node t.next).thenBranch? t.next <;> rfl

theorem follow_extend (s : Site) (t : Tree) :
    (extend s t).tree = t.follow (script "extend" s t) := by
  unfold extend script
  cases s.parameter <;> rfl

theorem follow_script : ∀ d ∈ Registry.standardDirectives, ∀ (s : Site) (t : Tree),
    (d.run s t).tree = t.follow (script d.name s t) := by
  intro d hd s t
  cases d, hd using Registry.standard_cases with
  | extend => exact follow_extend s t
  | «import» => exact follow_import s t
  | imports => exact follow_imports s t
  | foreach => exact (follow_loopSteps s t).symm
  | «if» => exact (follow_conditionSteps s t).symm
  | «else» => exact (follow_joinSteps ..).symm
  | _ => rfl

/-- A handler leaves behind the tree to which its script leads. -/
theorem run_eq_follow {d : Directive} (hd : d.IsStandard) (s : Site) (t : Tree) :
    (d.run s t).tree = t.follow (script d.name s t) := by
  obtain ⟨d₀, hd₀, hname, hrun⟩ := hd
  rw [hname, hrun]
  exact follow_script d₀ hd₀ s t

/-! ## Scripts are sound at an element of the document -/

/-- The site is at an element of the document. -/
structure Placed (s : Site) (t : Tree) : Prop where
  shaped : t.Shaped
  attached : t.isAttached s.node = true
  element : t.IsKind Kind.isElement s.node

variable {ks : Context} {l c r loose : Forest Node} {a : Node} {next : NodeId}
  {marked : Option NodeId} {s : Site} {t : Tree} {kind : Kind}

theorem Placed.free (h : Placed s t) : t.IsKind Kind.isFree s.node :=
  h.element.imp Kind.isFree_of_isElement

theorem Placed.opened (h : Placed s t) : t.IsKind Kind.isOpen s.node :=
  h.element.imp Kind.isOpen_of_isElement

theorem Placed.exists_around (h : Placed s t) :
    ∃ (ks : Context) (l : Forest Node) (a : Node) (c r loose : Forest Node), s.node = a.id ∧
      t = around ks (l ++ cons a c r) loose t.next t.marked := by
  have hroot : s.node ≠ root := by
    intro e
    obtain ⟨k, hk, he⟩ := h.element
    rw [(h.shaped.kind?_document_iff s.node).2 e, Option.some.injEq] at hk
    rw [← hk] at he
    cases he
  obtain ⟨ks, l, a, c, r, loose, ha, ht⟩ := h.shaped.exists_place h.attached hroot
  exact ⟨ks, l, a, c, r, loose, ha.symm, ht⟩

/-- Along sound steps a site stays at its element as long as this is in the document. -/
theorem Placed.follow (h : Placed s t) {steps : List Step} (hsound : t.Sound steps)
    (hatt : (t.follow steps).isAttached s.node = true) : Placed s (t.follow steps) :=
  ⟨h.shaped.follow hsound, hatt,
    h.element.follow (fun k f => by cases k <;> rfl) h.shaped.numbered steps⟩

theorem Placed.eraseAttribute (h : Placed s t) (attr : String) :
    Placed s (t.eraseAttribute s.node attr) := by
  have hsound : t.Sound [.element s.node (·.erase attr)] := ⟨trivial, trivial⟩
  refine h.follow hsound ?_
  have hnodup := (h.shaped.follow hsound).numbered.nodup
  obtain ⟨ks, l, a, c, r, loose, hs, ht⟩ := h.exists_around
  have hmap : t.follow [.element s.node (·.erase attr)] = _ :=
    (congrArg₂ (fun t n => t.mapElement n (·.erase attr)) ht hs).trans
      (mapElement_around (ht ▸ h.shaped.numbered.nodup) _)
  rw [hmap] at hnodup ⊢
  rw [hs]
  exact isAttached_of_mem hnodup (by simp [ids_close])

/-- What is made is the last loose tree, and the element stays where it is. -/
theorem Placed.exists_create (h : Placed s t) (hk : kind.isFree = true) :
    ∃ (ks : Context) (l : Forest Node) (a : Node) (c r loose d : Forest Node) (next : NodeId),
      s.node = a.id ∧ t = around ks (l ++ cons a c r) loose t.next t.marked ∧
      t.create kind = around ks (l ++ cons a c r) (loose ++ tree ⟨t.next, kind⟩ d) next t.marked ∧
      Placed s (t.create kind) := by
  obtain ⟨ks, l, a, c, r, loose, hs, ht⟩ := h.exists_around
  obtain ⟨d, next, hcreate⟩ := exists_create_around ks (l ++ cons a c r) loose t.next t.marked kind
  rw [← ht] at hcreate
  refine ⟨ks, l, a, c, r, loose, d, next, hs, ht, hcreate, ?_⟩
  have hsound : t.Sound [.edit (.create kind)] := ⟨⟨hk, id⟩, trivial⟩
  refine h.follow hsound ?_
  have hnodup := (h.shaped.follow hsound).numbered.nodup
  show (t.create kind).isAttached s.node = true
  rw [show t.follow [.edit (.create kind)] = t.create kind from rfl] at hnodup
  rw [hcreate] at hnodup ⊢
  rw [hs]
  exact isAttached_of_mem hnodup (by simp [ids_close])

theorem Placed.create (h : Placed s t) (hk : kind.isFree = true) :
    Placed s (t.create kind) ∧ (t.create kind).isAttached t.next = false ∧
      (t.create kind).IsKind Kind.isFree t.next := by
  obtain ⟨ks, l, a, c, r, loose, d, next, -, -, hcreate, hp⟩ := h.exists_create hk
  have hnodup := hp.shaped.numbered.nodup
  refine ⟨hp, ?_⟩
  rw [hcreate] at hnodup ⊢
  exact ⟨isAttached_loose hnodup (by simp), isKind_at hnodup (forest_last ..) hk⟩

theorem sound_beforeSteps (h : Placed s t) (hk : kind.isFree = true) :
    t.Sound (beforeSteps s kind t) := by
  obtain ⟨hp, hloose, hfree⟩ := h.create hk
  exact ⟨⟨hk, id⟩, hp.shaped.sound_insertBefore hp.attached hloose hfree hp.free, trivial⟩

theorem sound_afterSteps (h : Placed s t) (hk : kind.isFree = true) :
    t.Sound (afterSteps s kind t) := by
  obtain ⟨hp, hloose, hfree⟩ := h.create hk
  exact ⟨⟨hk, id⟩, hp.shaped.sound_insertAfter hp.attached hloose hfree hp.free, trivial⟩

theorem sound_insteadSteps (h : Placed s t) (hk : kind.isFree = true) :
    t.Sound (insteadSteps s kind t) := by
  obtain ⟨hp, hloose, hfree⟩ := h.create hk
  exact ⟨⟨hk, id⟩, hp.shaped.sound_replace hp.attached hloose hfree hp.free, trivial⟩

theorem sound_belowSteps (h : Placed s t) (hk : kind.isFree = true) :
    t.Sound (belowSteps s kind t) := by
  obtain ⟨-, -, hfree⟩ := h.create hk
  obtain ⟨ks, l, a, c, r, loose, d, next, hs, -, hcreate, hp⟩ := h.exists_create hk
  have hclear : (Step.edit (.clear s.node)).Sound (t.create kind) := ⟨hp.opened, id⟩
  have hshaped := hp.shaped.step hclear
  have hnodup := hp.shaped.numbered.nodup
  rw [hcreate] at hnodup
  have hcleared : (t.create kind).clear s.node =
      around ks (l ++ cons a nil r) ((loose ++ tree ⟨t.next, kind⟩ d) ++ c) next t.marked := by
    rw [hcreate, hs]
    exact clear_around hnodup
  have hnodup' := hshaped.numbered.nodup
  rw [Step.apply, Edit.apply, hcleared] at hnodup'
  refine ⟨⟨hk, id⟩, hclear, hshaped.sound_append ?_ ?_ ?_ ?_, trivial⟩
  · show ((t.create kind).clear s.node).isAttached s.node = true
    rw [hcleared, hs]
    exact isAttached_of_mem hnodup' (by simp [ids_close])
  · show ((t.create kind).clear s.node).isAttached t.next = false
    rw [hcleared]
    exact isAttached_loose hnodup' (by simp)
  · exact hfree.apply hp.shaped.numbered (.clear s.node)
  · exact hp.opened.apply hp.shaped.numbered (.clear s.node)

theorem sound_captureSteps (h : Placed s t) (helper : Helper) :
    t.Sound (captureSteps helper s t) := by
  have hk : (Kind.code (Fragment.statement (call s helper))).isFree = true := rfl
  have hstart := sound_beforeSteps h hk
  refine sound_append.2 ⟨hstart, sound_afterSteps (h.follow hstart ?_) rfl⟩
  have hnodup := (h.shaped.follow hstart).numbered.nodup
  obtain ⟨ks, l, a, c, r, loose, hs, ht⟩ := h.exists_around
  have hput : t.follow (beforeSteps s (.code (Fragment.statement (call s helper))) t) = _ :=
    (congrArg (putBefore s _) ht).trans (putBefore_around hs rfl (ht ▸ h.shaped.numbered))
  rw [hput] at hnodup ⊢
  rw [hs]
  exact isAttached_of_mem hnodup (by simp [ids_close])

theorem sound_importSteps (h : Placed s t) :
    t.Sound (importSteps s t) ∧ Placed s (t.follow (importSteps s t)) := by
  cases hv : s.parameter with
  | none =>
    rw [importSteps, hv]
    exact ⟨trivial, h⟩
  | some v =>
    have hk : (Kind.code (Fragment.eager (call s .importResource))).isFree = true := rfl
    obtain ⟨hp, hloose, hfree⟩ := h.create hk
    have hroot : (t.create (.code (Fragment.eager (call s .importResource)))).IsKind Kind.isOpen
        root := ⟨.document, (hp.shaped.kind?_document_iff root).2 rfl, rfl⟩
    have hsound : t.Sound (importSteps s t) := by
      rw [importSteps, hv]
      exact ⟨⟨hk, id⟩, hp.shaped.sound_prepend rfl hloose hfree hroot, trivial⟩
    refine ⟨hsound, h.follow hsound ?_⟩
    have hnodup := (h.shaped.follow hsound).numbered.nodup
    obtain ⟨ks, l, a, c, r, loose, hs, ht⟩ := h.exists_around
    rw [follow_importSteps] at hnodup ⊢
    rw [ht, declareImport_around hv (ht ▸ h.shaped.numbered)] at hnodup ⊢
    rw [hs]
    exact isAttached_of_mem hnodup (by simp [ids_close])

theorem sound_resourceSteps (h : Placed s t) {rest : Tree → List Step}
    (hrest : ∀ t', Placed s t' → t'.Sound (rest t')) : t.Sound (resourceSteps rest s t) := by
  obtain ⟨hsound, hp⟩ := sound_importSteps h
  refine sound_append.2 ⟨hsound, ?_⟩
  split
  · exact hrest _ hp
  · exact trivial

/-! ## Loops and conditions -/

/-- After a new node has taken the place of the element, this is the last loose tree. -/
theorem Placed.exists_instead (h : Placed s t) {d : Forest Node} {next : NodeId}
    (hcreate : ∀ ks f loose, (around ks f loose t.next t.marked).create kind =
      around ks f (loose ++ tree ⟨t.next, kind⟩ d) next t.marked) :
    ∃ (ks : Context) (l : Forest Node) (a : Node) (c r loose : Forest Node), s.node = a.id ∧
      t.follow (insteadSteps s kind t) =
        around ks (l ++ cons ⟨t.next, kind⟩ d r) (loose ++ tree a c) next t.marked := by
  obtain ⟨ks, l, a, c, r, loose, hs, ht⟩ := h.exists_around
  refine ⟨ks, l, a, c, r, loose, hs, ?_⟩
  have hnum := h.shaped.numbered.create kind
  show (t.create kind).replace s.node t.next = _
  rw [ht, hcreate] at hnum
  have hrep := replace_last hnum
  rw [tree_append] at hrep
  rw [hs, ← hrep, ← hcreate, ← ht]

/-- The element goes below a node that was put in its place, or below a child of that node. -/
theorem Placed.sound_wrap (h : Placed s t) (hk : kind.isFree = true) {d : Forest Node}
    {next : NodeId} (hcreate : ∀ ks f loose, (around ks f loose t.next t.marked).create kind =
      around ks f (loose ++ tree ⟨t.next, kind⟩ d) next t.marked) {b : Node}
    (hopen : b.kind.isOpen = true)
    (hb : (∃ kc, tree b kc = tree ⟨t.next, kind⟩ d) ∨ ∃ kc kr, d = cons b kc kr) :
    t.Sound (insteadSteps s kind t ++ [.edit (.append b.id s.node)]) := by
  have hstart := sound_insteadSteps h hk
  refine sound_append.2 ⟨hstart, ?_, trivial⟩
  have hshaped := h.shaped.follow hstart
  have hfree := h.free.follow (fun k f => by cases k <;> rfl) h.shaped.numbered
    (insteadSteps s kind t)
  obtain ⟨ks, l, a, c, r, loose, hs, hf⟩ := h.exists_instead hcreate
  rw [hf] at hshaped hfree ⊢
  have hnodup := hshaped.numbered.nodup
  have hloose : (around ks (l ++ cons ⟨t.next, kind⟩ d r) (loose ++ tree a c) next
      t.marked).isAttached s.node = false := by
    rw [hs]
    exact isAttached_loose hnodup (by simp)
  rcases hb with ⟨kc, hb⟩ | ⟨kc, kr, rfl⟩
  · cases hb
    exact hshaped.sound_append (isAttached_of_mem hnodup (by simp [ids_close])) hloose hfree
      (isKind_at hnodup (around_forest ..) hopen)
  · have hb : (around ks (l ++ cons ⟨t.next, kind⟩ (cons b kc kr) r) (loose ++ tree a c) next
        t.marked).forest = close (⟨l, ⟨t.next, kind⟩, r⟩ :: (ks ++ [documentFrame (loose ++ tree a c)]))
          (nil ++ cons b kc kr) := around_forest ..
    exact hshaped.sound_append (isAttached_of_mem hnodup (by simp [ids_close])) hloose hfree
      (isKind_at hnodup hb hopen)

theorem sound_loopSteps (h : Placed s t) : t.Sound (loopSteps s t) := by
  unfold loopSteps
  cases s.parameter with
  | some v =>
    have hk : (Kind.loop s.code).isFree = true := rfl
    exact h.sound_wrap hk (fun _ _ _ => create_around rfl) (b := ⟨t.next, .loop s.code⟩) rfl
      (Or.inl ⟨nil, rfl⟩)
  | none =>
    cases hp : (t.previousSibling? s.node).filter t.isLoop with
    | none => exact trivial
    | some p =>
      have hshaped := h.shaped
      obtain ⟨ks, l, a, c, r, loose, hs, ht⟩ := h.exists_around
      rw [ht] at hshaped
      rw [hs, ht] at hp
      obtain ⟨l, b, m, rfl, rfl, hb⟩ := exists_loop_before hshaped.numbered hp
      have hbf : t.forest =
          close (ks ++ [documentFrame loose]) (l ++ cons b m (nil ++ cons a c r)) := by
        rw [congrArg Tree.forest ht, around_forest, Forest.append_assoc, tree_append]
        rfl
      have hnodup := h.shaped.numbered.nodup
      refine ⟨⟨⟨isKind_at hnodup hbf (Kind.isOpen_of_isLoop hb), h.free⟩, ?_⟩, trivial⟩
      rw [hs]
      exact not_isAbove_sibling hnodup hbf

/-- The last conditional at the top of a forest, if there is one. -/
theorem exists_conditional (f : Forest Node) :
    (∀ x ∈ f.roots, x.kind.isConditional = false) ∨
      ∃ (l : Forest Node) (b : Node) (g m : Forest Node), f = l ++ cons b g m ∧
        b.kind.isConditional = true ∧ ∀ x ∈ m.roots, x.kind.isConditional = false := by
  induction f with
  | nil => exact Or.inl (List.forall_mem_nil _)
  | cons a c r _ ih =>
    rcases ih with hr | ⟨l, b, g, m, hr, hb, hm⟩
    · cases ha : a.kind.isConditional with
      | false => exact Or.inl (List.forall_mem_cons.2 ⟨ha, hr⟩)
      | true => exact Or.inr ⟨nil, a, c, r, rfl, ha, hr⟩
    · exact Or.inr ⟨cons a c l, b, g, m, by rw [hr]; rfl, hb, hm⟩

theorem climbLoops_mem (t : Tree) (n : NodeId) (up : List NodeId) :
    t.climbLoops n up = n ∨ t.climbLoops n up ∈ up ∧ t.isLoop (t.climbLoops n up) = true := by
  induction up generalizing n with
  | nil => exact Or.inl rfl
  | cons p up ih =>
    rw [climbLoops]
    split
    · rename_i hp
      refine Or.inr ?_
      rcases ih p with h | h
      · rw [h]
        exact ⟨List.mem_cons_self, hp.1⟩
      · exact ⟨List.mem_cons_of_mem _ h.1, h.2⟩
    · exact Or.inl rfl

theorem Placed.exists_unit (h : Placed s t) :
    ∃ (ks : Context) (l : Forest Node) (u : Node) (d r loose : Forest Node),
      t.unit s.node = u.id ∧ u.kind.isFree = true ∧
      t = around ks (l ++ cons u d r) loose t.next t.marked := by
  have hfree : t.isAttached (t.unit s.node) = true ∧ t.IsKind Kind.isFree (t.unit s.node) := by
    rcases climbLoops_mem t s.node (t.ancestors s.node) with hu | ⟨hmem, hloop⟩
    · rw [unit, hu]
      exact ⟨h.attached, h.free⟩
    · refine ⟨h.shaped.isAttached_of_mem_ancestors h.attached hmem, ?_⟩
      exact (isKind_of_any hloop).imp Kind.isFree_of_isLoop
  have hroot : t.unit s.node ≠ root := by
    intro e
    obtain ⟨k, hk, hf⟩ := hfree.2
    rw [(h.shaped.kind?_document_iff _).2 e, Option.some.injEq] at hk
    rw [← hk] at hf
    cases hf
  obtain ⟨ks, l, u, d, r, loose, hu, ht⟩ := h.shaped.exists_place hfree.1 hroot
  refine ⟨ks, l, u, d, r, loose, hu.symm, ?_, ht⟩
  rw [← hu] at hfree
  exact hfree.2.of_kind? (kind?_at h.shaped.numbered.nodup ((congrArg Tree.forest ht).trans (around_forest ..)))

/-- A tree may be moved into a branch of the conditional before it. -/
theorem sound_nephew {kl kc kr d r : Forest Node} {b k x : Node} (hk : k.kind = .branch)
    (hb : b.kind.isConditional = true)
    (ht : (around ks (l ++ cons b (kl ++ cons k kc kr) (cons x d r)) loose next marked).Shaped) :
    (Step.edit (.append k.id x.id)).Sound
      (around ks (l ++ cons b (kl ++ cons k kc kr) (cons x d r)) loose next marked) := by
  have hnodup := ht.numbered.nodup
  have hbf : (around ks (l ++ cons b (kl ++ cons k kc kr) (cons x d r)) loose next marked).forest =
      close (ks ++ [documentFrame loose])
        (l ++ cons b (kl ++ cons k kc kr) (nil ++ cons x d r)) := around_forest ..
  have hkf : (around ks (l ++ cons b (kl ++ cons k kc kr) (cons x d r)) loose next marked).forest =
      close (⟨l, b, cons x d r⟩ :: (ks ++ [documentFrame loose])) (kl ++ cons k kc kr) := hbf
  have hxf : (around ks (l ++ cons b (kl ++ cons k kc kr) (cons x d r)) loose next marked).forest =
      close (ks ++ [documentFrame loose]) ((l ++ tree b (kl ++ cons k kc kr)) ++ cons x d r) := by
    rw [around_forest, Forest.append_assoc, tree_append]
  have hroots : b ∈ (l ++ cons b (kl ++ cons k kc kr) (cons x d r)).roots ∧
      x ∈ (l ++ cons b (kl ++ cons k kc kr) (cons x d r)).roots := by simp [roots]
  have hfree := ht.isFree_roots hroots.1 (Kind.isFree_of_isConditional hb) hroots.2
  refine ⟨⟨isKind_at hnodup hkf (by rw [hk]; rfl), isKind_at hnodup hxf hfree⟩, ?_⟩
  exact not_isAbove_nephew hnodup hbf rfl

theorem sound_appends {kl kc kr m d r : Forest Node} {b k u : Node} (hk : k.kind = .branch)
    (hb : b.kind.isConditional = true)
    (ht : (around ks (l ++ cons b (kl ++ cons k kc kr) (m ++ cons u d r)) loose next
      marked).Shaped) :
    (around ks (l ++ cons b (kl ++ cons k kc kr) (m ++ cons u d r)) loose next marked).Sound
      ((m.rootIds ++ [u.id]).map fun x => .edit (.append k.id x)) := by
  induction m generalizing kc with
  | nil => exact ⟨sound_nephew hk hb ht, trivial⟩
  | cons x dx m _ ih =>
    rw [cons_append] at ht ⊢
    have hsound := sound_nephew hk hb ht
    have hshaped := ht.step hsound
    rw [Step.apply, Edit.apply, append_previous_child ht.numbered.nodup] at hshaped
    rw [rootIds_cons, List.cons_append, List.map_cons]
    refine ⟨hsound, ?_⟩
    rw [Step.apply, Edit.apply, append_previous_child ht.numbered.nodup]
    exact ih hshaped

theorem sound_joinSteps (h : Placed s t) (side : Side) (alone : TemplateError) :
    t.Sound (joinSteps side alone s.node t) := by
  obtain ⟨ks, l, u, d, r, loose, hu, -, ht⟩ := h.exists_unit
  have hshaped := h.shaped
  rcases exists_conditional l with hl | ⟨l, b, g, m, rfl, hb, hm⟩
  · have hnone := preceding_alone (ht ▸ hshaped.numbered) hl
    rw [← ht] at hnone
    simp only [joinSteps, hu, hnone]
    exact trivial
  · rw [Forest.append_assoc, cons_append] at ht
    obtain ⟨k₁, k₂, c₁, c₂, rfl, h₁, h₂⟩ := hshaped.exists_branches
      ((congrArg Tree.forest ht).trans (around_forest ..)) hb
    rw [ht] at hshaped
    obtain ⟨hfind, htake⟩ := preceding_around hshaped.numbered hb hm
    rw [← ht] at hfind htake
    simp only [joinSteps, hu, hfind, htake, List.reverse_reverse]
    split
    · exact trivial
    · rename_i k hk
      rw [ht] at hk ⊢
      rcases branch_around hshaped.numbered hb hk with rfl | rfl
      · have hin : (around ks (l ++ cons b (nil ++ cons k₁ c₁ (tree k₂ c₂)) (m ++ cons u d r)) loose
            t.next t.marked).Shaped := hshaped
        exact sound_appends h₁ hb hin
      · have hin : (around ks (l ++ cons b (tree k₁ c₁ ++ cons k₂ c₂ nil) (m ++ cons u d r)) loose
            t.next t.marked).Shaped := hshaped
        exact sound_appends h₂ hb hin

theorem sound_conditionSteps (h : Placed s t) : t.Sound (conditionSteps s t) := by
  unfold conditionSteps
  cases s.parameter with
  | none => exact sound_joinSteps h _ _
  | some v =>
    have hk : (Kind.conditional s.code).isFree = true := rfl
    have hthen : (t.follow (insteadSteps s (.conditional s.code) t)).thenBranch? t.next =
        some (t.next + 1) := by
      have hnodup := (h.shaped.follow (sound_insteadSteps h hk)).numbered.nodup
      obtain ⟨ks, l, a, c, r, loose, -, hf⟩ := h.exists_instead
        fun ks f loose => create_conditional (f := f) s.code
      rw [hf] at hnodup ⊢
      exact thenBranch?_branches hnodup
    simp only [insteadSteps] at hthen
    simp only [hthen]
    exact h.sound_wrap hk (fun _ _ _ => create_conditional _) (b := ⟨t.next + 1, .branch⟩) rfl
      (Or.inr ⟨nil, _, rfl⟩)

theorem isFree_markup (s : Site) : (markup s).isFree = true := by
  unfold markup
  split <;> rfl

theorem isFree_plainText (s : Site) : (plainText s).isFree = true := by
  unfold plainText
  split <;> rfl

theorem sound_extend (h : Placed s t) : t.Sound (script "extend" s t) := by
  unfold script
  cases s.parameter with
  | none => exact trivial
  | some v => exact sound_beforeSteps h rfl

theorem sound_standard : ∀ d ∈ Registry.standardDirectives, ∀ {s : Site} {t : Tree}, Placed s t →
    t.Sound (script d.name s t) := by
  have hdetach : ∀ {s : Site} {t : Tree}, Placed s t → t.Sound [.edit (.detach s.node)] :=
    fun h => ⟨⟨h.free, id⟩, trivial⟩
  intro d hd s t h
  cases d, hd using Registry.standard_cases with
  | ignore => exact hdetach h
  | main => exact ⟨⟨trivial, id⟩, trivial⟩
  | extend => exact sound_extend h
  | layout | nolayout => exact sound_beforeSteps h rfl
  | «import» => exact sound_resourceSteps h fun _ => hdetach
  | imports => exact sound_resourceSteps h fun _ h' => sound_insteadSteps h' rfl
  | foreach => exact sound_loopSteps h
  | «if» => exact sound_conditionSteps h
  | «else» => exact sound_joinSteps h _ _
  | assign | append | prepend => exact sound_captureSteps h _
  | embed | block => exact sound_insteadSteps h rfl
  | outerhtml => exact sound_insteadSteps h (isFree_markup _)
  | outertext => exact sound_insteadSteps h (isFree_plainText _)
  | innerhtml | html => exact sound_belowSteps h (isFree_markup _)
  | innertext | text => exact sound_belowSteps h (isFree_plainText _)
  | tr | tn => exact sound_belowSteps h rfl
  | datetime | src | «class» | file | href => exact ⟨trivial, trivial⟩

/-- At an element of a document every step of a standard directive is sound. -/
theorem sound_script {d : Directive} (hd : d.IsStandard) (h : Placed s t) :
    t.Sound (script d.name s t) := by
  obtain ⟨d₀, hd₀, hname, -⟩ := hd
  rw [hname]
  exact sound_standard d₀ hd₀ h

end HtmlTemplate.Handler
