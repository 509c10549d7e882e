import HtmlTemplate.Compiler
import HtmlTemplate.Proofs.Directive.Registry
import HtmlTemplate.Proofs.Markup.Content
import HtmlTemplate.Proofs.Tree.Outline

/-! # Dialects do not shape documents

A dialect spells code, and no directive looks at how it is spelled. So the outline of a pass is the
pass over the outline in a dialect that spells nothing (`outline_run`), and all dialects give one
outline, one sequence of calls and one error (`outline_transform`).
-/

namespace HtmlTemplate

/-- The dialect in which all code is empty. -/
def Dialect.blank : Dialect where
  name := ""
  extension := ""
  statement _ := ""
  echo _ := ""
  literal _ := ""
  null := ""
  concat _ _ := ""
  echoIf _ _ := ""
  beginIf _ := ""
  beginElse := ""
  endIf := ""
  beginLoop _ := ""
  endLoop := ""
  call _ _ := ""

/-- A place where a directive runs, without its code. -/
def Site.outline (s : Site) : Site :=
  ⟨.blank, s.node, s.parameter.map AttrValue.outline⟩

def Outcome.outline (o : Outcome) : Outcome :=
  { o with tree := o.tree.outline }

def Call.outline (c : Call) : Call :=
  { c with parameter := c.parameter.map AttrValue.outline }

/-- What a pass leaves behind, without its code. -/
def Run.outline (r : Run) : Run :=
  ⟨r.tree.outline, r.calls.map Call.outline, r.error⟩

/-! ## Code -/

theorem Fragment.outline_expression (code : String) : (expression code).outline = expression "" := rfl

theorem Kind.outline_expression (code : String) :
    (Kind.code (Fragment.expression code)).outline = .code (Fragment.expression "") :=
  congrArg Kind.code (Fragment.outline_expression code)

theorem Kind.outline_statement (code : String) :
    (Kind.code (Fragment.statement code)).outline = .code (Fragment.statement "") := rfl

theorem Kind.outline_eager (code : String) :
    (Kind.code (Fragment.eager code)).outline = .code (Fragment.eager "") := rfl

theorem AttrValue.outline_expression (code : String) :
    (AttrValue.code (Fragment.expression code)).outline = .code (Fragment.expression "") :=
  congrArg AttrValue.code (Fragment.outline_expression code)

theorem AttrValue.outline_statement (code : String) :
    (AttrValue.code (Fragment.statement code)).outline = .code (Fragment.statement "") := rfl

@[simp] theorem Dialect.call_blank (helper : Helper) (args : List String) :
    blank.call helper args = "" := rfl

@[simp] theorem Dialect.escape_blank (code : String) : blank.escape code = "" := rfl

@[simp] theorem Dialect.concat_blank (first second : String) : blank.concat first second = "" := rfl

@[simp] theorem Dialect.echoIf_blank (test text : String) : blank.echoIf test text = "" := rfl

@[simp] theorem Site.dialect_outline (s : Site) : s.outline.dialect = .blank := rfl

@[simp] theorem Site.node_outline (s : Site) : s.outline.node = s.node := rfl

@[simp] theorem Site.parameter_outline (s : Site) :
    s.outline.parameter = s.parameter.map AttrValue.outline := rfl

@[simp] theorem Site.code_outline (s : Site) : s.outline.code = "" := by
  have hempty : (Fragment.expression "").code = "" := by decide
  have hcode (f : Fragment) : (f.outline.asExpression .blank).code = "" := by
    unfold Fragment.asExpression
    split
    · exact hempty
    · rfl
  rw [code, AttrValue.parameterCode, dialect_outline, parameter_outline]
  rcases s.parameter with - | (x | f)
  · exact hempty
  · exact hempty
  · exact hcode f

/-! ## Handlers -/

/-- A handler that does the same whatever the code is. -/
def Blind (run : Site → Tree → Outcome) : Prop :=
  ∀ s t, (run s t).outline = run s.outline t.outline

namespace Handler

variable (s : Site) (t : Tree)

@[simp] theorem call_outline (helper : Helper) : call s.outline helper = "" := rfl

@[simp] theorem outline_putBefore (k : Kind) :
    (putBefore s k t).outline = putBefore s.outline k.outline t.outline := by
  simp [putBefore]

@[simp] theorem outline_putAfter (k : Kind) :
    (putAfter s k t).outline = putAfter s.outline k.outline t.outline := by
  simp [putAfter]

@[simp] theorem outline_putInstead (k : Kind) :
    (putInstead s k t).outline = putInstead s.outline k.outline t.outline := by
  simp [putInstead]

@[simp] theorem outline_putBelow (k : Kind) :
    (putBelow s k t).outline = putBelow s.outline k.outline t.outline := by
  simp [putBelow]

theorem blind_mark : Blind mark := fun _ _ => rfl

theorem blind_ignore : Blind ignore := by
  intro s t
  simp [ignore, Outcome.outline]

/-- A node that is put somewhere is put there whatever its code is. -/
theorem blind_put {put : Site → Kind → Tree → Tree}
    (hput : ∀ s t k, (put s k t).outline = put s.outline k.outline t.outline) {kind : Site → Kind}
    (hkind : ∀ s, (kind s).outline = kind s.outline) : Blind fun s t => { tree := put s (kind s) t } := by
  intro s t
  simp only [Outcome.outline, hput, hkind]

theorem outline_markup : (markup s).outline = markup s.outline := by
  unfold markup
  rcases hp : s.parameter with - | (x | f)
  · simp [hp, Kind.outline_expression]
  · simp [hp, AttrValue.outline, Kind.outline]
  · simp [hp, AttrValue.outline, Kind.outline_expression]

theorem outline_plainText : (plainText s).outline = plainText s.outline := by
  unfold plainText
  rcases hp : s.parameter with - | (x | f)
  · simp [hp, Kind.outline_expression]
  · simp [hp, AttrValue.outline, Kind.outline]
  · simp [hp, AttrValue.outline, Kind.outline_expression]

theorem blind_replaceByCall (helper : Helper) : Blind (replaceByCall helper) :=
  blind_put outline_putInstead fun s => by rw [Kind.outline_expression, call_outline]

theorem blind_layout : Blind layout :=
  blind_put outline_putBefore fun s => by rw [Kind.outline_eager, call_outline]

theorem blind_disableLayout : Blind disableLayout :=
  blind_put outline_putBefore fun s => by
    rw [Kind.outline_eager, Site.dialect_outline, Dialect.call_blank]

theorem blind_extend : Blind extend := by
  intro s t
  unfold extend
  cases hp : s.parameter with
  | none => simp [hp, Outcome.outline]
  | some v => simp [hp, Outcome.outline, Kind.outline_eager]

theorem blind_capture (helper : Helper) : Blind (capture helper) := by
  intro s t
  simp only [capture, Outcome.outline, outline_putAfter, outline_putBefore, Kind.outline_statement,
    call_outline, Site.dialect_outline, Dialect.call_blank]

/-! Resources -/

theorem isResource_outline (n : NodeId) : isResource t.outline n = isResource t n := by
  rw [isResource, isResource, Tree.element?_outline, Option.any_map]
  rfl

theorem outline_declareImport : (declareImport s t).outline = declareImport s.outline t.outline := by
  unfold declareImport
  cases hp : s.parameter with
  | none => simp [hp]
  | some v => simp [hp, Kind.outline_eager]

theorem blind_importResource : Blind importResource := by
  intro s t
  simp only [importResource, Outcome.outline, apply_ite Tree.outline, Tree.outline_detach,
    ← outline_declareImport, isResource_outline, Site.node_outline]

theorem blind_importList : Blind importList := by
  intro s t
  simp only [importList, Outcome.outline, apply_ite Tree.outline, outline_putInstead,
    ← outline_declareImport, isResource_outline, Site.node_outline, Site.dialect_outline,
    Dialect.call_blank, Kind.outline_expression]

/-! Attributes -/

/-- A change of the element that its outline goes through as well. -/
theorem blind_mapElement {change : Site → Element → Element}
    (h : ∀ s e, (change s e).outline = change s.outline e.outline) :
    Blind fun s t => { tree := t.mapElement s.node (change s) } := by
  intro s t
  simp only [Outcome.outline, Tree.outline_mapElement t s.node (h s), Site.node_outline]

theorem blind_setToCall (name : String) (helper : Helper) : Blind (setToCall name helper) :=
  blind_mapElement fun s e => by
    rw [Element.outline_set, AttrValue.outline_expression, call_outline]

theorem blind_href : Blind href := by
  refine blind_mapElement fun s e => ?_
  simp only [apply_ite Element.outline, Element.outline_set, Element.has_outline,
    AttrValue.outline_expression, AttrValue.outline_statement, call_outline, Site.dialect_outline,
    Dialect.echoIf_blank]

theorem classCode_blank (v : Option AttrValue) : classCode .blank v "" = "" := by
  rcases v with - | (x | f)
  · rfl
  · rfl
  · simp [classCode]

theorem blind_addClass : Blind addClass :=
  blind_mapElement fun s e => by
    rw [Element.outline_set, AttrValue.outline_expression, Site.code_outline, Site.dialect_outline,
      classCode_blank]

theorem resourceAttribute_outline (e : Element) : resourceAttribute e.outline = resourceAttribute e := by
  simp [resourceAttribute]

theorem blind_asset : Blind asset := by
  refine blind_mapElement fun s e => ?_
  have hpath : (s.outline.parameter <|> e.outline.get? (resourceAttribute e)) =
      (s.parameter <|> e.get? (resourceAttribute e)).map AttrValue.outline := by
    rw [Element.get?_outline, Site.parameter_outline]
    cases s.parameter <;> rfl
  simp only [resourceAttribute_outline, hpath]
  cases s.parameter <|> e.get? (resourceAttribute e) with
  | none => rfl
  | some path => simp [AttrValue.outline_expression]

/-! Messages -/

theorem blind_translateWith (helper : Helper) (count : Site → List String) :
    Blind fun s t => translateWith helper (count s) s t := by
  intro s t
  simp only [translateWith, Outcome.outline, outline_putBelow, Kind.outline_expression,
    Site.dialect_outline, Dialect.call_blank]

/-! Loops and conditions -/

theorem branch_outline (side : Side) (alone : TemplateError) (c : NodeId) :
    side.branch alone t.outline c = side.branch alone t c := by
  cases side with
  | holds => simp [Side.branch, funext (Tree.hasChildren_outline t)]
  | fails => simp [Side.branch]

theorem outline_join (side : Side) (alone : TemplateError) (n : NodeId) :
    (join side alone n t).outline = join side alone n t.outline := by
  simp only [join, Tree.unit_outline, Tree.preceding_outline, funext (Tree.isConditional_outline t),
    branch_outline]
  cases (t.preceding (t.unit n)).find? t.isConditional with
  | none => rfl
  | some c =>
    dsimp only
    cases side.branch alone t c with
    | error e => rfl
    | ok b => simp [Outcome.outline]

theorem blind_otherwise : Blind otherwise :=
  fun s t => outline_join t .fails .elseAlone s.node

theorem blind_condition : Blind condition := by
  intro s t
  unfold condition
  cases hp : s.parameter with
  | none =>
    simp only [Site.parameter_outline, hp, Option.map_none]
    exact outline_join t .holds .ifAlone s.node
  | some v =>
    have hstep : ((t.create (.conditional s.code)).replace s.node t.next).outline =
        (t.outline.create (.conditional "")).replace s.node t.next := by
      simp [Kind.outline]
    simp only [Site.parameter_outline, hp, Option.map_some, Site.code_outline, Site.node_outline,
      Tree.next_outline, ← hstep, Tree.thenBranch?_outline]
    cases ((t.create (.conditional s.code)).replace s.node t.next).thenBranch? t.next with
    | none => rfl
    | some b => simp [Outcome.outline]

theorem blind_loop : Blind loop := by
  intro s t
  unfold loop
  cases hp : s.parameter with
  | none =>
    simp only [Site.parameter_outline, Site.node_outline, hp, Option.map_none,
      Tree.previousSibling?_outline, funext (Tree.isLoop_outline t)]
    cases (t.previousSibling? s.node).filter t.isLoop with
    | none => rfl
    | some p => simp [Outcome.outline]
  | some v => simp [hp, Outcome.outline, Kind.outline]

theorem blind_standard : ∀ d ∈ Registry.standardDirectives, Blind d.run := by
  intro d hd
  cases d, hd using Registry.standard_cases with
  | ignore => exact blind_ignore
  | main => exact blind_mark
  | extend => exact blind_extend
  | layout => exact blind_layout
  | nolayout => exact blind_disableLayout
  | «import» => exact blind_importResource
  | imports => exact blind_importList
  | foreach => exact blind_loop
  | «if» => exact blind_condition
  | «else» => exact blind_otherwise
  | assign | append | prepend => exact blind_capture _
  | embed | block => exact blind_replaceByCall _
  | outerhtml => exact blind_put outline_putInstead outline_markup
  | outertext => exact blind_put outline_putInstead outline_plainText
  | innerhtml | html => exact blind_put outline_putBelow outline_markup
  | innertext | text => exact blind_put outline_putBelow outline_plainText
  | tr => exact blind_translateWith _ fun _ => []
  | tn => exact blind_translateWith _ fun s => [s.code]
  | datetime | src => exact blind_setToCall _ _
  | «class» => exact blind_addClass
  | file => exact blind_asset
  | href => exact blind_href

end Handler

/-! ## The pass -/

namespace Registry

variable {r : Registry}

theorem parameter?_outline (v : Option AttrValue) :
    parameter? (v.map AttrValue.outline) = (parameter? v).map AttrValue.outline := by
  rcases v with - | (x | f)
  · rfl
  · by_cases hx : x = "" <;> simp [parameter?, AttrValue.outline, hx]
  · rfl

theorem written_outline (r : Registry) (e : Element) : r.written e.outline = r.written e := by
  unfold written Element.outline
  rw [List.filterMap_map]
  rfl

theorem orderedAt_outline (r : Registry) (t : Tree) (n : NodeId) :
    r.orderedAt t.outline n = r.orderedAt t n := by
  unfold orderedAt
  rw [Tree.element?_outline]
  cases t.element? n with
  | none => rfl
  | some e => simp only [Option.map_some, ordered, written_outline]

theorem outline_runAt (d : Dialect) (n : NodeId) {ds : List (String × Directive)}
    (hds : ∀ x ∈ ds, Blind x.2.run) (t : Tree) :
    (runAt d n ds t).outline = runAt .blank n ds t.outline := by
  induction ds generalizing t with
  | nil => rfl
  | cons x ds ih =>
    obtain ⟨attr, directive⟩ := x
    rw [List.forall_mem_cons] at hds
    rw [runAt, runAt, Tree.isAttached_outline, Tree.attribute?_outline, parameter?_outline]
    by_cases hn : t.isAttached n = true
    · have hrun := hds.1 ⟨d, n, parameter? (t.attribute? n attr)⟩ (t.eraseAttribute n attr)
      rw [Tree.outline_eraseAttribute] at hrun
      simp only [if_pos hn]
      simp only [Site.outline] at hrun
      rw [← hrun]
      simp only [Outcome.outline]
      cases (directive.run ⟨d, n, parameter? (t.attribute? n attr)⟩ (t.eraseAttribute n attr)).error with
      | some e => rfl
      | none => simp only [← ih hds.2, Run.outline, List.map_cons, Call.outline]
    · simp only [if_neg hn, Run.outline, List.map_nil]

theorem resume_outline (t t' : Tree) (n : NodeId) :
    resume t.outline t'.outline n = resume t t' n := by
  simp [resume, funext (Tree.isAttached_outline t'), funext (Tree.following?_outline t')]

theorem outline_visit (hr : ∀ x ∈ r.directives, Blind x.run) (d : Dialect) (visits : Nat)
    (cursor : Option NodeId) (t : Tree) :
    (r.visit d visits cursor t).outline = r.visit .blank visits cursor t.outline := by
  induction visits generalizing cursor t with
  | zero => cases cursor <;> rfl
  | succ visits ih =>
    cases cursor with
    | none => rfl
    | some n =>
      have hat := outline_runAt d n (fun x hx => hr x.2 (mem_orderedAt r t n x hx)) t
      rw [visit, visit, orderedAt_outline, ← hat]
      cases he : (runAt d n (r.orderedAt t n) t).error with
      | some e => simp only [Run.outline, he]
      | none => simp only [Run.outline, he, resume_outline, ← ih, List.map_append]

theorem pending_outline (r : Registry) (f : Forest Node) :
    r.pending (f.map Node.outline) = r.pending f := by
  induction f with
  | nil => rfl
  | cons a c f ihc ihf =>
    rw [Forest.map_cons, pending, pending, ihc, ihf]
    cases hk : a.kind <;> simp [Node.outline, hk, Kind.outline, written_outline]

theorem visitLimit_outline (r : Registry) (t : Tree) : r.visitLimit t.outline = r.visitLimit t := by
  simp only [visitLimit, Tree.forest_outline, Forest.preorder_map, List.length_map, pending_outline]

/-- The outline of a pass is the pass over the outline. -/
theorem outline_run (hr : ∀ x ∈ r.directives, Blind x.run) (d : Dialect) (t : Tree) :
    (r.run d t).outline = r.run .blank t.outline := by
  rw [run, run, outline_visit hr, visitLimit_outline, Tree.firstChild?_outline]

end Registry

/-! ## Reading -/

theorem AttrValue.outline_ofSource (lead : String) (d : Dialect) (name : String)
    (value : Option String) :
    (ofSource lead d name value).outline = (ofSource lead .blank name value).outline := by
  unfold ofSource
  simp only [apply_ite AttrValue.outline, outline_expression]
  cases Part.ofChars (value.getD "").toList with
  | nil => rfl
  | cons part parts => simp only [List.map_cons, outline_expression]

theorem Element.outline_ofMarkup (lead : String) (d : Dialect) (tag : Tag) :
    (ofMarkup lead d tag).outline = (ofMarkup lead .blank tag).outline := by
  unfold ofMarkup
  have hfold : ∀ (as : List (String × Option String)) {e e' : Element}, e.outline = e'.outline →
      (as.foldl (fun e a => e.set a.1 (AttrValue.ofSource lead d a.1 a.2)) e).outline =
        (as.foldl (fun e a => e.set a.1 (AttrValue.ofSource lead .blank a.1 a.2)) e').outline := by
    intro as
    induction as with
    | nil => exact id
    | cons a as ih =>
      intro e e' he
      refine ih ?_
      rw [outline_set, outline_set, he, AttrValue.outline_ofSource]
  exact hfold tag.attributes rfl

namespace Markup

open Forest

theorem outline_prependText (s : String) (f : Forest Kind) :
    (prependText s f).map Kind.outline = prependText s (f.map Kind.outline) := by
  cases f with
  | nil =>
    simp only [prependText, map_nil]
    split <;> rfl
  | cons k c r =>
    cases k with
    | text t =>
      cases c with
      | nil => rfl
      | cons k' c' r' =>
        simp only [prependText, map_cons, Kind.outline]
        split <;> rfl
    | document | element _ | code _ | conditional _ | branch | loop _ =>
      simp only [prependText, map_cons, Kind.outline]
      split <;> rfl

theorem outline_prependTree (k : Kind) (c : Forest Kind) (fs : List (Forest Kind)) :
    (prependTree k c fs).map (Forest.map Kind.outline) =
      prependTree k.outline (c.map Kind.outline) (fs.map (Forest.map Kind.outline)) := by
  cases fs <;> rfl

theorem outline_modifyHead (s : String) (fs : List (Forest Kind)) :
    (fs.modifyHead (prependText s)).map (Forest.map Kind.outline) =
      (fs.map (Forest.map Kind.outline)).modifyHead (prependText s) := by
  cases fs with
  | nil => rfl
  | cons f fs => simp [outline_prependText]

/-- Tokens are nested in one way in all dialects. -/
theorem outline_levels (lead : String) (d : Dialect) (opened : List String) (ts : List Token) :
    (levels lead d opened ts).map (Forest.map Kind.outline) =
      (levels lead .blank opened ts).map (Forest.map Kind.outline) := by
  have helement (tag : Tag) : (Kind.element (Element.ofMarkup lead d tag)).outline =
      (Kind.element (Element.ofMarkup lead .blank tag)).outline :=
    congrArg Kind.element (Element.outline_ofMarkup lead d tag)
  induction ts generalizing opened with
  | nil => rfl
  | cons token ts ih =>
    cases token with
    | text s => rw [levels, levels, outline_modifyHead, outline_modifyHead, ih]
    | code e =>
      rw [levels, levels, outline_prependTree, outline_prependTree, ih, Kind.outline_expression,
        Kind.outline_expression]
    | leaf tag =>
      rw [levels, levels, outline_prependTree, outline_prependTree, ih, helement]
    | raw tag body =>
      rw [levels, levels, outline_prependTree, outline_prependTree, ih, helement]
    | opening tag =>
      have hin := ih (tag.name :: opened)
      rw [levels, levels]
      cases h : levels lead d (tag.name :: opened) ts with
      | nil =>
        rw [h, List.map_nil, eq_comm, List.map_eq_nil_iff] at hin
        rw [hin]
      | cons inner fs =>
        rw [h, List.map_cons, eq_comm, List.map_eq_cons_iff] at hin
        obtain ⟨inner', fs', heq, hinner, hfs⟩ := hin
        rw [heq]
        simp only [outline_prependTree, hinner, hfs, helement]
    | closing name source =>
      rw [levels, levels]
      by_cases hname : name ∈ opened
      · simp only [if_pos hname, List.map_append, ih]
      · simp only [if_neg hname, outline_modifyHead, ih]

theorem outline_content (lead : String) (d : Dialect) (source : String) :
    (content lead d source).map Kind.outline = (content lead .blank source).map Kind.outline := by
  have h := outline_levels lead d [] (Token.scan source.toList)
  unfold content
  cases hl : levels lead d [] (Token.scan source.toList) with
  | nil =>
    rw [hl, List.map_nil, eq_comm, List.map_eq_nil_iff] at h
    rw [h]
  | cons f fs =>
    rw [hl, List.map_cons, eq_comm, List.map_eq_cons_iff] at h
    obtain ⟨f', fs', heq, hf, -⟩ := h
    rw [heq]
    exact hf.symm

end Markup

theorem Tree.outline_ofContent (f : Forest Kind) :
    (ofContent f).outline = ofContent (f.map Kind.outline) := by
  unfold ofContent
  rw [Forest.numberFrom_map]
  rfl

/-- All dialects read one outline. -/
theorem Markup.outline_parse (lead : String) (d : Dialect) (source : String) :
    (parse lead d source).outline = (parse lead .blank source).outline := by
  rw [parse, parse, Tree.outline_ofContent, Tree.outline_ofContent, outline_content]

namespace Compiler

/-- Whatever the dialect, the standard directives are called in the same order with the same
parameters, leave the same document behind, marked at the same node, and fail with the same error, up
to the code that the dialect spells. -/
theorem outline_transform (d₁ d₂ : Dialect) (lead source : String) :
    ((standard d₁ lead).transform ((standard d₁ lead).parse source)).outline =
      ((standard d₂ lead).transform ((standard d₂ lead).parse source)).outline := by
  have hblind : ∀ x ∈ (Registry.standard lead).directives, Blind x.run := Handler.blind_standard
  have hrun (d : Dialect) : ((standard d lead).transform ((standard d lead).parse source)).outline =
      (Registry.standard lead).run .blank (Markup.parse lead .blank source).outline := by
    rw [← Markup.outline_parse lead d]
    exact Registry.outline_run hblind d _
  rw [hrun, hrun]

end Compiler

end HtmlTemplate
