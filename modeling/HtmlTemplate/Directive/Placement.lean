import HtmlTemplate.Directive.Registry

/-! # Directives that place an element

The element is marked, taken out, replaced by a call or captured as a block; declarations of the
page are put before it or at the head of the document as eager statements.
-/

namespace HtmlTemplate.Handler

/-- A call of a helper with the parameter. -/
def call (s : Site) (helper : Helper) : String :=
  s.dialect.call helper [s.code]

/-- Makes a node and puts it before the element. -/
def putBefore (s : Site) (kind : Kind) (t : Tree) : Tree :=
  (t.create kind).insertBefore s.node t.next

/-- Makes a node and puts it after the element. -/
def putAfter (s : Site) (kind : Kind) (t : Tree) : Tree :=
  (t.create kind).insertAfter s.node t.next

/-- Makes a node and puts it in place of the element. -/
def putInstead (s : Site) (kind : Kind) (t : Tree) : Tree :=
  (t.create kind).replace s.node t.next

/-- Marks the element as the one to write out. -/
def mark (s : Site) (t : Tree) : Outcome :=
  { tree := t.mark s.node }

/-- Takes the element out. -/
def ignore (s : Site) (t : Tree) : Outcome :=
  { tree := t.detach s.node }

/-! ## Resources -/

/-- The tags that do nothing but refer to a style sheet or a script. -/
def resourceTags : List String := ["link", "script"]

def isResource (t : Tree) (n : NodeId) : Bool :=
  (t.element? n).any fun e => resourceTags.contains e.tag

/-- Puts an import of the parameter, if there is one, at the head of the document. -/
def declareImport (s : Site) (t : Tree) : Tree :=
  match s.parameter with
  | some _ =>
    (t.create (.code (Fragment.eager (call s .importResource)))).prepend Tree.root t.next
  | none => t

/-- Imports a resource; an element that only refers to it is taken out. -/
def importResource (s : Site) (t : Tree) : Outcome :=
  let t := declareImport s t
  { tree := if isResource t s.node then t.detach s.node else t }

/-- Imports a resource; an element that only refers to it gives way to the list of imports. -/
def importList (s : Site) (t : Tree) : Outcome :=
  let t := declareImport s t
  let list := Fragment.expression (s.dialect.call .resourceBlock [])
  { tree := if isResource t s.node then putInstead s (.code list) t else t }

/-! ## Blocks -/

/-- Replaces the element by a call. -/
def replaceByCall (helper : Helper) (s : Site) (t : Tree) : Outcome :=
  { tree := putInstead s (.code (Fragment.expression (call s helper))) t }

/-- Captures the element as a block. -/
def capture (helper : Helper) (s : Site) (t : Tree) : Outcome :=
  let t := putBefore s (.code (Fragment.statement (call s helper))) t
  { tree := putAfter s (.code (Fragment.statement (s.dialect.call .endBlock []))) t }

/-! ## Layout -/

/-- Names the layout of the page. -/
def layout (s : Site) (t : Tree) : Outcome :=
  { tree := putBefore s (.code (Fragment.eager (call s .layout))) t }

/-- Leaves the page without a layout. -/
def disableLayout (s : Site) (t : Tree) : Outcome :=
  { tree := putBefore s (.code (Fragment.eager (s.dialect.call .disableLayout []))) t }

/-- Names the template that the page extends. -/
def extend (s : Site) (t : Tree) : Outcome :=
  match s.parameter with
  | some _ => { tree := putBefore s (.code (Fragment.eager (call s .extend))) t }
  | none => { tree := t, error := some .extendAlone }

end HtmlTemplate.Handler
