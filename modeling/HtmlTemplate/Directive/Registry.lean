import HtmlTemplate.TemplateError
import HtmlTemplate.Tree.Edit

/-! # Directives and their registry

A directive is an attribute whose name is the lead followed by a registered name. Its handler edits
the tree around the element that carries it. Of several directives on one element, those of lower
priority run first, and among equals the one written first.
-/

namespace HtmlTemplate

/-- Where a directive runs: the dialect, the element and the parameter it was given. -/
structure Site where
  dialect : Dialect
  node : NodeId
  parameter : Option AttrValue

/-- What a handler leaves behind: the tree, and what was wrong if it failed. -/
structure Outcome where
  tree : Tree
  error : Option TemplateError := none

/-- The code of the parameter as an expression. -/
def Site.code (s : Site) : String :=
  AttrValue.parameterCode s.dialect s.parameter

structure Directive where
  name : String
  priority : Int
  run : Site → Tree → Outcome

structure Registry where
  /-- What the names of directive attributes begin with. -/
  lead : String
  directives : List Directive

namespace Registry

def empty (lead : String) : Registry := ⟨lead, []⟩

def get? (r : Registry) (name : String) : Option Directive :=
  r.directives.find? (·.name = name)

def erase (r : Registry) (name : String) : Registry :=
  { r with directives := r.directives.filter (·.name ≠ name) }

/-- Adds a directive, in place of one of the same name. -/
def register (r : Registry) (directive : Directive) : Registry :=
  { r with directives := (r.erase directive.name).directives ++ [directive] }

/-- Changes the priority of a directive, if there is one of that name. -/
def setPriority (r : Registry) (name : String) (priority : Int) : Registry :=
  { r with directives := r.directives.map fun d =>
      if d.name = name then { d with priority := priority } else d }

def names (r : Registry) : List String :=
  r.directives.map Directive.name

/-- The directive that an attribute name stands for. -/
def directive? (r : Registry) (attr : String) : Option Directive :=
  if r.lead.toList.isPrefixOf attr.toList then
    r.get? (String.ofList (attr.toList.drop r.lead.toList.length))
  else none

/-- The directives of an element with their attribute names, in the order of writing. -/
def written (r : Registry) (e : Element) : List (String × Directive) :=
  e.attributes.filterMap fun a => (r.directive? a.1).map fun d => (a.1, d)

/-- Puts a directive before those of the same or a higher priority. -/
def insertByPriority (x : String × Directive) :
    List (String × Directive) → List (String × Directive)
  | [] => [x]
  | y :: ys => if x.2.priority ≤ y.2.priority then x :: y :: ys else y :: insertByPriority x ys

/-- The directives of an element in the order in which they run. -/
def ordered (r : Registry) (e : Element) : List (String × Directive) :=
  (r.written e).foldr insertByPriority []

end Registry

end HtmlTemplate
