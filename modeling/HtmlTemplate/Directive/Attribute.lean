import HtmlTemplate.Directive.Placement
import HtmlTemplate.Text.Entity

/-! # Directives that set an attribute -/

namespace HtmlTemplate.Handler

/-- Sets an attribute to a call with the parameter. -/
def setToCall (name : String) (helper : Helper) (s : Site) (t : Tree) : Outcome :=
  { tree := t.setAttribute s.node name (.code (Fragment.expression (call s helper))) }

/-- Links to a route. An element without a class is marked while its route is the current one. -/
def href (s : Site) (t : Tree) : Outcome :=
  let marker := s.dialect.echoIf (call s .isCurrent) "current"
  { tree := t.mapElement s.node fun e =>
      let linked := e.set "href" (.code (Fragment.expression (call s .link)))
      if e.has "class" then linked else linked.set "class" (.code (Fragment.statement marker)) }

/-- The code of a class list with the parameter at its end. -/
def classCode (d : Dialect) (existing : Option AttrValue) (code : String) : String :=
  match existing with
  | some (.text c) => d.concat (d.literal (escapeQuotes c ++ " ")) code
  | some (.code f) => if f.isStatement then code else d.concat (d.concat f.code (d.literal " ")) code
  | none => code

/-- Adds the parameter to the class list. -/
def addClass (s : Site) (t : Tree) : Outcome :=
  { tree := t.mapElement s.node fun e =>
      e.set "class" (.code (Fragment.expression (classCode s.dialect (e.get? "class") s.code))) }

/-- The attribute that names the resource of an element. -/
def resourceAttribute (e : Element) : String :=
  if e.has "href" || e.tag == "a" || e.tag == "link" then "href" else "src"

/-- Resolves the parameter, or else the resource that the element names, as an asset. -/
def asset (s : Site) (t : Tree) : Outcome :=
  { tree := t.mapElement s.node fun e =>
      let name := resourceAttribute e
      match s.parameter <|> e.get? name with
      | some path =>
        let code := s.dialect.call .asset [AttrValue.parameterCode s.dialect (some path)]
        e.set name (.code (Fragment.expression code))
      | none => e }

end HtmlTemplate.Handler
