import HtmlTemplate.Dialect

/-! # Elements and their attributes

An element has a tag and attributes in the order of their first setting. Setting an attribute
again keeps its place.
-/

namespace HtmlTemplate

inductive AttrValue where
  | text (text : String)
  | code (code : Fragment)
  deriving DecidableEq, Repr

structure Element where
  tag : String
  attributes : List (String × AttrValue)
  deriving DecidableEq, Repr

/-- The elements that never have content or an end tag. -/
def voidTags : List String :=
  ["area", "base", "br", "col", "embed", "hr", "img", "input", "link", "meta", "param", "source",
    "track", "wbr"]

def isVoid (tag : String) : Bool :=
  voidTags.contains tag

/-- The elements whose content is text up to their end tag, whatever it looks like. -/
def rawTextTags : List String := ["script", "style"]

def isRawText (tag : String) : Bool :=
  rawTextTags.contains tag

namespace AttrValue

/-- A value as an expression: text as a literal, a statement as null. -/
def toExpression (d : Dialect) : AttrValue → Fragment
  | text t => Fragment.expression (d.literal t)
  | code f => f.asExpression d

/-- A parameter as an expression; one left out counts as null. -/
def parameter (d : Dialect) : Option AttrValue → Fragment
  | some v => v.toExpression d
  | none => Fragment.expression d.null

/-- The code of a parameter as an expression. -/
def parameterCode (d : Dialect) (v : Option AttrValue) : String :=
  (parameter d v).code

end AttrValue

namespace Element

/-- An element without attributes. -/
def ofTag (tag : String) : Element := ⟨tag, []⟩

def get? (e : Element) (name : String) : Option AttrValue :=
  e.attributes.lookup name

def has (e : Element) (name : String) : Bool :=
  e.attributes.any (·.1 == name)

/-- Gives `name` the value in the place where it stands, at the end if it is new. -/
def setIn (name : String) (value : AttrValue) :
    List (String × AttrValue) → List (String × AttrValue)
  | [] => [(name, value)]
  | a :: as => if a.1 = name then (name, value) :: as else a :: setIn name value as

def set (e : Element) (name : String) (value : AttrValue) : Element :=
  { e with attributes := setIn name value e.attributes }

def erase (e : Element) (name : String) : Element :=
  { e with attributes := e.attributes.filter (·.1 != name) }

end Element

end HtmlTemplate
