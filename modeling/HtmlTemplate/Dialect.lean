import HtmlTemplate.Fragment

/-! # Dialects

A dialect says how the constructs of a view are spelled in its host language. Generated code calls
back into the view at run time through helpers, which a dialect only names.
-/

namespace HtmlTemplate

/-- The services that generated code calls at run time. -/
inductive Helper where
  | link
  | isCurrent
  | asset
  | importResource
  | resourceBlock
  | embed
  | block
  | beginBlock
  | appendBlock
  | prependBlock
  | endBlock
  | layout
  | disableLayout
  | extend
  | translate
  | translatePlural
  | formatDate
  | escape
  deriving DecidableEq, Repr

/-- The name under which a page provides a helper. -/
def Helper.name : Helper → String
  | .link => "link"
  | .isCurrent => "isCurrent"
  | .asset => "file"
  | .importResource => "import"
  | .resourceBlock => "resourceBlock"
  | .embed => "embed"
  | .block => "block"
  | .beginBlock => "begin"
  | .appendBlock => "append"
  | .prependBlock => "prepend"
  | .endBlock => "end"
  | .layout => "layout"
  | .disableLayout => "disableLayout"
  | .extend => "extend"
  | .translate => "tr"
  | .translatePlural => "tn"
  | .formatDate => "formatDate"
  | .escape => "h"

structure Dialect where
  name : String
  /-- The extension of compiled files, without the dot. -/
  extension : String
  statement : String → String
  echo : String → String
  literal : String → String
  null : String
  concat : String → String → String
  /-- A statement that writes a text when a test holds. -/
  echoIf : String → String → String
  beginIf : String → String
  beginElse : String
  endIf : String
  beginLoop : String → String
  endLoop : String
  call : Helper → List String → String
  /-- The code whose value is the escaped value of a code. -/
  escape : String → String := fun code => call .escape [code]

namespace Fragment

/-- A fragment as an expression; a statement has no value and counts as null. -/
def asExpression (d : Dialect) (f : Fragment) : Fragment :=
  if f.isStatement then expression d.null else f

/-- The text that stands for a fragment in the output. -/
def render (d : Dialect) (f : Fragment) : String :=
  match f.kind with
  | .statement => d.statement f.code
  | .expression => d.echo f.code

end Fragment

end HtmlTemplate
