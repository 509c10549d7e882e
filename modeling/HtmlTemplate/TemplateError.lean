/-! # What can go wrong

Errors are causes; `message` words them.
-/

namespace HtmlTemplate

/-- What can be wrong with a template. -/
inductive TemplateError where
  | foreachAlone
  | ifAlone
  | elseAlone
  | ifAfterElse
  | extendAlone
  /-- Reported by a directive from outside the library. -/
  | reported (message : String)
  /-- The directives did not come to an end. -/
  | unfinished
  deriving DecidableEq, Repr

def TemplateError.message : TemplateError → String
  | foreachAlone => "empty foreach must follow another foreach"
  | ifAlone => "empty if must follow another if"
  | elseAlone => "else must follow if or else"
  | ifAfterElse => "an if-continuation cannot follow an else"
  | extendAlone => "extend requires a parent template"
  | reported message => message
  | unfinished => "directives do not come to an end"

end HtmlTemplate
