import HtmlTemplate.Chunk
import HtmlTemplate.Directive.Placement
import HtmlTemplate.Text.Entity

/-! # Directives that give an element new content

The parameter takes the place of the element or of what is below it, as markup or as text; or the
content is translated, with what is not text in it as arguments.
-/

namespace HtmlTemplate.Handler

/-- Makes a node and puts it below the element in place of what is there. -/
def putBelow (s : Site) (kind : Kind) (t : Tree) : Tree :=
  ((t.create kind).clear s.node).append s.node t.next

/-- The parameter as markup: text as it stands, code by its value. -/
def markup (s : Site) : Kind :=
  match s.parameter with
  | some (.text t) => .text t
  | _ => .code (Fragment.expression s.code)

/-- The parameter as text: what markup gives a meaning is escaped. -/
def plainText (s : Site) : Kind :=
  match s.parameter with
  | some (.text t) => .text (escapeMarkup t)
  | _ => .code (Fragment.expression (s.dialect.escape s.code))

/-- Replaces the element. -/
def outer (content : Site → Kind) (s : Site) (t : Tree) : Outcome :=
  { tree := putInstead s (content s) t }

/-- Replaces what is below the element. -/
def inner (content : Site → Kind) (s : Site) (t : Tree) : Outcome :=
  { tree := putBelow s (content s) t }

/-! ## Messages -/

/-- A node that is not text as an argument of a message. -/
def messageArgument (d : Dialect) (k : Kind) (c : Forest Kind) : String :=
  match k with
  | .code f => (f.asExpression d).code
  | k => (Fragment.expression (d.literal ((Forest.tree k c).render d))).code

/-- The message of a forest and its arguments, `used` of which have been given before: text stands
for itself, and everything else for the next argument. -/
def message (d : Dialect) (used : Nat) : Forest Kind → String × List String
  | .nil => ("", [])
  | .cons (.text s) _ r =>
    let m := message d used r
    (s ++ m.1, m.2)
  | .cons k c r =>
    let m := message d (used + 1) r
    ("%" ++ Nat.repr (used + 1) ++ m.1, messageArgument d k c :: m.2)

/-- Replaces the content by a call that translates it; `count` comes between message and
arguments. -/
def translateWith (helper : Helper) (count : List String) (s : Site) (t : Tree) : Outcome :=
  let m := message s.dialect 0 (t.below s.node).kinds
  let args := s.dialect.literal (trimmed m.1) :: (count ++ m.2)
  { tree := putBelow s (.code (Fragment.expression (s.dialect.call helper args))) t }

/-- Translates the content. A parameter is ignored. -/
def translate (s : Site) (t : Tree) : Outcome :=
  translateWith .translate [] s t

/-- Translates the content for the number that the parameter gives. -/
def translatePlural (s : Site) (t : Tree) : Outcome :=
  translateWith .translatePlural [s.code] s t

end HtmlTemplate.Handler
