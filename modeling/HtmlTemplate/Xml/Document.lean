import HtmlTemplate.Forest
import HtmlTemplate.Xml.Attribute
import HtmlTemplate.Xml.Token

/-! # XML documents

Just enough XML for a configuration file: the first element of a document with all inside it. What
follows the first element is not looked at. This stands for the deserializer of quick-xml and follows
its documented behaviour.
-/

namespace HtmlTemplate.Xml

/-- An element by its tag, or a run of text. A run with a reference that stands for nothing has no
content. -/
inductive Node where
  | element (tag : Tag)
  | text (content : Option (List Char))
  | doctype
  deriving DecidableEq, Repr

/-! ## Nesting -/

/-- Puts a tree in front of the innermost level. -/
def prependTree (a : Node) (c : Forest Node) : List (Forest Node) → List (Forest Node)
  | f :: fs => .cons a c f :: fs
  | [] => []

/-- Puts a piece of text in front of a forest, joined with the run that stands there. -/
def prependText (piece : Option (List Char)) : Forest Node → Forest Node
  | .cons (.text run) .nil r =>
    .cons (.text (piece.bind fun s => run.map (s ++ ·))) .nil r
  | f => .cons (.text piece) .nil f

/-- What the tokens add to each of the open elements, the innermost first, up to the end tag of the
outermost. End tags must match. -/
def levels (opened : List (List Char)) : List Token → Option (List (Forest Node))
  | [] => none
  | .broken :: _ => none
  | .text piece :: ts => (levels opened ts).map (·.modifyHead (prependText piece))
  | .doctype :: ts => (levels opened ts).map (prependTree .doctype .nil)
  | .opening inside true :: ts => (levels opened ts).map (prependTree (.element (.ofChars inside)) .nil)
  | .opening inside false :: ts =>
    let tag := Tag.ofChars inside
    (levels (tag.name :: opened) ts).bind fun
      | inner :: fs => some (prependTree (.element tag) inner fs)
      | [] => none
  | .closing name :: ts =>
    match opened with
    | [] => none
    | n :: rest =>
      if n ≠ name then none
      else if rest = [] then some [.nil]
      else (levels rest ts).map (.nil :: ·)

/-- The tag of the first element of a document, and what is inside it. Only blanks may be before it. -/
def root? : List Token → Option (Tag × Forest Node)
  | .opening inside true :: _ => some (.ofChars inside, .nil)
  | .opening inside false :: ts =>
    let tag := Tag.ofChars inside
    (levels [tag.name] ts).bind fun fs => fs.head?.map fun f => (tag, f)
  | .doctype :: ts => root? ts
  | .text (some piece) :: ts => if piece.all isSpace then root? ts else none
  | _ => none

/-! ## Content -/

/-- The tag of the element that a forest begins with, if it does. -/
def firstTag? : Forest Node → Option Tag
  | .cons (.element tag) _ _ => some tag
  | _ => none

/-- The declarations that come into force where a forest begins. -/
def firstBindings (f : Forest Node) : List Binding :=
  ((firstTag? f).map Tag.bindings).getD []

/-- Content that is nothing but one run of text. -/
def textOnly? : Forest Node → Option (List Char)
  | .nil => some []
  | .cons .doctype _ r => textOnly? r
  | .cons (.text content) _ r => if r.roots.all (· = .doctype) then content else none
  | .cons (.element _) _ _ => none

/-! ## Passing over

To pass over an element, its first part is read, and then all to its end is skipped. Where skipping
begins, one tag more has been read: what it declares has come into force. Declarations go out of force
at the end tags that are read, one level at each; at those that are skipped they stay.
-/

/-- Whether a forest does not begin with an element that declares what it may not. -/
def beginsLegal (f : Forest Node) : Bool :=
  (firstTag? f).all Tag.isLegal

/-- Whether an element with this content can be passed over. -/
def isPassable : Forest Node → Bool
  | .nil => true
  | .cons .doctype _ r => isPassable r
  | .cons (.text content) _ r => content.isSome && beginsLegal r
  | .cons (.element tag) c r => tag.isLegal && beginsLegal c && beginsLegal r

/-- The scope behind an element that is skipped from `ahead` on. Its end tag has been read if nothing
is ahead. -/
def Scope.skip (scope : Scope) : (ahead : Forest Node) → Scope
  | .nil => scope.tail
  | .cons (.element tag) _ _ => tag.bindings :: scope
  | .cons _ _ _ => scope

/-- The scope behind an element that is passed over, by its content and the scope in it. -/
def Scope.pass (scope : Scope) : (content : Forest Node) → Scope
  | .nil => scope.tail
  | .cons .doctype _ r => scope.pass r
  | .cons (.text _) _ r => scope.skip r
  | .cons (.element tag) c r => (Scope.skip (tag.bindings :: scope) c).skip r

end HtmlTemplate.Xml
