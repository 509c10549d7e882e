import HtmlTemplate.Markup.Token
import HtmlTemplate.Tree.Basic

/-! # From source to document

The tokens of a source are nested by their start and end tags, attribute values are told apart
into text and code, and the nodes are numbered in document order. Every source has a document.
-/

namespace HtmlTemplate

/-! ## Interpolation in attribute values -/

/-- A part of an attribute value. -/
inductive Part where
  | literal (text : String)
  | code (expression : String)
  deriving DecidableEq, Repr

namespace Part

open Chars

/-- The first interpolation of a text: what stands before it, its expression and what follows.
There is none if it is not closed, or if it is blank. -/
def first? (s : List Char) : Option (List Char × List Char × List Char) :=
  match breakAt ['\x7b', '\x7b'].isPrefixOf s with
  | (_, []) => none
  | (before, found) =>
    match cut ['\x7d', '\x7d'] (found.drop 2) with
    | some (inner, after) => if trim inner = [] then none else some (before, trim inner, after)
    | none => none

theorem length_first {s before inner after : List Char}
    (h : first? s = some (before, inner, after)) : after.length < s.length := by
  have hlen := length_breakAt ['\x7b', '\x7b'].isPrefixOf s
  unfold first? at h
  split at h
  · cases h
  · rename_i b f hne hbf
    rw [hbf] at hlen
    have hf : 0 < f.length := List.length_pos_iff.2 hne
    split at h
    · rename_i hcut
      split at h
      · cases h
      · have hle := (length_cut hcut).1
        cases h
        simp only [List.length_drop] at hle hlen
        omega
    · cases h

/-- A literal part for a text that is not empty. -/
def literalOf (s : List Char) : List Part :=
  if s = [] then [] else [literal (String.ofList s)]

/-- The parts of an attribute value up to the first interpolation that is blank or not closed;
from there on all is one literal. -/
def ofChars (s : List Char) : List Part :=
  match _h : first? s with
  | none => literalOf s
  | some (before, inner, after) =>
    literalOf before ++ code (String.ofList inner) :: ofChars after
termination_by s.length
decreasing_by exact length_first _h

def isCode : Part → Bool
  | code _ => true
  | literal _ => false

/-- The host expression of a part. -/
def expression (d : Dialect) : Part → String
  | literal t => d.literal t
  | code e => d.escape e

end Part

/-- The value of an attribute as written: code behind the lead, text or an interpolation
elsewhere. -/
def AttrValue.ofSource (lead : String) (d : Dialect) (name : String) (value : Option String) :
    AttrValue :=
  let value := value.getD ""
  if lead.toList.isPrefixOf name.toList then
    if Chars.trim value.toList = [] then .text "" else .code (Fragment.expression value)
  else
    let parts := Part.ofChars value.toList
    if parts.any Part.isCode then
      match parts.map (Part.expression d) with
      | [] => .text value
      | p :: ps => .code (Fragment.expression (ps.foldl d.concat p))
    else .text value

/-- The element of a start tag. An attribute that is written twice has its last value. -/
def Element.ofMarkup (lead : String) (d : Dialect) (tag : Tag) : Element :=
  tag.attributes.foldl
    (fun e a => e.set a.1 (AttrValue.ofSource lead d a.1 a.2)) (Element.ofTag tag.name)

namespace Markup

/-! ## Nesting -/

/-- Puts text in front of a forest, joined with the text that stands there. -/
def prependText (s : String) : Forest Kind → Forest Kind
  | .cons (.text t) .nil r => .cons (.text (s ++ t)) .nil r
  | f => if s = "" then f else .cons (.text s) .nil f

/-- Puts a tree in front of the innermost level. -/
def prependTree (k : Kind) (c : Forest Kind) : List (Forest Kind) → List (Forest Kind)
  | f :: fs => .cons k c f :: fs
  | [] => []

/-- What the tokens add to each level of open elements: to the innermost first, then to the one
around it, and last to the document. `opened` are the names of the open elements. An end tag closes
the innermost element of its name with all inside it, and is text where there is none. -/
def levels (lead : String) (d : Dialect) (opened : List String) :
    List Token → List (Forest Kind)
  | [] => .nil :: opened.map fun _ => .nil
  | .text s :: ts => (levels lead d opened ts).modifyHead (prependText s)
  | .code e :: ts =>
    prependTree (.code (Fragment.expression (d.escape e))) .nil (levels lead d opened ts)
  | .leaf tag :: ts =>
    prependTree (.element (Element.ofMarkup lead d tag)) .nil (levels lead d opened ts)
  | .raw tag body :: ts =>
    prependTree (.element (Element.ofMarkup lead d tag)) (prependText body .nil)
      (levels lead d opened ts)
  | .opening tag :: ts =>
    match levels lead d (tag.name :: opened) ts with
    | inner :: fs => prependTree (.element (Element.ofMarkup lead d tag)) inner fs
    | [] => []
  | .closing name source :: ts =>
    if name ∈ opened then
      let closed := opened.idxOf name + 1
      List.replicate closed .nil ++ levels lead d (opened.drop closed) ts
    else (levels lead d opened ts).modifyHead (prependText source)

/-- The content of the document that a source describes. -/
def content (lead : String) (d : Dialect) (source : String) : Forest Kind :=
  (levels lead d [] (Token.scan source.toList)).headD .nil

/-- Reads template source. -/
def parse (lead : String) (d : Dialect) (source : String) : Tree :=
  Tree.ofContent (content lead d source)

end Markup

end HtmlTemplate
