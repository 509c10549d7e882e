import HtmlTemplate.Xml.Text

/-! # Attributes and name spaces

The attributes of a tag are read when they are asked for. Some of them declare name spaces: they give
a name space a label, which names carry up to their colon. Both follow the documented behaviour of
quick-xml.
-/

namespace HtmlTemplate.Xml

open Chars

/-- A start tag: its name and all that follows it. -/
structure Tag where
  name : List Char
  inside : List Char
  deriving DecidableEq, Repr

/-- The tag written between angle brackets. -/
def Tag.ofChars (s : List Char) : Tag :=
  ⟨s.takeWhile (!isSpace ·), s.dropWhile (!isSpace ·)⟩

/-- An attribute with its value as written. -/
structure Attribute where
  name : List Char
  value : List Char
  deriving DecidableEq, Repr

/-! ## Reading a tag -/

/-- The value of an attribute up to its quote, by what follows `=`. -/
def quoted? (s : List Char) : Option (List Char × List Char) :=
  match s.dropWhile isSpace with
  | '"' :: v => cut ['"'] v
  | '\'' :: v => cut ['\''] v
  | _ => none

/-- What an attribute is read from: a name with what follows its `=`, or a name without `=` and what
follows that. -/
inductive Part where
  | assigned (name rest : List Char)
  | bare (rest : List Char)
  deriving DecidableEq, Repr

/-- The part whose name begins with `c`. -/
def Part.read (c : Char) (s : List Char) : Part :=
  let isEnd := fun c => c == '=' || isSpace c
  match (s.dropWhile (!isEnd ·)).dropWhile isSpace with
  | '=' :: rest => .assigned (c :: s.takeWhile (!isEnd ·)) rest
  | rest => .bare rest

/-- The attributes of a tag up to the first without a quoted value, at most `steps` of them, and
whether they are all. -/
def attributesWithin : (steps : Nat) → List Char → List Attribute × Bool
  | 0, s => ([], s.all isSpace)
  | steps + 1, s =>
    match s.dropWhile isSpace with
    | [] => ([], true)
    | c :: r =>
      match Part.read c r with
      | .bare _ => ([], false)
      | .assigned name v =>
        match quoted? v with
        | none => ([], false)
        | some (value, rest) =>
          let more := attributesWithin steps rest
          (⟨name, value⟩ :: more.1, more.2)

/-- The attributes of a tag up to the first without a quoted value. -/
def Tag.leadingAttributes (t : Tag) : List Attribute :=
  (attributesWithin t.inside.length t.inside).1

/-- The attributes of a tag. Each needs a quoted value, and no name may stand twice. -/
def Tag.attributes? (t : Tag) : Option (List Attribute) :=
  let r := attributesWithin t.inside.length t.inside
  if r.2 && (r.1.map Attribute.name).Nodup then some r.1 else none

/-! ## Reading a tag with faults -/

/-- The text behind its first word, which ends at a blank. -/
def behindWord (s : List Char) : List Char :=
  s.dropWhile (!isSpace ·)

/-- What follows a value that is not between quotes, by what follows `=`. Nothing follows a quote that
is not closed. -/
def behindUnquoted (s : List Char) : List Char :=
  match s.dropWhile isSpace with
  | '"' :: _ => []
  | '\'' :: _ => []
  | v => behindWord v

/-- The attributes of a tag that are without fault, in at most `steps` parts, where the names `seen`
have stood before. A name that stands again is passed over up to the next blank. -/
def soundWithin : (steps : Nat) → (seen : List (List Char)) → List Char → List Attribute
  | 0, _, _ => []
  | steps + 1, seen, s =>
    match s.dropWhile isSpace with
    | [] => []
    | c :: r =>
      match Part.read c r with
      | .bare rest => soundWithin steps seen rest
      | .assigned name v =>
        if name ∈ seen then soundWithin steps seen (behindWord v)
        else match quoted? v with
          | none => soundWithin steps (name :: seen) (behindUnquoted v)
          | some (value, rest) => ⟨name, value⟩ :: soundWithin steps (name :: seen) rest

/-- The attributes of a tag that are without fault. -/
def Tag.soundAttributes (t : Tag) : List Attribute :=
  soundWithin t.inside.length [] t.inside

/-! ## Name spaces -/

/-- The name of a name space that belongs to XML itself. -/
def standardSpace (path : String) : List Char :=
  ("http:" ++ "//www.w3.org/" ++ path).toList

/-- The name space that a declaration gives a label to, or the one of names without a label. -/
structure Binding where
  label : Option (List Char)
  space : List Char
  deriving DecidableEq, Repr

def Attribute.binding? (a : Attribute) : Option Binding :=
  if a.name = "xmlns".toList then some ⟨none, a.value⟩
  else if "xmlns:".toList.isPrefixOf a.name then some ⟨some (a.name.drop 6), a.value⟩
  else none

/-- The labels `xml` and `xmlns` and their name spaces belong together, and only the first of them
may be declared. -/
def Binding.isLegal (b : Binding) : Bool :=
  match b.label with
  | none => true
  | some label =>
    if label = "xml".toList then b.space = standardSpace "XML/1998/namespace"
    else label ≠ "xmlns".toList && b.space ≠ standardSpace "XML/1998/namespace" &&
      b.space ≠ standardSpace "2000/xmlns/"

/-- The declarations of a tag, the last one first. -/
def Tag.bindings (t : Tag) : List Binding :=
  (t.leadingAttributes.filterMap Attribute.binding?).reverse

/-- Whether a tag declares nothing that it may not. -/
def Tag.isLegal (t : Tag) : Bool :=
  t.bindings.all Binding.isLegal

/-- The declarations in force, by the tags that made them, the innermost first. -/
abbrev Scope := List (List Binding)

/-- The name space that a label refers to. An empty label refers to none. -/
def Scope.space? (scope : Scope) (label : List Char) : Option (List Char) :=
  if label = [] then none
  else (scope.flatten.find? fun b => b.label = some label).map Binding.space

/-- A name without what stands before its colon. -/
def localName (name : List Char) : List Char :=
  match cut [':'] name with
  | some (_, rest) => rest
  | none => name

/-- The name by which an attribute is known: its local name, but names that belong to XML itself stay
whole. -/
def Attribute.key (a : Attribute) : List Char :=
  if a.binding?.isSome || "xml:".toList.isPrefixOf a.name then a.name else localName a.name

/-- Whether an attribute says that its element stands for nothing. -/
def Attribute.saysNil (scope : Scope) (a : Attribute) : Bool :=
  match cut [':'] a.name with
  | some (label, name) =>
    name = "nil".toList && scope.space? label = some (standardSpace "2001/XMLSchema-instance") &&
      (a.value = "true".toList || a.value = "1".toList)
  | none => false

/-- Whether a tag says that its element stands for nothing. Faults do not matter. -/
def Tag.isNil (scope : Scope) (t : Tag) : Bool :=
  t.soundAttributes.any (Attribute.saysNil scope)

end HtmlTemplate.Xml
