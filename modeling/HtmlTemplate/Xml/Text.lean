import HtmlTemplate.Text.Cut

/-! # Text in XML

A reference stands for a character, by its name or its number. However a line ends in a file, it
ends with a line feed in what is read.

This module and the others on XML stand for the quick-xml library, which reads the configuration files.
They follow its documented behaviour, and what it does with faulty documents where its documentation
leaves that open.
-/

namespace HtmlTemplate.Xml

/-- The blanks of XML. -/
def isSpace (c : Char) : Bool :=
  c == ' ' || c == '\t' || c == '\n' || c == '\r'

/-- The list without blanks of XML at either end. -/
def trim (s : List Char) : List Char :=
  Chars.dropTail isSpace (s.dropWhile isSpace)

/-! ## Ends of lines -/

/-- A text in which lines end with line feeds. The other ends are a return, alone or before a line
feed or a next line character, and a next line character or a line separator alone. -/
def unifyLines : List Char → List Char
  | [] => []
  | '\r' :: '\n' :: s => '\n' :: unifyLines s
  | '\r' :: '\u0085' :: s => '\n' :: unifyLines s
  | c :: s =>
    (if c == '\r' || c == '\u0085' || c == '\u2028' then '\n' else c) :: unifyLines s

/-! ## References -/

/-- The value of a digit in a base of at most sixteen. -/
def digit? (base : Nat) (c : Char) : Option Nat :=
  let value :=
    if '0' ≤ c ∧ c ≤ '9' then some (c.toNat - '0'.toNat)
    else if 'a' ≤ c ∧ c ≤ 'f' then some (c.toNat - 'a'.toNat + 10)
    else if 'A' ≤ c ∧ c ≤ 'F' then some (c.toNat - 'A'.toNat + 10)
    else none
  value.filter (· < base)

/-- The number that digits write, the first digit first; there must be one. -/
def number? (base : Nat) (s : List Char) : Option Nat :=
  if s = [] then none
  else s.foldl (fun acc c => acc.bind fun n => (digit? base c).map fun d => n * base + d) (some 0)

/-- The character with a number, unless there is none. -/
def character? (n : Nat) : Option Char :=
  if n = 0 then none
  else if h : n.isValidChar then some (Char.ofNatAux n h)
  else none

/-- The character that a reference stands for, by what is written between `&` and `;`. -/
def reference? : List Char → Option Char
  | '#' :: 'x' :: s => (number? 16 s).bind character?
  | '#' :: s => (number? 10 s).bind character?
  | s =>
    if s = "lt".toList then some '<'
    else if s = "gt".toList then some '>'
    else if s = "amp".toList then some '&'
    else if s = "apos".toList then some '\''
    else if s = "quot".toList then some '"'
    else none

/-- A text with its references resolved. `pending` is the reference that is open, backwards. -/
def unescapeFrom (pending : Option (List Char)) : List Char → Option (List Char)
  | [] => if pending.isNone then some [] else none
  | c :: s =>
    match pending with
    | none => if c = '&' then unescapeFrom (some []) s else (unescapeFrom none s).map (c :: ·)
    | some name =>
      if c = '&' then none
      else if c = ';' then
        (reference? name.reverse).bind fun r => (unescapeFrom none s).map (r :: ·)
      else unescapeFrom (some (c :: name)) s

/-- A text with its references resolved, if all can be. -/
def unescape? (s : List Char) : Option (List Char) :=
  unescapeFrom none s

end HtmlTemplate.Xml
