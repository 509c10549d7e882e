import HtmlTemplate.Xml.Text

/-! # The tokens of an XML document

Comments, declarations and processing instructions are passed over. Nothing is read behind what
cannot be read. The tokens stand for the events that quick-xml is documented to give.
-/

namespace HtmlTemplate.Xml

open Chars

inductive Token where
  /-- A start tag by its inside, with a mark for one that is its own end. -/
  | opening (inside : List Char) (empty : Bool)
  | closing (name : List Char)
  /-- A piece of text, or a reference that stands for nothing. -/
  | text (content : Option (List Char))
  | doctype
  /-- Something that cannot be read. -/
  | broken
  deriving DecidableEq, Repr

namespace Token

/-- Cuts at the first `>` that is not between quotes; `quote` is the quote that is open. -/
def cutTag (quote : Option Char) : List Char → Option (List Char × List Char)
  | [] => none
  | c :: s =>
    match quote with
    | some q => (cutTag (if c = q then none else some q) s).map fun r => (c :: r.1, r.2)
    | none =>
      if c = '>' then some ([], s)
      else (cutTag (if c = '"' ∨ c = '\'' then some c else none) s).map fun r => (c :: r.1, r.2)

/-- Cuts at the `>` that closes what is open, `depth` angle brackets deep. -/
def cutNested (depth : Nat) : List Char → Option (List Char × List Char)
  | [] => none
  | c :: s =>
    if c = '>' then
      match depth with
      | 0 => some ([], s)
      | depth + 1 => (cutNested depth s).map fun r => (c :: r.1, r.2)
    else (cutNested (if c = '<' then depth + 1 else depth) s).map fun r => (c :: r.1, r.2)

/-- What a rule found at the front of a text: a token or nothing worth one, and the rest. -/
abbrev Found := Option Token × List Char

/-- A part that cannot be read ends the reading. -/
def stop : Found := (some broken, [])

/-- Passes over what reaches to `pat`. -/
def skipThrough (pat s : List Char) : Found :=
  match cut pat s with
  | some (_, rest) => (none, rest)
  | none => stop

/-- A comment, a character data section or a document type, by what follows `<!`. -/
def special (s : List Char) : Found :=
  if "--".toList.isPrefixOf s then skipThrough "-->".toList (s.drop 2)
  else if "[CDATA[".toList.isPrefixOf s then
    match cut "]]>".toList (s.drop 7) with
    | some (inside, rest) => (some (text (some (unifyLines inside))), rest)
    | none => stop
  else if beginsFolded "doctype".toList s then
    match cutNested 0 (s.drop 7) with
    | some (inside, rest) => if inside.all isSpace then stop else (some doctype, rest)
    | none => stop
  else stop

/-- A declaration or a processing instruction, by what follows `<?`. -/
def instruction (s : List Char) : Found :=
  match s with
  | '>' :: _ => stop
  | s => skipThrough "?>".toList s

/-- An end tag, by what follows `</`. Blanks behind its name do not belong to it, but blanks alone are
a name. -/
def endTag (s : List Char) : Found :=
  match cutTag none s with
  | some (inside, rest) =>
    (some (closing (if inside.all isSpace then inside else dropTail isSpace inside)), rest)
  | none => stop

/-- A start tag, by what follows `<`. -/
def startTag (s : List Char) : Found :=
  match cutTag none s with
  | some (inside, rest) =>
    if inside.getLast? = some '/' then (some (opening inside.dropLast true), rest)
    else (some (opening inside false), rest)
  | none => stop

/-- A reference, by what follows `&`. -/
def reference (s : List Char) : Found :=
  match breakAt (fun r => r.head?.any fun c => c == ';' || c == '<' || c == '&') s with
  | (name, ';' :: rest) => (some (text ((reference? name).map fun c => [c])), rest)
  | _ => stop

/-- What stands at the front of the text `c :: s`. -/
def next (c : Char) (s : List Char) : Found :=
  match c, s with
  | '<', '!' :: s => special s
  | '<', '?' :: s => instruction s
  | '<', '/' :: s => endTag s
  | '<', s => startTag s
  | '&', s => reference s
  | c, s =>
    let r := breakAt (fun r => r.head?.any fun c => c == '<' || c == '&') s
    (some (text (some (unifyLines (c :: r.1)))), r.2)

/-- The tokens of a document, at most `steps` parts of it. -/
def scanWithin : (steps : Nat) → List Char → List Token
  | 0, _ => []
  | _, [] => []
  | steps + 1, c :: s =>
    let r := next c s
    match r.1 with
    | some t => t :: scanWithin steps r.2
    | none => scanWithin steps r.2

/-- The tokens of a document; a byte order mark at its front does not count. -/
def scan : List Char → List Token
  | '\ufeff' :: s => scanWithin s.length s
  | s => scanWithin s.length s

end Token

end HtmlTemplate.Xml
