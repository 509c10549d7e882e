import HtmlTemplate.Directive.Standard
import HtmlTemplate.Disk
import HtmlTemplate.Xml.Document

/-! # View options

Options are given in code or read from an XML file:

    <view macroPrefix="j:" compileTemplates="true" compiledDir="compiled">
        <templates path="views" priority="10"/>
    </view>
-/

namespace HtmlTemplate

inductive ConfigError where
  /-- The file is not XML, or not of the right form. -/
  | malformed
  | emptyLead
  | badBoolean (text : String)
  deriving DecidableEq, Repr

def ConfigError.message : ConfigError → String
  | malformed => "malformed XML"
  | emptyLead => "macroPrefix must not be empty"
  | badBoolean text => "invalid boolean: " ++ text

structure Options where
  /-- What the names of directive attributes begin with. -/
  lead : String := Registry.standardLead
  /-- Whether looking a template up compiles its source. -/
  autoCompile : Bool := true
  /-- Where compiled files go, from the template directory. -/
  compiledDir : String := "compiled"
  /-- The template directories with their priorities. -/
  dirs : List (Path × Int) := []
  deriving DecidableEq, Repr

namespace Options

open Chars

/-! ## Reading values -/

/-- A whole number of 32 bits in decimal, with or without a sign and blanks around it. -/
def readNumber (s : List Char) : Option Int :=
  let n : Option Int := match Xml.trim s with
    | '-' :: ds => (Xml.number? 10 ds).map fun n => -(n : Int)
    | '+' :: ds => (Xml.number? 10 ds).map fun n => (n : Int)
    | ds => (Xml.number? 10 ds).map fun n => (n : Int)
  n.filter fun n => -2147483648 ≤ n && n ≤ 2147483647

/-- A truth value by one of its three names. -/
def readBoolean (text : String) : Except ConfigError Bool :=
  let word := String.ofList (lower (trim text.toList))
  if word = "true" || word = "1" || word = "yes" then .ok true
  else if word = "false" || word = "0" || word = "no" then .ok false
  else .error (.badBoolean word)

/-! ## The content of an element -/

/-- What is read of the content of an element, part by part. -/
inductive Item where
  | text (blank : Bool)
  /-- What an element gives a setting: its text, if it stands for something. -/
  | setting (name : String) (value : Option (List Char))
  /-- A template directory, and the name of its element. -/
  | dir (name : List Char) (dir : String × Int)
  /-- An element that is passed over. -/
  | passed
  deriving DecidableEq, Repr

/-- What is read of an element, by the scope before it, and the scope behind it. -/
abbrev ElementReader := Xml.Scope → Xml.Tag → Forest Xml.Node → Option (Item × Xml.Scope)

/-- Reads the content of an element, and gives the scope behind it. -/
def readItems (read : ElementReader) : Xml.Scope → Forest Xml.Node → Option (List Item × Xml.Scope)
  | scope, .nil => some ([], scope)
  | scope, .cons .doctype _ r => readItems read scope r
  | scope, .cons (.text content) _ r =>
    content.bind fun t =>
      (readItems read scope r).map fun more => (.text (t.all Xml.isSpace) :: more.1, more.2)
  | scope, .cons (.element tag) c r =>
    if tag.isLegal then
      (read scope tag c).bind fun first =>
        (readItems read first.2 r).map fun more => (first.1 :: more.1, more.2)
    else none

/-- Passes over an element. -/
def pass (item : Item) : ElementReader := fun scope tag content =>
  if Xml.isPassable content then
    some (item, Xml.Scope.pass (tag.bindings :: scope) content)
  else none

/-! ## Settings

A setting of an element is given by an attribute, or by an element inside it whose name is that of
the setting behind an at sign.
-/

structure Setting where
  name : String
  /-- Whether it may be left out, or be said to stand for nothing. -/
  optional : Bool := true

/-- Reads what an element inside `owner` gives a setting. -/
def Setting.read (s : Setting) (owner : Xml.Tag) : ElementReader := fun scope tag content =>
  let ahead := Xml.firstBindings content :: tag.bindings :: scope
  if s.optional && (owner.isNil ahead || tag.isNil ahead) then
    pass (.setting s.name none) scope tag content
  else (Xml.textOnly? content).map fun t => (.setting s.name (some t), scope)

/-- Reads an element inside `owner`, which gives one of its settings or is passed over. -/
def readSetting (settings : List Setting) (owner : Xml.Tag) : ElementReader := fun scope tag content =>
  match settings.find? fun s => Xml.localName tag.name = '@' :: s.name.toList with
  | some s => s.read owner scope tag content
  | none => pass .passed scope tag content

/-- What a setting is given: the value of an attribute as written, or the text of an element, if it
stands for something. -/
inductive Given where
  | written (raw : List Char)
  | content (text : Option (List Char))
  deriving DecidableEq, Repr

/-- What gives an element its settings. -/
structure Settings where
  attributes : List Xml.Attribute
  items : List Item

/-- What an item gives a setting. -/
def Item.given? (name : String) : Item → Option Given
  | setting n value => if n = name then some (.content value) else none
  | _ => none

/-- All that a setting is given. -/
def Settings.given (s : Settings) (name : String) : List Given :=
  (s.attributes.filter (·.key = name.toList)).map (fun a => Given.written a.value) ++
    s.items.filterMap (Item.given? name)

/-- The text of a setting, if it is given one; it cannot be given two. -/
def Settings.text (s : Settings) (name : String) : Option (Option String) :=
  match s.given name with
  | [] => some none
  | [.written raw] => (Xml.unescape? raw).map fun t => some (String.ofList t)
  | [.content t] => some (t.map String.ofList)
  | _ => none

/-- The number of a setting, if it is given one; references are not resolved in attributes. -/
def Settings.number (s : Settings) (name : String) : Option (Option Int) :=
  match s.given name with
  | [] => some none
  | [.content none] => some none
  | [.written raw] => (readNumber raw).map some
  | [.content (some t)] => (readNumber t).map some
  | _ => none

/-! ## Reading the file -/

/-- Reads the element of a template directory. -/
def readDir : ElementReader := fun scope tag content =>
  let settings : List Setting := [{ name := "path", optional := false }, { name := "priority" }]
  match tag.attributes?, readItems (readSetting settings tag) (tag.bindings :: scope) content with
  | some attributes, some (items, inner) =>
    let s : Settings := ⟨attributes, items⟩
    match s.text "path", s.number "priority" with
    | some (some path), some priority => some (.dir tag.name (path, priority.getD 0), inner.tail)
    | _, _ => none
  | _, _ => none

/-- How far the list of template directories has been read: not begun, under way with the name of
its elements, or closed. -/
inductive DirList where
  | ahead
  | running (name : List Char)
  | closed

namespace DirList

/-- Whether an element can be the next of the list. -/
def accepts (name : List Char) : DirList → Bool
  | ahead => true
  | running first => name = first
  | closed => false

/-- The list after something that is not part of it. -/
def pause : DirList → DirList
  | ahead => ahead
  | _ => closed

end DirList

/-- The template directories among what is read of a view element. They must stand together, with at
most blanks between them. -/
def dirsOf : DirList → List Item → Option (List (String × Int))
  | _, [] => some []
  | state, .text blank :: r => dirsOf (if blank then state else state.pause) r
  | state, .dir name d :: r =>
    if state.accepts name then (dirsOf (.running name) r).map (d :: ·) else none
  | state, _ :: r => dirsOf state.pause r

/-- What a configuration file says, before it is checked. -/
structure Source where
  lead : Option String
  autoCompile : Option String
  compiledDir : Option String
  dirs : List (String × Int)

/-- Reads an element inside the view element `owner`. -/
def readViewItem (owner : Xml.Tag) : ElementReader := fun scope tag content =>
  if Xml.localName tag.name = "templates".toList then readDir scope tag content
  else
    let settings : List Setting :=
      [{ name := "macroPrefix" }, { name := "compileTemplates" }, { name := "compiledDir" }]
    readSetting settings owner scope tag content

/-- Reads a view element. -/
def Source.ofElement? (owner : Xml.Tag) (content : Forest Xml.Node) : Option Source :=
  match owner.attributes?, readItems (readViewItem owner) [owner.bindings] content with
  | some attributes, some (items, _) =>
    let s : Settings := ⟨attributes, items⟩
    match s.text "macroPrefix", s.text "compileTemplates", s.text "compiledDir", dirsOf .ahead items with
    | some lead, some autoCompile, some compiledDir, some dirs =>
      some ⟨lead, autoCompile, compiledDir, dirs⟩
    | _, _, _, _ => none
  | _, _ => none

/-- Reads the text of a configuration file. -/
def Source.ofXml? (xml : String) : Option Source :=
  match Xml.root? (Xml.Token.scan xml.toList) with
  | some (tag, content) => if tag.isLegal then Source.ofElement? tag content else none
  | none => none

/-- The options of a configuration file; relative template directories start from `base`. -/
def ofXml (xml : String) (base : Path) : Except ConfigError Options :=
  match Source.ofXml? xml with
  | none => .error .malformed
  | some source =>
    if source.lead = some "" then .error .emptyLead
    else
      let default : Options := {}
      let options : Options :=
        { lead := source.lead.getD default.lead
          compiledDir := source.compiledDir.getD default.compiledDir
          dirs := source.dirs.map fun d => (base.join d.1, d.2) }
      match source.autoCompile with
      | none => .ok options
      | some text =>
        match readBoolean text with
        | .ok flag => .ok { options with autoCompile := flag }
        | .error e => .error e

end Options

end HtmlTemplate
