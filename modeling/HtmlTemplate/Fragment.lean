import HtmlTemplate.Text.Blank

/-! # Host code fragments

A fragment is a piece of host code that the library never looks into: an expression, whose value
is written out, or a statement, which is run. Flags are single characters kept as an ordered list
without repeats.
-/

namespace HtmlTemplate

inductive FragmentKind where
  | expression
  | statement
  deriving DecidableEq, Repr

structure Fragment where
  kind : FragmentKind
  code : String
  flags : List Char
  deriving DecidableEq, Repr

namespace Fragment

/-- The flag of statements that run ahead of all output. -/
def eagerFlag : Char := 'e'

/-- Expression code loses outer blanks, then the semicolons at its end, then the blanks before
those. -/
def normalise (code : List Char) : List Char :=
  Chars.dropTail isBlank (Chars.dropTail (· == ';') (Chars.trim code))

def expression (code : String) : Fragment :=
  ⟨.expression, String.ofList (normalise code.toList), []⟩

/-- Statement code is kept as it is. -/
def statement (code : String) : Fragment :=
  ⟨.statement, code, []⟩

def isStatement (f : Fragment) : Bool :=
  f.kind = .statement

/-- Puts a flag in its place, unless it is there already. -/
def insertFlag (c : Char) : List Char → List Char
  | [] => [c]
  | d :: ds => if c < d then c :: d :: ds else if c = d then d :: ds else d :: insertFlag c ds

def withFlags (f : Fragment) (flags : List Char) : Fragment :=
  { f with flags := flags.foldl (fun acc c => insertFlag c acc) f.flags }

def hasFlag (f : Fragment) (flag : Char) : Bool :=
  f.flags.contains flag

/-- A statement that runs ahead of all output. -/
def eager (code : String) : Fragment :=
  (statement code).withFlags [eagerFlag]

def isEager (f : Fragment) : Bool :=
  f.hasFlag eagerFlag

end Fragment

end HtmlTemplate
