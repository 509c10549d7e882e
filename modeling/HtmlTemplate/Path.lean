import HtmlTemplate.Text.Blank

/-! # Paths

A path keeps the spelling it was given. Two paths are the same place by spelling if their
components agree: doubled and trailing slashes and dots between slashes do not count, a dot at the
front and double dots do.
-/

namespace HtmlTemplate

structure Path where
  spelling : String
  deriving DecidableEq, Repr

/-- Cuts a list of characters at every slash. -/
def splitSlashes : List Char → List (List Char)
  | [] => [[]]
  | c :: s =>
    if c = '/' then [] :: splitSlashes s
    else match splitSlashes s with
      | p :: ps => (c :: p) :: ps
      | [] => [[c]]

/-- Joins names with slashes. -/
def joinSlashes (names : List String) : String :=
  "/".intercalate names

namespace Path

/-- What stands between the slashes, empty texts included. -/
def segments (p : Path) : List String :=
  (splitSlashes p.spelling.toList).map String.ofList

def isAbsolute (p : Path) : Bool :=
  p.spelling.toList.head? = some '/'

/-- Whether a segment adds nothing to the segments before it. -/
def isIdle (segment : String) : Bool :=
  segment == "" || segment == "."

/-- The components of a path; those of an absolute path begin with a slash. -/
def components (p : Path) : List String :=
  match p.segments with
  | [] => []
  | first :: rest =>
    let names := rest.filter (!isIdle ·)
    if p.isAbsolute then "/" :: names
    else if first = "" then names
    else first :: names

/-- Whether two paths have the same components. -/
def same (p q : Path) : Bool :=
  p.components = q.components

/-- A path below another; an absolute path stands for itself. -/
def join (p : Path) (name : String) : Path :=
  if (Path.mk name).isAbsolute || p.spelling = "" then ⟨name⟩
  else if p.spelling.toList.getLast? = some '/' then ⟨p.spelling ++ name⟩
  else ⟨p.spelling ++ "/" ++ name⟩

/-- The list without idle segments at its end. -/
def dropIdle (segments : List String) : List String :=
  (segments.reverse.dropWhile isIdle).reverse

/-- The path without its last component; a root and the empty path have none. -/
def parent? (p : Path) : Option Path :=
  match p.segments with
  | [] => none
  | first :: rest =>
    match dropIdle rest with
    | [] => if first = "" then none else some ⟨""⟩
    | named =>
      let up := dropIdle named.dropLast
      if first = "" then some ⟨"/" ++ joinSlashes up⟩
      else some ⟨joinSlashes (first :: up)⟩

/-- A path and those above it, `levels` of them at most. -/
def climb : (levels : Nat) → Path → List Path
  | 0, p => [p]
  | levels + 1, p =>
    match p.parent? with
    | some q => p :: climb levels q
    | none => [p]

/-- A path and all above it, the nearest first. -/
def withAncestors (p : Path) : List Path :=
  p.climb p.spelling.length

/-- The last component, if it is a name. -/
def fileName? (p : Path) : Option String :=
  match p.components.getLast? with
  | some name => if name = "/" || name = "." || name = ".." then none else some name
  | none => none

/-- What follows the last dot of the file name; a dot at its front does not count. -/
def extension? (p : Path) : Option String :=
  p.fileName?.bind fun name =>
    let reversed := name.toList.reverse
    match reversed.dropWhile (· != '.') with
    | _ :: _ :: _ => some (String.ofList (reversed.takeWhile (· != '.')).reverse)
    | _ => none

end Path

end HtmlTemplate
