import HtmlTemplate.Path

/-! # Files and directories

A disk is a value: what is at each place, and the working directory from which relative paths start.
A place is the list of names that lead to it from the top.

* **Paths are followed name by name.** Every name but the last must lead to a directory, also one that
  a later `..` leaves again, and a slash at the end asks for a directory.
* **Content is text or not.** Content that is no text is kept as bytes and cannot be read as text.
* **Nothing stands in two places.** There are no links, symbolic or hard, and names are told apart character
  by character.
* **Only what is there can be in the way.** Permissions, limits on the length of names and paths, the size of
  files and the room on a device are left out: a request fails because of what stands, or does not stand, at
  the places that its path leads through.
-/

namespace HtmlTemplate

inductive Content where
  | text (text : String)
  | binary (bytes : List UInt8)
  deriving DecidableEq, Repr

/-- Content by its bytes. -/
def Content.ofBytes (bytes : List UInt8) : Content :=
  match String.fromUTF8? (ByteArray.mk bytes.toArray) with
  | some s => .text s
  | none => .binary bytes

inductive DiskEntry where
  | directory
  | file (content : Content)
  deriving DecidableEq, Repr

inductive DiskError where
  | notFound
  | alreadyExists
  | notDirectory
  | isDirectory
  | notText
  deriving DecidableEq, Repr

def DiskError.message : DiskError → String
  | notFound => "No such file or directory (os error 2)"
  | alreadyExists => "File exists (os error 17)"
  | notDirectory => "Not a directory (os error 20)"
  | isDirectory => "Is a directory (os error 21)"
  | notText => "stream did not contain valid UTF-8"

abbrev Place := List String

structure Disk where
  /-- What is at each place but the top, which is a directory. -/
  entries : List (Place × DiskEntry)
  /-- Where relative paths start. -/
  home : Place
  deriving DecidableEq, Repr

namespace Disk

def entry? (d : Disk) (place : Place) : Option DiskEntry :=
  if place = [] then some .directory else d.entries.lookup place

/-- Puts an entry at a place, instead of the one that is there. -/
def put (d : Disk) (place : Place) (entry : DiskEntry) : Disk :=
  { d with entries := (place, entry) :: d.entries.filter (·.1 ≠ place) }

/-- Takes away what is at a place and below it. -/
def remove (d : Disk) (place : Place) : Disk :=
  { d with entries := d.entries.filter fun e => !place.isPrefixOf e.1 }

/-! ## Following a path -/

/-- Follows segments from a place. -/
def walk (d : Disk) (origin : Place) : List String → Except DiskError Place
  | [] => if (d.entry? origin).isSome then .ok origin else .error .notFound
  | segment :: rest =>
    match d.entry? origin with
    | none => .error .notFound
    | some (.file _) => .error .notDirectory
    | some .directory =>
      if Path.isIdle segment then d.walk origin rest
      else if segment = ".." then d.walk origin.dropLast rest
      else d.walk (origin ++ [segment]) rest

/-- Where a path starts. -/
def start (d : Disk) (p : Path) : Place :=
  if p.isAbsolute then [] else d.home

/-- The place that a path leads to. -/
def resolve (d : Disk) (p : Path) : Except DiskError Place :=
  if p.spelling = "" then .error .notFound else d.walk (d.start p) p.segments

/-- What a path leads to. -/
def get (d : Disk) (p : Path) : Except DiskError DiskEntry :=
  match d.resolve p with
  | .error e => .error e
  | .ok place =>
    match d.entry? place with
    | some entry => .ok entry
    | none => .error .notFound

def isFile (d : Disk) (p : Path) : Bool :=
  match d.get p with
  | .ok (.file _) => true
  | _ => false

def isDirectory (d : Disk) (p : Path) : Bool :=
  match d.get p with
  | .ok .directory => true
  | _ => false

/-- The text of a file. -/
def read (d : Disk) (p : Path) : Except DiskError String :=
  match d.get p with
  | .ok (.file (.text s)) => .ok s
  | .ok (.file (.binary _)) => .error .notText
  | .ok .directory => .error .isDirectory
  | .error e => .error e

/-! ## Making files and directories -/

/-- The directory of the last name of a path, and that name. There is none if the path ends
otherwise than in a name. -/
def lastName (d : Disk) (p : Path) : Except DiskError (Option (Place × String)) :=
  let segments := (p.segments.reverse.dropWhile (· == "")).reverse
  match segments.getLast? with
  | none => .ok none
  | some name =>
    if name = "." || name = ".." then
      match d.resolve p with
      | .ok _ => .ok none
      | .error e => .error e
    else
      match d.walk (d.start p) segments.dropLast with
      | .error e => .error e
      | .ok place =>
        match d.entry? place with
        | some .directory => .ok (some (place, name))
        | some (.file _) => .error .notDirectory
        | none => .error .notFound

/-- Makes a directory in a directory that is there. -/
def makeDirectory (d : Disk) (p : Path) : Except DiskError Disk :=
  if p.spelling = "" then .error .notFound
  else match d.lastName p with
    | .error e => .error e
    | .ok none => .error .alreadyExists
    | .ok (some (place, name)) =>
      match d.entry? (place ++ [name]) with
      | some _ => .error .alreadyExists
      | none => .ok (d.put (place ++ [name]) .directory)

/-- Makes a directory, or finds it there. -/
def ensureDirectory (d : Disk) (p : Path) : Option DiskError × Disk :=
  match d.makeDirectory p with
  | .ok made => (none, made)
  | .error e => (if d.isDirectory p then none else some e, d)

/-- Makes the first directory of a list; where it lacks the one around it, makes the following ones
first. -/
def ensureFrom (d : Disk) : List Path → Option DiskError × Disk
  | [] => (none, d)
  | p :: above =>
    if p.spelling = "" then (none, d)
    else match d.makeDirectory p with
      | .error .notFound =>
        match d.ensureFrom above with
        | (none, d) => d.ensureDirectory p
        | failed => failed
      | _ => d.ensureDirectory p

/-- Makes a directory and those above it that are missing. Directories that were made stay also if the
last one cannot be. -/
def ensureDirectories (d : Disk) (p : Path) : Option DiskError × Disk :=
  d.ensureFrom p.withAncestors

/-- Writes a file, new or instead of the one that is there. A path with a slash at its end names no
file. -/
def write (d : Disk) (p : Path) (text : String) : Except DiskError Disk :=
  if p.spelling = "" then .error .notFound
  else match d.lastName p with
    | .error e => .error e
    | .ok none => .error .isDirectory
    | .ok (some (place, name)) =>
      if p.segments.getLast? = some "" then .error .isDirectory
      else match d.entry? (place ++ [name]) with
        | some .directory => .error .isDirectory
        | _ => .ok (d.put (place ++ [name]) (.file (.text text)))

/-! ## Listing -/

/-- Whether a text comes before another in a list of names: the first character that differs
decides. -/
def nameBefore : List Char → List Char → Bool
  | _, [] => false
  | [], _ :: _ => true
  | a :: as, b :: bs => if a = b then nameBefore as bs else decide (a.toNat < b.toNat)

/-- Whether a place comes before another: a directory before what is in it, names in order. -/
def placeBefore : Place → Place → Bool
  | _, [] => false
  | [], _ :: _ => true
  | a :: as, b :: bs => if a = b then placeBefore as bs else nameBefore a.toList b.toList

/-- Puts an entry in its place in a listing. -/
def insertEntry (e : Place × DiskEntry) : List (Place × DiskEntry) → List (Place × DiskEntry)
  | [] => [e]
  | f :: fs => if placeBefore f.1 e.1 then f :: insertEntry e fs else e :: f :: fs

/-- All below a place by the names that lead to it from there, in the order of those names, a
directory before what is in it. -/
def below (d : Disk) (place : Place) : List (Place × DiskEntry) :=
  let found := d.entries.filterMap fun e =>
    if place.isPrefixOf e.1 && e.1.length > place.length then
      some (e.1.drop place.length, e.2)
    else none
  found.foldr insertEntry []

end Disk

end HtmlTemplate
