import HtmlTemplate.Tree.Edit

/-! # Trees in an arena

An arena keeps each node in a slot of its own and stores with it five links: to its parent, to the
siblings on either side and to its first and last child. An edit patches the links one by one, and some
edits are made of others. Nothing in an arena keeps the links from going astray; that the edits keep them
in agreement, and that an arena holds the same tree as a forest under the same edits, is proved of it.

A link that is read of a number without a slot leads nowhere, and a link that is written there is lost.
-/

namespace HtmlTemplate

/-- The nodes that a node is linked to. -/
structure Links where
  parent : Option NodeId
  previous : Option NodeId
  next : Option NodeId
  first : Option NodeId
  last : Option NodeId
  deriving DecidableEq, Repr

/-- The links of a node that stands for itself and has nothing below it. -/
def Links.bare : Links :=
  ⟨none, none, none, none, none⟩

/-- What an arena stores of a node. -/
structure Slot extends Links where
  kind : Kind
  deriving DecidableEq, Repr

structure Arena where
  /-- The node with number `n` is in slot `n`, the document in the first one. -/
  slots : Array Slot
  /-- The node last marked as the one to write out. -/
  marked : Option NodeId
  deriving DecidableEq, Repr

namespace Arena

/-- Puts a node into a slot of its own, linked to nothing. -/
def alloc (a : Arena) (kind : Kind) : Arena :=
  { a with slots := a.slots.push ⟨.bare, kind⟩ }

/-- The empty document. -/
def empty : Arena :=
  alloc ⟨#[], none⟩ .document

def size (a : Arena) : Nat :=
  a.slots.size

def kind? (a : Arena) (n : NodeId) : Option Kind :=
  a.slots[n]?.map Slot.kind

def links (a : Arena) (n : NodeId) : Links :=
  (a.slots[n]?.map Slot.toLinks).getD .bare

/-- Changes the links that are stored with a node. -/
def relink (a : Arena) (n : NodeId) (f : Links → Links) : Arena :=
  { a with slots := a.slots.modify n fun s => { s with toLinks := f s.toLinks } }

/-- The nodes from `start` on along `link`, at most `bound` of them. -/
def walk (link : NodeId → Option NodeId) : (bound : Nat) → (start : Option NodeId) → List NodeId
  | 0, _ => []
  | _, none => []
  | bound + 1, some n => n :: walk link bound (link n)

/-- The children of a node, along the links to the next sibling. -/
def children (a : Arena) (p : NodeId) : List NodeId :=
  walk (fun n => (a.links n).next) a.size (a.links p).first

/-- Whether `m` is `n` or above it, along the links to the parent. -/
def isAbove (a : Arena) (m n : NodeId) : Bool :=
  (walk (fun k => (a.links k).parent) a.size (some n)).contains m

/-! ## Edits -/

/-- Takes a node with all below it out of its place. Its neighbours are linked past it; where it has none,
the parent is. -/
def detach (a : Arena) (n : NodeId) : Arena :=
  let own := a.links n
  let a :=
    match own.previous, own.parent with
    | some previous, _ => a.relink previous ({ · with next := own.next })
    | none, some parent => a.relink parent ({ · with first := own.next })
    | none, none => a
  let a :=
    match own.next, own.parent with
    | some next, _ => a.relink next ({ · with previous := own.previous })
    | none, some parent => a.relink parent ({ · with last := own.previous })
    | none, none => a
  a.relink n ({ · with parent := none, previous := none, next := none })

/-- Makes `n` the last child of `parent`. -/
def append (a : Arena) (parent n : NodeId) : Arena :=
  let a := a.detach n
  let last := (a.links parent).last
  let a := a.relink n ({ · with parent := some parent, previous := last })
  let a :=
    match last with
    | some last => a.relink last ({ · with next := some n })
    | none => a.relink parent ({ · with first := some n })
  a.relink parent ({ · with last := some n })

/-- Makes a node beside the document; its number is `a.size`. A conditional comes with its two
branches. -/
def create (a : Arena) (kind : Kind) : Arena :=
  let n := a.size
  let made := a.alloc kind
  if kind.isConditional then
    (((made.alloc .branch).alloc .branch).append n (n + 1)).append n (n + 2)
  else made

/-- Puts `n` right before `anchor`, if that has a parent. -/
def insertBefore (a : Arena) (anchor n : NodeId) : Arena :=
  if anchor = n then a
  else
    match (a.links anchor).parent with
    | none => a
    | some parent =>
      let a := a.detach n
      let previous := (a.links anchor).previous
      let a := a.relink n ({ · with parent := some parent, previous := previous, next := some anchor })
      let a := a.relink anchor ({ · with previous := some n })
      match previous with
      | some previous => a.relink previous ({ · with next := some n })
      | none => a.relink parent ({ · with first := some n })

/-- Makes `n` the first child of `parent`. -/
def prepend (a : Arena) (parent n : NodeId) : Arena :=
  match (a.links parent).first with
  | some first => a.insertBefore first n
  | none => a.append parent n

/-- Puts `n` right after `anchor`, if that has a parent. -/
def insertAfter (a : Arena) (anchor n : NodeId) : Arena :=
  if anchor = n then a
  else
    match (a.links anchor).parent with
    | none => a
    | some parent =>
      match (a.links anchor).next with
      | some next => if next = n then a else a.insertBefore next n
      | none => a.append parent n

/-- Puts `new` where `old` is and takes `old` out. -/
def replace (a : Arena) (old new : NodeId) : Arena :=
  if old = new ∨ (a.links old).parent = none then a
  else (a.insertBefore old new).detach old

/-- Takes the first child of `p` out, again and again until there is none, but not more than `rounds`
times. -/
def clearWithin (p : NodeId) : (rounds : Nat) → Arena → Arena
  | 0, a => a
  | rounds + 1, a =>
    match (a.links p).first with
    | some child => clearWithin p rounds (a.detach child)
    | none => a

/-- Takes every child of a node out. There are no more of them than slots. -/
def clear (a : Arena) (p : NodeId) : Arena :=
  a.clearWithin p a.size

/-- Marks the node to write out. -/
def mark (a : Arena) (n : NodeId) : Arena :=
  { a with marked := some n }

/-- Changes an element where it stands. -/
def mapElement (a : Arena) (n : NodeId) (f : Element → Element) : Arena :=
  { a with slots := a.slots.modify n fun s => { s with kind := s.kind.mapElement f } }

end Arena

/-- An edit, made in an arena. -/
def Edit.patch (a : Arena) : Edit → Arena
  | create kind => a.create kind
  | append parent n => a.append parent n
  | prepend parent n => a.prepend parent n
  | insertBefore anchor n => a.insertBefore anchor n
  | insertAfter anchor n => a.insertAfter anchor n
  | replace old new => a.replace old new
  | detach n => a.detach n
  | clear n => a.clear n
  | mark n => a.mark n

/-- The arena after a list of edits. -/
def Arena.edit (a : Arena) (edits : List Edit) : Arena :=
  edits.foldl Edit.patch a

/-! ## What edits ask for -/

/-- Whether `n` would get below itself beside `anchor`. -/
def Arena.loopsBeside (a : Arena) (anchor n : NodeId) : Bool :=
  anchor != n && (a.links anchor).parent.any (a.isAbove n)

namespace Edit

/-- The nodes that an edit names. -/
def nodes : Edit → List NodeId
  | append p n | prepend p n => [p, n]
  | insertBefore anchor n | insertAfter anchor n => [anchor, n]
  | replace old new => [old, new]
  | detach n | clear n | mark n => [n]
  | create _ => []

/-- Whether an edit would put a node below itself. Putting a node beside itself changes nothing and is not
such an edit. -/
def loops (a : Arena) : Edit → Bool
  | append parent n => a.isAbove n parent
  | prepend parent n =>
    match (a.links parent).first with
    | some first => a.loopsBeside first n
    | none => a.isAbove n parent
  | insertBefore anchor n => a.loopsBeside anchor n
  | insertAfter anchor n =>
    anchor != n && (a.links anchor).parent.any fun parent =>
      match (a.links anchor).next with
      | some next => a.loopsBeside next n
      | none => a.isAbove n parent
  | replace old new => a.loopsBeside old new
  | create _ | detach _ | clear _ | mark _ => false

/-- Whether an edit names nodes of the arena only, and would put none below itself. -/
def fits (a : Arena) (e : Edit) : Bool :=
  e.nodes.all (· < a.size) && !e.loops a

end Edit

/-- Whether each of the edits fits when it comes to it. -/
def Arena.admits (a : Arena) : List Edit → Bool
  | [] => true
  | e :: edits => e.fits a && (e.patch a).admits edits

end HtmlTemplate
