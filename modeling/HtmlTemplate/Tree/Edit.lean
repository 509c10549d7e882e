import HtmlTemplate.Tree.Basic

/-! # Edits of a tree

Nodes are made beside the document and moved with all below them. An edit that would put a node
below itself is refused: the tree stays as it is. So does one that names a node the tree does not
have, or places something beside a node that has no parent.
-/

namespace HtmlTemplate

namespace Forest

/-- The forest without the tree of node `n`. -/
def remove (n : NodeId) : Forest Node → Forest Node
  | nil => nil
  | cons a c r => if a.id = n then r else cons a (remove n c) (remove n r)

/-- Changes the forest below node `n`. -/
def mapChildren (n : NodeId) (g : Forest Node → Forest Node) : Forest Node → Forest Node
  | nil => nil
  | cons a c r =>
    if a.id = n then cons a (g c) r else cons a (mapChildren n g c) (mapChildren n g r)

/-- Changes what node `n` is. -/
def mapKind (n : NodeId) (g : Kind → Kind) : Forest Node → Forest Node
  | nil => nil
  | cons a c r =>
    if a.id = n then cons ⟨a.id, g a.kind⟩ c r else cons a (mapKind n g c) (mapKind n g r)

/-- Puts `s` right before node `n`. -/
def insertBefore (n : NodeId) (s : Forest Node) : Forest Node → Forest Node
  | nil => nil
  | cons a c r =>
    if a.id = n then s ++ cons a c r else cons a (insertBefore n s c) (insertBefore n s r)

/-- Puts `s` right after node `n` and all below it. -/
def insertAfter (n : NodeId) (s : Forest Node) : Forest Node → Forest Node
  | nil => nil
  | cons a c r =>
    if a.id = n then cons a c (s ++ r) else cons a (insertAfter n s c) (insertAfter n s r)

end Forest

namespace Tree

/-- The forest of one tree, that of node `n`. -/
def subtree? (t : Tree) (n : NodeId) : Option (Forest Node) :=
  (t.find? n).map fun x => Forest.tree ⟨n, x.1⟩ x.2

/-- Makes a node beside the document; its number is `t.next`. A conditional comes with its two
branches. -/
def create (t : Tree) (kind : Kind) : Tree :=
  let n := t.next
  if kind.isConditional then
    let branches : Forest Node := .cons ⟨n + 1, .branch⟩ .nil (.cons ⟨n + 2, .branch⟩ .nil .nil)
    { t with forest := t.forest ++ Forest.tree ⟨n, kind⟩ branches, next := n + 3 }
  else
    { t with forest := t.forest ++ Forest.tree ⟨n, kind⟩ .nil, next := n + 1 }

/-- Takes a node with all below it out of its place. -/
def detach (t : Tree) (n : NodeId) : Tree :=
  match t.parent? n, t.subtree? n with
  | some _, some s => { t with forest := t.forest.remove n ++ s }
  | _, _ => t

/-- Takes the tree of node `n` from its place and puts it back with `place`, unless `target` is
part of that tree. -/
def move (t : Tree) (n target : NodeId) (place : Forest Node → Forest Node → Forest Node) : Tree :=
  match t.subtree? n with
  | some s =>
    if target ∈ s.ids then t else { t with forest := place s (t.forest.remove n) }
  | none => t

/-- Makes `n` the last child of `parent`. -/
def append (t : Tree) (parent n : NodeId) : Tree :=
  match t.find? parent with
  | some _ => t.move n parent fun s => Forest.mapChildren parent (· ++ s)
  | none => t

/-- Makes `n` the first child of `parent`. -/
def prepend (t : Tree) (parent n : NodeId) : Tree :=
  match t.find? parent with
  | some _ => t.move n parent fun s => Forest.mapChildren parent (s ++ ·)
  | none => t

/-- Puts `n` right before `anchor`. -/
def insertBefore (t : Tree) (anchor n : NodeId) : Tree :=
  match t.parent? anchor with
  | some _ => t.move n anchor (Forest.insertBefore anchor)
  | none => t

/-- Puts `n` right after `anchor`. -/
def insertAfter (t : Tree) (anchor n : NodeId) : Tree :=
  match t.parent? anchor with
  | some _ => t.move n anchor (Forest.insertAfter anchor)
  | none => t

/-- Puts `new` where `old` is and takes `old` out. -/
def replace (t : Tree) (old new : NodeId) : Tree :=
  if old ∈ t.descendants new ∨ (t.parent? old).isNone then t
  else (t.insertBefore old new).detach old

/-- Takes every child of a node out. -/
def clear (t : Tree) (n : NodeId) : Tree :=
  { t with forest := t.forest.mapChildren n (fun _ => .nil) ++ t.below n }

/-- Marks the node to write out. -/
def mark (t : Tree) (n : NodeId) : Tree :=
  { t with marked := some n }

def mapElement (t : Tree) (n : NodeId) (f : Element → Element) : Tree :=
  { t with forest := t.forest.mapKind n (Kind.mapElement f) }

def setAttribute (t : Tree) (n : NodeId) (name : String) (value : AttrValue) : Tree :=
  t.mapElement n (·.set name value)

def eraseAttribute (t : Tree) (n : NodeId) (name : String) : Tree :=
  t.mapElement n (·.erase name)

/-- The value of an attribute of an element. -/
def attribute? (t : Tree) (n : NodeId) (name : String) : Option AttrValue :=
  (t.element? n).bind (·.get? name)

end Tree

/-- One edit of a tree. -/
inductive Edit where
  | create (kind : Kind)
  | append (parent n : NodeId)
  | prepend (parent n : NodeId)
  | insertBefore (anchor n : NodeId)
  | insertAfter (anchor n : NodeId)
  | replace (old new : NodeId)
  | detach (n : NodeId)
  | clear (n : NodeId)
  | mark (n : NodeId)
  deriving DecidableEq, Repr

def Edit.apply (t : Tree) : Edit → Tree
  | create kind => t.create kind
  | append parent n => t.append parent n
  | prepend parent n => t.prepend parent n
  | insertBefore anchor n => t.insertBefore anchor n
  | insertAfter anchor n => t.insertAfter anchor n
  | replace old new => t.replace old new
  | detach n => t.detach n
  | clear n => t.clear n
  | mark n => t.mark n

/-- The tree after a list of edits. -/
def Tree.edit (t : Tree) (edits : List Edit) : Tree :=
  edits.foldl Edit.apply t

end HtmlTemplate
