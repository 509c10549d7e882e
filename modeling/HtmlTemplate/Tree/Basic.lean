import HtmlTemplate.Node

/-! # Document trees

A tree holds the document and, beside it, the trees that were taken out of the document or have
not been put into it. Nodes are named by numbers; everything else, who is whose parent and who
stands next to whom, is read off the forest.
-/

namespace HtmlTemplate

namespace Forest

/-- The numbers of all nodes, in document order. -/
def ids (f : Forest Node) : List NodeId :=
  f.preorder.map Node.id

/-- The numbers of the nodes at the top. -/
def rootIds (f : Forest Node) : List NodeId :=
  f.roots.map Node.id

/-- What node `n` is, and the forest below it. -/
def find? (n : NodeId) : Forest Node → Option (Kind × Forest Node)
  | nil => none
  | cons a c r => if a.id = n then some (a.kind, c) else find? n c <|> find? n r

/-- The node directly above `n`. -/
def parent? (n : NodeId) : Forest Node → Option NodeId
  | nil => none
  | cons a c r => if n ∈ c.rootIds then some a.id else parent? n c <|> parent? n r

/-- The nodes above `n`, the nearest first, followed by `up`. -/
def above? (n : NodeId) (up : List NodeId) : Forest Node → Option (List NodeId)
  | nil => none
  | cons a c r => if a.id = n then some up else above? n (a.id :: up) c <|> above? n up r

/-- The node that comes after `n` and all below it, when `up` comes after the forest. -/
def following? (n : NodeId) (up : Option NodeId) : Forest Node → Option (Option NodeId)
  | nil => none
  | cons a c r =>
    let next := r.first?.map Node.id <|> up
    if a.id = n then some next else following? n next c <|> following? n up r

/-- The node that comes after `n` and all below it, within the top tree that holds `n`. -/
def followingWithin? (n : NodeId) : Forest Node → Option (Option NodeId)
  | nil => none
  | cons a c r => if a.id = n then some none else following? n none c <|> followingWithin? n r

end Forest

/-- The entry right after `n` in a list. -/
def after? (n : NodeId) : List NodeId → Option NodeId
  | a :: b :: l => if a = n then some b else after? n (b :: l)
  | _ => none

structure Tree where
  /-- The document, and the trees that stand beside it. -/
  forest : Forest Node
  /-- The number of the next node to be made. -/
  next : NodeId
  /-- The node last marked as the one to write out. -/
  marked : Option NodeId
  deriving DecidableEq, Repr

namespace Tree

/-- The number of the document node. -/
def root : NodeId := 0

/-- The empty document. -/
def empty : Tree :=
  ⟨Forest.tree ⟨root, .document⟩ .nil, 1, none⟩

/-- The document with the given content, numbered in document order. -/
def ofContent (content : Forest Kind) : Tree :=
  let numbered := content.numberFrom 1
  ⟨Forest.tree ⟨root, .document⟩ numbered.1, numbered.2, none⟩

variable (t : Tree) (n : NodeId)

def find? : Option (Kind × Forest Node) :=
  t.forest.find? n

def kind? : Option Kind :=
  (t.find? n).map Prod.fst

def element? : Option Element :=
  (t.kind? n).bind Kind.element?

def isConditional : Bool :=
  (t.kind? n).any Kind.isConditional

def isLoop : Bool :=
  (t.kind? n).any Kind.isLoop

/-! ## Below a node -/

/-- The forest below a node. -/
def below : Forest Node :=
  match t.find? n with
  | some (_, c) => c
  | none => .nil

def children : List NodeId :=
  (t.below n).rootIds

def firstChild? : Option NodeId :=
  (t.below n).first?.map Node.id

def lastChild? : Option NodeId :=
  (t.children n).getLast?

def hasChildren : Bool :=
  !(t.below n).isEmpty

/-- A node and all below it, in document order. -/
def descendants : List NodeId :=
  match t.find? n with
  | some (_, c) => n :: c.ids
  | none => []

/-- The branch of a conditional for a test that holds. -/
def thenBranch? : Option NodeId :=
  if t.isConditional n then t.firstChild? n else none

/-- The branch of a conditional for a test that fails. -/
def elseBranch? : Option NodeId :=
  if t.isConditional n then t.lastChild? n else none

/-- The text of all text nodes at and below a node. -/
def textContent : String :=
  match t.find? n with
  | some (k, c) => String.join ((k :: c.kinds.preorder).filterMap Kind.text?)
  | none => ""

/-! ## Beside and above a node -/

def parent? : Option NodeId :=
  t.forest.parent? n

/-- The nodes above a node, the nearest first. -/
def ancestors : List NodeId :=
  (t.forest.above? n []).getD []

/-- The children of the node's parent, the node among them. -/
def siblings : List NodeId :=
  match t.parent? n with
  | some p => t.children p
  | none => []

def nextSibling? : Option NodeId :=
  after? n (t.siblings n)

def previousSibling? : Option NodeId :=
  after? n (t.siblings n).reverse

/-- The siblings before a node, the nearest first. -/
def preceding : List NodeId :=
  ((t.siblings n).takeWhile (· ≠ n)).reverse

/-- The next node in document order that is not below `n`. -/
def following? : Option NodeId :=
  (t.forest.followingWithin? n).join

/-- Whether a node is the document or below it. -/
def isAttached : Bool :=
  n == root || (t.ancestors n).contains root

/-- The marked node, as long as it is in the document. -/
def main? : Option NodeId :=
  t.marked.filter t.isAttached

/-- The number of nodes in the document, itself included. -/
def count : Nat :=
  (t.descendants root).length

/-- The node reached from the document by child indices. -/
def at? (path : List Nat) : Option NodeId :=
  match path with
  | [] => some root
  | path => ((t.below root).get? path).map (·.1.id)

/-- The child indices that lead from the document to a node. -/
def path? : Option (List Nat) :=
  if n = root then some [] else (t.below root).path? (·.id = n)

end Tree

end HtmlTemplate
