import HtmlTemplate.Element
import HtmlTemplate.Forest

/-! # The nodes of a document -/

namespace HtmlTemplate

/-- What a node is. A conditional has two branches below it, the first for a test that holds. -/
inductive Kind where
  | document
  | element (element : Element)
  | text (text : String)
  | code (code : Fragment)
  | conditional (test : String)
  | branch
  | loop (binding : String)
  deriving DecidableEq, Repr

abbrev NodeId := Nat

/-- A node of a tree: the number that stays with it when it is moved, and what it is. -/
structure Node where
  id : NodeId
  kind : Kind
  deriving DecidableEq, Repr

namespace Kind

def isConditional : Kind → Bool
  | conditional _ => true
  | _ => false

def isLoop : Kind → Bool
  | loop _ => true
  | _ => false

def element? : Kind → Option Element
  | element e => some e
  | _ => none

def text? : Kind → Option String
  | text t => some t
  | _ => none

/-- Changes the element of an element node and leaves other nodes alone. -/
def mapElement (f : Element → Element) : Kind → Kind
  | element e => element (f e)
  | k => k

end Kind

namespace Forest

/-- Numbers the nodes from `n` on, each before those below it and after it. -/
def numberFrom (n : NodeId) : Forest Kind → Forest Node × NodeId
  | nil => (nil, n)
  | cons k c r =>
    let below := numberFrom (n + 1) c
    let after := numberFrom below.2 r
    (cons ⟨n, k⟩ below.1 after.1, after.2)

/-- The forest without its numbers. -/
def kinds (f : Forest Node) : Forest Kind :=
  f.map Node.kind

end Forest

end HtmlTemplate
