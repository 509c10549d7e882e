import HtmlTemplate.Text.Entity
import HtmlTemplate.Tree.Basic

/-! # Output chunks

A tree is written as a list of chunks, static text and host code. Neighbouring texts are joined
and empty ones left out, so that a list of chunks is a normal form of the output.

The chunks are also what a walk through the tree leaves in a buffer, to whose end it writes piece by
piece.
-/

namespace HtmlTemplate

inductive Chunk where
  | text (text : String)
  | code (code : Fragment)
  deriving DecidableEq, Repr

namespace Chunk

/-- Puts a chunk in front: empty text is left out, text is joined with text. -/
def push : Chunk → List Chunk → List Chunk
  | text s, text t :: cs => text (s ++ t) :: cs
  | text s, cs => if s = "" then cs else text s :: cs
  | code f, cs => code f :: cs

/-- Joins neighbouring texts and leaves out empty ones. -/
def join : List Chunk → List Chunk
  | [] => []
  | c :: cs => push c (join cs)

def render (d : Dialect) : Chunk → String
  | text t => t
  | code f => f.render d

/-- The output text of a list of chunks. -/
def emit (d : Dialect) (cs : List Chunk) : String :=
  String.join (cs.map (render d))

def isEager : Chunk → Bool
  | code f => f.isEager
  | text _ => false

end Chunk

/-- A tree as it is written: its chunks, and whether it has anything below its top. -/
structure Block where
  chunks : List Chunk
  filled : Bool

namespace Block

/-- The chunks of blocks that stand one after the other. -/
def sequence (blocks : List Block) : List Chunk :=
  blocks.flatMap chunks

end Block

namespace Element

/-- An attribute in its double quotes. -/
def attributeChunks (a : String × AttrValue) : List Chunk :=
  let value := match a.2 with
    | .text t => Chunk.text (escapeQuotes t)
    | .code f => Chunk.code f
  [.text (" " ++ a.1 ++ "=\""), value, .text "\""]

/-- The start tag of an element. -/
def startChunks (e : Element) : List Chunk :=
  .text ("<" ++ e.tag) :: (e.attributes.flatMap attributeChunks ++ [.text ">"])

end Element

/-- A node around the blocks of its children. A conditional writes its first child, and its last
child once more behind the word for else if that child is filled. -/
def Kind.chunks (d : Dialect) (inner : List Block) : Kind → List Chunk
  | .document => Block.sequence inner
  | .branch => Block.sequence inner
  | .text t => [.text t]
  | .code f => [.code f]
  | .element e =>
    if isVoid e.tag then e.startChunks
    else e.startChunks ++ Block.sequence inner ++ [.text ("</" ++ e.tag ++ ">")]
  | .conditional test =>
    let otherwise := match inner.getLast? with
      | some b => if b.filled then .code (Fragment.statement d.beginElse) :: b.chunks else []
      | none => []
    .code (Fragment.statement (d.beginIf test)) ::
      (Block.sequence inner.head?.toList ++ otherwise ++
        [.code (Fragment.statement d.endIf)])
  | .loop binding =>
    .code (Fragment.statement (d.beginLoop binding)) ::
      (Block.sequence inner ++ [.code (Fragment.statement d.endLoop)])

namespace Forest

/-- The trees of a forest as they are written. -/
def blocks (d : Dialect) : Forest Kind → List Block
  | nil => []
  | cons k c r => ⟨k.chunks d (blocks d c), !c.isEmpty⟩ :: blocks d r

/-- A forest as chunks. -/
def chunks (d : Dialect) (f : Forest Kind) : List Chunk :=
  Chunk.join (Block.sequence (f.blocks d))

/-- A forest as output text. -/
def render (d : Dialect) (f : Forest Kind) : String :=
  Chunk.emit d (f.chunks d)

end Forest

/-! ## Writing into a buffer -/

namespace Chunk

/-- The buffer with a chunk written to its end: empty text is left out, text is joined with text. -/
def write (buffer : List Chunk) : Chunk → List Chunk
  | text s =>
    if s = "" then buffer
    else match buffer.getLast? with
      | some (text t) => buffer.dropLast ++ [text (t ++ s)]
      | _ => buffer ++ [text s]
  | code f => buffer ++ [code f]

end Chunk

/-- What the walk through a tree does to a buffer, and whether the tree has anything below its top. -/
structure Writer where
  walk : List Chunk → List Chunk
  filled : Bool

/-- Walks through trees that stand one after the other. -/
def Writer.walkAll (writers : List Writer) (buffer : List Chunk) : List Chunk :=
  writers.foldl (fun buffer w => w.walk buffer) buffer

namespace Element

def walkAttribute (buffer : List Chunk) (a : String × AttrValue) : List Chunk :=
  let opened := [.text " ", .text a.1, .text "=\""].foldl Chunk.write buffer
  let filled := match a.2 with
    | .text t => Chunk.write opened (.text (escapeQuotes t))
    | .code f => Chunk.write opened (.code f)
  Chunk.write filled (.text "\"")

def walkStart (e : Element) (buffer : List Chunk) : List Chunk :=
  let named := [.text "<", .text e.tag].foldl Chunk.write buffer
  Chunk.write (e.attributes.foldl walkAttribute named) (.text ">")

end Element

/-- Walks through a node, by the walks through its children. -/
def Kind.walk (d : Dialect) (inner : List Writer) (buffer : List Chunk) : Kind → List Chunk
  | .document => Writer.walkAll inner buffer
  | .branch => Writer.walkAll inner buffer
  | .text t => Chunk.write buffer (.text t)
  | .code f => Chunk.write buffer (.code f)
  | .element e =>
    let started := e.walkStart buffer
    if isVoid e.tag then started
    else [.text "</", .text e.tag, .text ">"].foldl Chunk.write (Writer.walkAll inner started)
  | .conditional test =>
    let started := Chunk.write buffer (.code (Fragment.statement (d.beginIf test)))
    let first := Writer.walkAll inner.head?.toList started
    let second := match inner.getLast? with
      | some w => if w.filled then w.walk (Chunk.write first (.code (Fragment.statement d.beginElse))) else first
      | none => first
    Chunk.write second (.code (Fragment.statement d.endIf))
  | .loop binding =>
    let started := Chunk.write buffer (.code (Fragment.statement (d.beginLoop binding)))
    Chunk.write (Writer.walkAll inner started) (.code (Fragment.statement d.endLoop))

namespace Forest

/-- The walks through the trees of a forest. -/
def writers (d : Dialect) : Forest Kind → List Writer
  | nil => []
  | cons k c r => ⟨fun buffer => k.walk d (writers d c) buffer, !c.isEmpty⟩ :: writers d r

/-- What a walk through a forest leaves in an empty buffer. -/
def buffered (d : Dialect) (f : Forest Kind) : List Chunk :=
  Writer.walkAll (f.writers d) []

end Forest

/-! ## Whole trees -/

namespace Tree

/-- The kinds of a node and all below it. -/
def kindsAt (t : Tree) (n : NodeId) : Forest Kind :=
  match t.find? n with
  | some (k, c) => Forest.tree k c.kinds
  | none => .nil

/-- A node with all below it as chunks. -/
def chunks (d : Dialect) (t : Tree) (n : NodeId) : List Chunk :=
  (t.kindsAt n).chunks d

/-- A node with all below it as output text. -/
def render (d : Dialect) (t : Tree) (n : NodeId) : String :=
  (t.kindsAt n).render d

/-- A node as an expression: code keeps its value, all else becomes a literal of its markup. -/
def expressionAt (d : Dialect) (t : Tree) (n : NodeId) : Fragment :=
  match t.kind? n with
  | some (.code f) => f.asExpression d
  | some (.text s) => Fragment.expression (d.literal s)
  | _ => Fragment.expression (d.literal (t.render d n))

/-- The eager fragments of the document's code nodes, in document order. -/
def hoisted (t : Tree) : List Chunk :=
  (t.kindsAt root).preorder.filterMap fun
    | .code f => if f.isEager then some (.code f) else none
    | _ => none

/-- The chunks of the marked node, or else of the document, without eager fragments. -/
def body (d : Dialect) (t : Tree) : List Chunk :=
  (t.chunks d (t.main?.getD root)).filter (!·.isEager)

/-- The whole output: eager fragments ahead of the body. -/
def serialize (d : Dialect) (t : Tree) : String :=
  Chunk.emit d t.hoisted ++ Chunk.emit d (t.body d)

end Tree

end HtmlTemplate
