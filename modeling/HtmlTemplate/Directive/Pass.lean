import HtmlTemplate.Directive.Registry

/-! # The directive pass

The pass visits the nodes below the document in document order. At an element it runs the
directives that stood on it when it was reached, each as long as the element is in the document,
after taking the directive's attribute off. It goes on below the element; if the element is gone, it
goes on with the sibling that followed it, and if that is gone too, after its parent.

Handlers may edit the tree at will, so the pass is bounded by the number of visits it may make.
-/

namespace HtmlTemplate

/-- A handler that was run. -/
structure Call where
  node : NodeId
  directive : String
  parameter : Option AttrValue
  deriving DecidableEq, Repr

/-- What a pass leaves behind: the tree, the handlers it ran in order, and what was wrong. -/
structure Run where
  tree : Tree
  calls : List Call
  error : Option TemplateError
  deriving DecidableEq

namespace Registry

/-- The parameter a handler is given: an empty text counts as none. -/
def parameter? : Option AttrValue → Option AttrValue
  | some (.text t) => if t = "" then none else some (.text t)
  | v => v

/-- Runs directives on node `n`, as long as it is in the document and none of them fails. -/
def runAt (d : Dialect) (n : NodeId) : List (String × Directive) → Tree → Run
  | [], t => ⟨t, [], none⟩
  | (attr, directive) :: rest, t =>
    if t.isAttached n then
      let parameter := parameter? (t.attribute? n attr)
      let call : Call := ⟨n, directive.name, parameter⟩
      let out := directive.run ⟨d, n, parameter⟩ (t.eraseAttribute n attr)
      match out.error with
      | some e => ⟨out.tree, [call], some e⟩
      | none =>
        let r := runAt d n rest out.tree
        { r with calls := call :: r.calls }
    else ⟨t, [], none⟩

/-- The directives of a node in the order in which they run. -/
def orderedAt (r : Registry) (t : Tree) (n : NodeId) : List (String × Directive) :=
  match t.element? n with
  | some e => r.ordered e
  | none => []

/-- The node to visit after `n`, in the tree `t` to which the directives of `n` changed the tree
`before`. -/
def resume (before t : Tree) (n : NodeId) : Option NodeId :=
  if t.isAttached n then t.firstChild? n <|> t.following? n
  else (before.nextSibling? n).filter t.isAttached <|> (before.parent? n).bind t.following?

/-- Visits nodes from `cursor` on, at most `visits` of them. -/
def visit (r : Registry) (d : Dialect) : (visits : Nat) → (cursor : Option NodeId) → Tree → Run
  | _, none, t => ⟨t, [], none⟩
  | 0, some _, t => ⟨t, [], some .unfinished⟩
  | visits + 1, some n, t =>
    let here := runAt d n (r.orderedAt t n) t
    match here.error with
    | some _ => here
    | none =>
      let rest := visit r d visits (resume t here.tree n) here.tree
      { rest with calls := here.calls ++ rest.calls }

/-- The number of directive attributes in a forest. -/
def pending (r : Registry) : Forest Node → Nat
  | .nil => 0
  | .cons a c rest =>
    let here := match a.kind with
      | .element e => (r.written e).length
      | _ => 0
    here + pending r c + pending r rest

/-- How many visits a pass may make. A handler of this library adds at most three nodes, and each
call takes a directive off; the surplus is for handlers from outside. -/
def visitLimit (r : Registry) (t : Tree) : Nat :=
  let nodes := t.forest.preorder.length
  let calls := r.pending t.forest
  (calls + 1) * (nodes + 3 * calls + 1) + 4294967296

/-- Runs all directives of a document. -/
def run (r : Registry) (d : Dialect) (t : Tree) : Run :=
  r.visit d (r.visitLimit t) (t.firstChild? Tree.root) t

end Registry

end HtmlTemplate
