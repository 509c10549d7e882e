import HtmlTemplate.Directive.Registry

/-! # Loops and conditions

A loop or a condition with a parameter is put around its element. Without one it goes on with the
loop or the condition before it: a bare `foreach` joins the loop right before it, a bare `if` and an
`else` join a branch of the nearest conditional before them, with all that stands in between.
-/

namespace HtmlTemplate

namespace Tree

/-- Climbs from `n` along its ancestors as long as each is a loop around nothing else. -/
def climbLoops (t : Tree) (n : NodeId) : List NodeId → NodeId
  | [] => n
  | p :: ps => if t.isLoop p ∧ t.children p = [n] then t.climbLoops p ps else n

/-- The element with the loops that were put around it alone. -/
def unit (t : Tree) (n : NodeId) : NodeId :=
  t.climbLoops n (t.ancestors n)

/-- Makes nodes the last children of `parent`, in order. -/
def appendAll (t : Tree) (parent : NodeId) (nodes : List NodeId) : Tree :=
  nodes.foldl (fun t n => t.append parent n) t

end Tree

namespace Handler

/-- The branch of a conditional that a continuation joins. -/
inductive Side where
  | holds
  | fails
  deriving DecidableEq, Repr

/-- The branch of conditional `c` to join. One cannot go back from its second branch to its
first. -/
def Side.branch (alone : TemplateError) (t : Tree) (c : NodeId) :
    Side → Except TemplateError NodeId
  | holds =>
    if (t.elseBranch? c).any t.hasChildren then .error .ifAfterElse
    else match t.thenBranch? c with
      | some b => .ok b
      | none => .error alone
  | fails =>
    match t.elseBranch? c with
    | some b => .ok b
    | none => .error alone

/-- Moves the unit of `n`, with all siblings between it and the nearest conditional before it, into
a branch of that conditional. -/
def join (side : Side) (alone : TemplateError) (n : NodeId) (t : Tree) : Outcome :=
  let unit := t.unit n
  let before := t.preceding unit
  match before.find? t.isConditional with
  | none => { tree := t, error := some alone }
  | some c =>
    match side.branch alone t c with
    | .error e => { tree := t, error := some e }
    | .ok b =>
      let between := before.takeWhile (!t.isConditional ·)
      { tree := t.appendAll b (between.reverse ++ [unit]) }

/-- Puts a conditional around the element, or goes on with the one before it. -/
def condition (s : Site) (t : Tree) : Outcome :=
  match s.parameter with
  | none => join .holds .ifAlone s.node t
  | some _ =>
    let c := t.next
    let t := (t.create (.conditional s.code)).replace s.node c
    match t.thenBranch? c with
    | some b => { tree := t.append b s.node }
    | none => { tree := t }

/-- Moves the element to what is written when the test fails. A parameter is ignored. -/
def otherwise (s : Site) (t : Tree) : Outcome :=
  join .fails .elseAlone s.node t

/-- Puts a loop around the element, or joins the loop right before it. -/
def loop (s : Site) (t : Tree) : Outcome :=
  match s.parameter with
  | none =>
    match (t.previousSibling? s.node).filter t.isLoop with
    | some p => { tree := t.append p s.node }
    | none => { tree := t, error := some .foreachAlone }
  | some _ =>
    let l := t.next
    { tree := ((t.create (.loop s.code)).replace s.node l).append l s.node }

end Handler

end HtmlTemplate
