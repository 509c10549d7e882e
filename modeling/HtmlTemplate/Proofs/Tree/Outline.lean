import HtmlTemplate.Proofs.Forest.Niche

/-! # Outlines

The outline of a document is all of it but the host code: the nodes and their order, tags, attribute
names, text, which code is a statement, and its flags. Every query of a tree that does not ask for
code has the same answer in the outline, and every edit of a tree is the same edit of its outline.
-/

namespace HtmlTemplate

/-! ## What is left of a node -/

def Fragment.outline (f : Fragment) : Fragment :=
  { f with code := "" }

def AttrValue.outline : AttrValue → AttrValue
  | text t => text t
  | code f => code f.outline

def Element.outline (e : Element) : Element :=
  { e with attributes := e.attributes.map fun a => (a.1, a.2.outline) }

def Kind.outline : Kind → Kind
  | element e => element e.outline
  | code f => code f.outline
  | conditional _ => conditional ""
  | loop _ => loop ""
  | k => k

/-- The number stays. -/
def Node.outline (a : Node) : Node :=
  ⟨a.id, a.kind.outline⟩

def Tree.outline (t : Tree) : Tree :=
  { t with forest := t.forest.map Node.outline }

namespace Kind

@[simp] theorem isConditional_outline (k : Kind) : k.outline.isConditional = k.isConditional := by
  cases k <;> rfl

@[simp] theorem isLoop_outline (k : Kind) : k.outline.isLoop = k.isLoop := by
  cases k <;> rfl

@[simp] theorem element?_outline (k : Kind) :
    k.outline.element? = k.element?.map Element.outline := by
  cases k <;> rfl

theorem outline_mapElement {g g' : Element → Element} (h : ∀ e, (g e).outline = g' e.outline)
    (k : Kind) : (k.mapElement g).outline = k.outline.mapElement g' := by
  cases k with
  | element e => exact congrArg element (h e)
  | document | text _ | code _ | conditional _ | branch | loop _ => rfl

end Kind

namespace Element

@[simp] theorem tag_outline (e : Element) : e.outline.tag = e.tag := rfl

@[simp] theorem get?_outline (e : Element) (name : String) :
    e.outline.get? name = (e.get? name).map AttrValue.outline := by
  unfold get? outline
  induction e.attributes with
  | nil => rfl
  | cons a as ih =>
    rw [List.map_cons, List.lookup_cons, List.lookup_cons, ih]
    cases name == a.1 <;> rfl

@[simp] theorem has_outline (e : Element) (name : String) : e.outline.has name = e.has name := by
  unfold has outline
  rw [List.any_map]
  rfl

theorem outline_setIn (name : String) (v : AttrValue) (as : List (String × AttrValue)) :
    (setIn name v as).map (fun a => (a.1, a.2.outline)) =
      setIn name v.outline (as.map fun a => (a.1, a.2.outline)) := by
  induction as with
  | nil => rfl
  | cons a as ih =>
    rw [setIn, List.map_cons, setIn]
    split <;> simp [ih]

@[simp] theorem outline_set (e : Element) (name : String) (v : AttrValue) :
    (e.set name v).outline = e.outline.set name v.outline := by
  unfold set outline
  rw [outline_setIn]

@[simp] theorem outline_erase (e : Element) (name : String) :
    (e.erase name).outline = e.outline.erase name := by
  unfold erase outline
  rw [List.filter_map]
  rfl

end Element

/-! ## Forests -/

namespace Forest

variable (n : NodeId) (f g : Forest Node)

@[simp] theorem preorder_map {α β : Type} (h : α → β) (f : Forest α) :
    (f.map h).preorder = f.preorder.map h := by
  induction f with
  | nil => rfl
  | cons a c r ihc ihr => simp [ihc, ihr]

@[simp] theorem roots_map {α β : Type} (h : α → β) (f : Forest α) :
    (f.map h).roots = f.roots.map h := by
  induction f with
  | nil => rfl
  | cons a c r _ ih => simp [roots, ih]

@[simp] theorem ids_outline : (f.map Node.outline).ids = f.ids := by
  rw [ids, preorder_map, List.map_map]
  rfl

@[simp] theorem rootIds_outline : (f.map Node.outline).rootIds = f.rootIds := by
  rw [rootIds, roots_map, List.map_map]
  rfl

@[simp] theorem first?_id_outline :
    (f.map Node.outline).first?.map Node.id = f.first?.map Node.id := by
  cases f <;> rfl

theorem find?_outline :
    (f.map Node.outline).find? n =
      (f.find? n).map fun x => (x.1.outline, x.2.map Node.outline) := by
  induction f with
  | nil => rfl
  | cons a c r ihc ihr =>
    rw [map_cons, find?, find?, ihc, ihr]
    by_cases h : a.id = n
    · simp [Node.outline, h]
    · simp only [Node.outline, h, if_false]
      cases c.find? n <;> rfl

@[simp] theorem parent?_outline : (f.map Node.outline).parent? n = f.parent? n := by
  induction f with
  | nil => rfl
  | cons a c r ihc ihr => rw [map_cons, parent?, parent?, ihc, ihr, rootIds_outline]; rfl

@[simp] theorem above?_outline (up : List NodeId) :
    (f.map Node.outline).above? n up = f.above? n up := by
  induction f generalizing up with
  | nil => rfl
  | cons a c r ihc ihr => rw [map_cons, above?, above?, ihc, ihr]; rfl

@[simp] theorem following?_outline (up : Option NodeId) :
    (f.map Node.outline).following? n up = f.following? n up := by
  induction f generalizing up with
  | nil => rfl
  | cons a c r ihc ihr =>
    simp only [map_cons, following?, ihc, ihr, first?_id_outline]
    rfl

@[simp] theorem followingWithin?_outline :
    (f.map Node.outline).followingWithin? n = f.followingWithin? n := by
  induction f with
  | nil => rfl
  | cons a c r _ ihr => rw [map_cons, followingWithin?, followingWithin?, following?_outline, ihr]; rfl

@[simp] theorem outline_remove :
    (f.remove n).map Node.outline = (f.map Node.outline).remove n := by
  induction f with
  | nil => rfl
  | cons a c r ihc ihr =>
    by_cases h : a.id = n <;> simp [remove, h, ihc, ihr, Node.outline]

theorem outline_mapChildren {h g : Forest Node → Forest Node}
    (hh : ∀ c, (h c).map Node.outline = g (c.map Node.outline)) :
    (f.mapChildren n h).map Node.outline = (f.map Node.outline).mapChildren n g := by
  induction f with
  | nil => rfl
  | cons a c r ihc ihr =>
    by_cases ha : a.id = n <;> simp [mapChildren, ha, ihc, ihr, Node.outline, hh]

theorem outline_mapKind {h h' : Kind → Kind} (hh : ∀ k, (h k).outline = h' k.outline) :
    (f.mapKind n h).map Node.outline = (f.map Node.outline).mapKind n h' := by
  induction f with
  | nil => rfl
  | cons a c r ihc ihr =>
    by_cases ha : a.id = n <;> simp [mapKind, ha, ihc, ihr, Node.outline, hh]

@[simp] theorem outline_insertBefore :
    (insertBefore n g f).map Node.outline =
      insertBefore n (g.map Node.outline) (f.map Node.outline) := by
  induction f with
  | nil => rfl
  | cons a c r ihc ihr =>
    by_cases h : a.id = n <;> simp [insertBefore, h, ihc, ihr, Node.outline]

@[simp] theorem outline_insertAfter :
    (insertAfter n g f).map Node.outline =
      insertAfter n (g.map Node.outline) (f.map Node.outline) := by
  induction f with
  | nil => rfl
  | cons a c r ihc ihr =>
    by_cases h : a.id = n <;> simp [insertAfter, h, ihc, ihr, Node.outline]

end Forest

/-! ## Queries -/

namespace Tree

open Forest

variable (t : Tree) (n m : NodeId)

@[simp] theorem next_outline : t.outline.next = t.next := rfl

theorem forest_outline : t.outline.forest = t.forest.map Node.outline := rfl

@[simp] theorem find?_outline :
    t.outline.find? n = (t.find? n).map fun x => (x.1.outline, x.2.map Node.outline) :=
  Forest.find?_outline n t.forest

@[simp] theorem kind?_outline : t.outline.kind? n = (t.kind? n).map Kind.outline := by
  rw [kind?, find?_outline, kind?, Option.map_map, Option.map_map]
  rfl

@[simp] theorem element?_outline : t.outline.element? n = (t.element? n).map Element.outline := by
  rw [element?, element?, kind?_outline]
  cases t.kind? n with
  | none => rfl
  | some k => exact k.element?_outline

@[simp] theorem attribute?_outline (name : String) :
    t.outline.attribute? n name = (t.attribute? n name).map AttrValue.outline := by
  rw [attribute?, attribute?, element?_outline]
  cases t.element? n with
  | none => rfl
  | some e => exact e.get?_outline name

@[simp] theorem isConditional_outline : t.outline.isConditional n = t.isConditional n := by
  rw [isConditional, isConditional, kind?_outline, Option.any_map]
  simp

@[simp] theorem isLoop_outline : t.outline.isLoop n = t.isLoop n := by
  rw [isLoop, isLoop, kind?_outline, Option.any_map]
  simp

@[simp] theorem below_outline : t.outline.below n = (t.below n).map Node.outline := by
  rw [below, below, find?_outline]
  cases t.find? n <;> rfl

@[simp] theorem children_outline : t.outline.children n = t.children n := by
  rw [children, children, below_outline, rootIds_outline]

@[simp] theorem firstChild?_outline : t.outline.firstChild? n = t.firstChild? n := by
  rw [firstChild?, firstChild?, below_outline, first?_id_outline]

@[simp] theorem lastChild?_outline : t.outline.lastChild? n = t.lastChild? n := by
  rw [lastChild?, lastChild?, children_outline]

@[simp] theorem hasChildren_outline : t.outline.hasChildren n = t.hasChildren n := by
  rw [hasChildren, hasChildren, below_outline, isEmpty_map]

@[simp] theorem descendants_outline : t.outline.descendants n = t.descendants n := by
  rw [descendants, descendants, find?_outline]
  cases t.find? n <;> simp

@[simp] theorem thenBranch?_outline : t.outline.thenBranch? n = t.thenBranch? n := by
  simp [thenBranch?]

@[simp] theorem elseBranch?_outline : t.outline.elseBranch? n = t.elseBranch? n := by
  simp [elseBranch?]

@[simp] theorem parent?_outline : t.outline.parent? n = t.parent? n :=
  Forest.parent?_outline n t.forest

@[simp] theorem ancestors_outline : t.outline.ancestors n = t.ancestors n := by
  rw [ancestors, ancestors, forest_outline, above?_outline]

@[simp] theorem siblings_outline : t.outline.siblings n = t.siblings n := by
  simp [siblings]

@[simp] theorem nextSibling?_outline : t.outline.nextSibling? n = t.nextSibling? n := by
  simp [nextSibling?]

@[simp] theorem previousSibling?_outline : t.outline.previousSibling? n = t.previousSibling? n := by
  simp [previousSibling?]

@[simp] theorem preceding_outline : t.outline.preceding n = t.preceding n := by
  simp [preceding]

@[simp] theorem following?_outline : t.outline.following? n = t.following? n := by
  rw [following?, following?, forest_outline, followingWithin?_outline]

@[simp] theorem isAttached_outline : t.outline.isAttached n = t.isAttached n := by
  simp [isAttached]

@[simp] theorem climbLoops_outline (up : List NodeId) :
    t.outline.climbLoops n up = t.climbLoops n up := by
  induction up generalizing n with
  | nil => rfl
  | cons p up ih => rw [climbLoops, climbLoops, isLoop_outline, children_outline, ih]

@[simp] theorem unit_outline : t.outline.unit n = t.unit n := by
  simp [unit]

/-! ## Edits -/

@[simp] theorem subtree?_outline :
    t.outline.subtree? n = (t.subtree? n).map (Forest.map Node.outline) := by
  rw [subtree?, subtree?, find?_outline, Option.map_map, Option.map_map]
  rfl

@[simp] theorem outline_create (k : Kind) : (t.create k).outline = t.outline.create k.outline := by
  unfold create outline
  rw [Kind.isConditional_outline]
  cases k.isConditional <;> simp [Node.outline, Kind.outline]

@[simp] theorem outline_detach : (t.detach n).outline = t.outline.detach n := by
  unfold detach
  rw [parent?_outline, subtree?_outline]
  cases t.parent? n with
  | none => rfl
  | some p =>
    cases t.subtree? n with
    | none => rfl
    | some s => simp [outline]

theorem outline_move {place place' : Forest Node → Forest Node → Forest Node}
    (h : ∀ s f, (place s f).map Node.outline = place' (s.map Node.outline) (f.map Node.outline)) :
    (t.move n m place).outline = t.outline.move n m place' := by
  unfold move
  rw [subtree?_outline]
  cases t.subtree? n with
  | none => rfl
  | some s => by_cases hm : m ∈ s.ids <;> simp [outline, hm, h]

@[simp] theorem outline_append : (t.append n m).outline = t.outline.append n m := by
  unfold append
  rw [find?_outline]
  cases t.find? n with
  | none => rfl
  | some x => exact outline_move _ _ _ fun s f => outline_mapChildren _ _ fun c => map_append ..

@[simp] theorem outline_prepend : (t.prepend n m).outline = t.outline.prepend n m := by
  unfold prepend
  rw [find?_outline]
  cases t.find? n with
  | none => rfl
  | some x => exact outline_move _ _ _ fun s f => outline_mapChildren _ _ fun c => map_append ..

@[simp] theorem outline_insertBefore : (t.insertBefore n m).outline = t.outline.insertBefore n m := by
  unfold insertBefore
  rw [parent?_outline]
  cases t.parent? n with
  | none => rfl
  | some p => exact outline_move _ _ _ fun s f => Forest.outline_insertBefore ..

@[simp] theorem outline_insertAfter : (t.insertAfter n m).outline = t.outline.insertAfter n m := by
  unfold insertAfter
  rw [parent?_outline]
  cases t.parent? n with
  | none => rfl
  | some p => exact outline_move _ _ _ fun s f => Forest.outline_insertAfter ..

@[simp] theorem outline_replace : (t.replace n m).outline = t.outline.replace n m := by
  unfold replace
  rw [descendants_outline, parent?_outline, apply_ite Tree.outline]
  simp

@[simp] theorem outline_clear : (t.clear n).outline = t.outline.clear n := by
  unfold clear
  rw [below_outline]
  simp only [outline, map_append]
  rw [outline_mapChildren n t.forest (g := fun _ => nil) fun _ => rfl]

@[simp] theorem outline_mark : (t.mark n).outline = t.outline.mark n := rfl

theorem outline_mapElement {g g' : Element → Element} (h : ∀ e, (g e).outline = g' e.outline) :
    (t.mapElement n g).outline = t.outline.mapElement n g' := by
  unfold mapElement outline
  rw [outline_mapKind n t.forest (Kind.outline_mapElement h)]

@[simp] theorem outline_setAttribute (name : String) (v : AttrValue) :
    (t.setAttribute n name v).outline = t.outline.setAttribute n name v.outline :=
  outline_mapElement t n fun e => e.outline_set name v

@[simp] theorem outline_eraseAttribute (name : String) :
    (t.eraseAttribute n name).outline = t.outline.eraseAttribute n name :=
  outline_mapElement t n fun e => e.outline_erase name

@[simp] theorem outline_appendAll (nodes : List NodeId) :
    (t.appendAll n nodes).outline = t.outline.appendAll n nodes := by
  unfold appendAll
  induction nodes generalizing t with
  | nil => rfl
  | cons m nodes ih => rw [List.foldl_cons, List.foldl_cons, ih, outline_append]

end Tree

end HtmlTemplate
