/-! # Ordered forests

A forest is a list of trees, each with a label and a forest of children. It is given by its first
tree and the rest, so that every function on it is a plain recursion.
-/

namespace HtmlTemplate

inductive Forest (α : Type) where
  | nil
  | cons (label : α) (children rest : Forest α)
  deriving DecidableEq, Repr

namespace Forest

variable {α β : Type}

/-- The forest of one tree. -/
def tree (label : α) (children : Forest α) : Forest α :=
  cons label children nil

def append : Forest α → Forest α → Forest α
  | nil, g => g
  | cons a c r, g => cons a c (append r g)

instance : Append (Forest α) := ⟨append⟩

def map (f : α → β) : Forest α → Forest β
  | nil => nil
  | cons a c r => cons (f a) (map f c) (map f r)

/-- The labels at the top. -/
def roots : Forest α → List α
  | nil => []
  | cons a _ r => a :: roots r

/-- The first label at the top. -/
def first? : Forest α → Option α
  | nil => none
  | cons a _ _ => some a

/-- All labels, each before those below it and after it, followed by `tail`. -/
def preorderOnto (tail : List α) : Forest α → List α
  | nil => tail
  | cons a c r => a :: preorderOnto (preorderOnto tail r) c

/-- All labels, each before those below it and after it. -/
def preorder (f : Forest α) : List α :=
  f.preorderOnto []

def isEmpty : Forest α → Bool
  | nil => true
  | cons _ _ _ => false

/-- The subtree reached by child indices, with the label at its top. -/
def get? : Forest α → List Nat → Option (α × Forest α)
  | nil, _ => none
  | cons _ _ _, [] => none
  | cons a c r, i :: is =>
    match i with
    | 0 => if is.isEmpty then some (a, c) else get? c is
    | j + 1 => get? r (j :: is)

/-- The child indices that lead to the first label with property `p`. -/
def path? (p : α → Bool) : Forest α → Option (List Nat)
  | nil => none
  | cons a c r =>
    if p a then some [0]
    else match path? p c with
      | some is => some (0 :: is)
      | none => (path? p r).map fun
        | [] => []
        | i :: is => (i + 1) :: is

@[simp] theorem nil_append (g : Forest α) : nil ++ g = g := rfl

@[simp] theorem cons_append (a : α) (c r g : Forest α) : cons a c r ++ g = cons a c (r ++ g) := rfl

@[simp] theorem append_nil (f : Forest α) : f ++ nil = f := by
  induction f with
  | nil => rfl
  | cons a c r _ ih => rw [cons_append, ih]

theorem append_assoc (f g h : Forest α) : f ++ g ++ h = f ++ (g ++ h) := by
  induction f with
  | nil => rfl
  | cons a c r _ ih => simp only [cons_append, ih]

theorem preorderOnto_eq (tail : List α) (f : Forest α) : f.preorderOnto tail = f.preorder ++ tail := by
  induction f generalizing tail with
  | nil => rfl
  | cons a c r ihc ihr =>
    rw [preorder, preorderOnto, preorderOnto, ihc, ihr tail, ihc (r.preorderOnto []), ihr []]
    simp

@[simp] theorem preorder_nil : (nil : Forest α).preorder = [] := rfl

@[simp] theorem preorder_cons (a : α) (c r : Forest α) :
    (cons a c r).preorder = a :: (c.preorder ++ r.preorder) := by
  rw [preorder, preorderOnto, preorderOnto_eq]
  rfl

@[simp] theorem preorder_append (f g : Forest α) : (f ++ g).preorder = f.preorder ++ g.preorder := by
  induction f with
  | nil => rfl
  | cons a c r _ ih => simp [ih]

@[simp] theorem roots_append (f g : Forest α) : (f ++ g).roots = f.roots ++ g.roots := by
  induction f with
  | nil => rfl
  | cons a c r _ ih => simp [roots, ih]

end Forest

end HtmlTemplate
