import HtmlTemplate.Directive.Branching
import HtmlTemplate.Proofs.Forest.Context

/-! # Niches

A niche is a forest with a gap, read from the outside in. The gap can be filled (`fill`), other trees can
be put in front of the niche and behind it (`embed`), and another niche can take the place of the gap
and of the trees right beside it (`plant`). In a document a niche is a context (`fill_eq_close`).
-/

namespace HtmlTemplate

/-! ## Forests -/

namespace Forest

variable {α β : Type}

@[simp] theorem map_nil (h : α → β) : (nil : Forest α).map h = nil := rfl

@[simp] theorem map_cons (h : α → β) (a : α) (c r : Forest α) :
    (cons a c r).map h = cons (h a) (c.map h) (r.map h) := rfl

@[simp] theorem map_tree (h : α → β) (a : α) (c : Forest α) :
    (tree a c).map h = tree (h a) (c.map h) := rfl

@[simp] theorem map_append (h : α → β) (f g : Forest α) : (f ++ g).map h = f.map h ++ g.map h := by
  induction f with
  | nil => rfl
  | cons a c r _ ih => rw [cons_append, map_cons, map_cons, cons_append, ih]

@[simp] theorem isEmpty_map (h : α → β) (f : Forest α) : (f.map h).isEmpty = f.isEmpty := by
  cases f <;> rfl

theorem isEmpty_eq_true {f : Forest α} : f.isEmpty = true ↔ f = nil := by
  cases f <;> simp [isEmpty]

/-- A forest that is cut at one of the trees at its top. -/
structure Cut (α : Type) where
  before : Forest α
  label : α
  below : Forest α
  after : Forest α

def Cut.map (h : α → β) (x : Cut α) : Cut β :=
  ⟨x.before.map h, h x.label, x.below.map h, x.after.map h⟩

/-- Cuts a forest at the last tree with property `p`. -/
def cutLast (p : α → Bool) : Forest α → Option (Cut α)
  | nil => none
  | cons a c r =>
    match r.cutLast p with
    | some x => some { x with before := cons a c x.before }
    | none => if p a then some ⟨nil, a, c, r⟩ else none

variable {p : α → Bool} {f : Forest α}

theorem cutLast_map (h : α → β) (p : β → Bool) (f : Forest α) :
    (f.map h).cutLast p = (f.cutLast fun a => p (h a)).map (Cut.map h) := by
  induction f with
  | nil => rfl
  | cons a c r _ ih =>
    rw [map_cons, cutLast, cutLast, ih]
    cases r.cutLast fun a => p (h a) with
    | some x => rfl
    | none => cases hp : p (h a) <;> simp [Cut.map]

theorem cutLast_append {x : Cut α} (hx : f.cutLast p = some x) (g : Forest α) :
    (g ++ f).cutLast p = some { x with before := g ++ x.before } := by
  induction g with
  | nil => exact hx
  | cons a c r _ ih => rw [cons_append, cutLast, ih, cons_append]

theorem cutLast_quiet {g : Forest α} (hf : f.cutLast p = none) (hg : ∀ a ∈ g.roots, p a = false) :
    (g ++ f).cutLast p = none := by
  induction g with
  | nil => exact hf
  | cons a c r _ ih =>
    obtain ⟨ha, hr⟩ := List.forall_mem_cons.1 hg
    rw [cons_append, cutLast, ih hr]
    simp [ha]

theorem cutLast_eq_none (hf : f.cutLast p = none) : ∀ a ∈ f.roots, p a = false := by
  induction f with
  | nil => exact List.forall_mem_nil _
  | cons a c r _ ih =>
    rw [cutLast] at hf
    cases hr : r.cutLast p with
    | some y => simp [hr] at hf
    | none =>
      have ha : p a = false := by simpa [hr] using hf
      exact List.forall_mem_cons.2 ⟨ha, ih hr⟩

theorem cutLast_eq_some {x : Cut α} (hx : f.cutLast p = some x) :
    f = x.before ++ cons x.label x.below x.after ∧ p x.label = true ∧
      ∀ a ∈ x.after.roots, p a = false := by
  induction f generalizing x with
  | nil => cases hx
  | cons a c r _ ih =>
    rw [cutLast] at hx
    cases hr : r.cutLast p with
    | some y =>
      rw [hr] at hx
      cases hx
      obtain ⟨heq, hlabel, hafter⟩ := ih hr
      exact ⟨by rw [cons_append, ← heq], hlabel, hafter⟩
    | none =>
      simp only [hr, Option.ite_none_right_eq_some, Option.some.injEq] at hx
      obtain ⟨hp, rfl⟩ := hx
      exact ⟨rfl, hp, cutLast_eq_none hr⟩

end Forest

/-! ## Niches -/

/-- A forest with a gap, from the outside in: the gap is at the top, or somewhere below a node there. -/
inductive Niche (α : Type) where
  | here (before after : Forest α)
  | inside (before : Forest α) (parent : α) (niche : Niche α) (after : Forest α)

namespace Niche

open Forest

variable {α β : Type}

/-- The forest with `f` in the gap. -/
def fill (f : Forest α) : Niche α → Forest α
  | here b a => b ++ (f ++ a)
  | inside b o x a => b ++ cons o (x.fill f) a

def map (h : α → β) : Niche α → Niche β
  | here b a => here (b.map h) (a.map h)
  | inside b o x a => inside (b.map h) (h o) (x.map h) (a.map h)

/-- The trees before the gap, or before the node that it is below. -/
def before : Niche α → Forest α
  | here b _ => b
  | inside b _ _ _ => b

def after : Niche α → Forest α
  | here _ a => a
  | inside _ _ _ a => a

/-- Other trees before the gap and after it, at the top. -/
def set (b a : Forest α) : Niche α → Niche α
  | here _ _ => here b a
  | inside _ o x _ => inside b o x a

/-- More trees in front of all others and behind them. -/
def embed (g r : Forest α) (x : Niche α) : Niche α :=
  x.set (g ++ x.before) (x.after ++ r)

/-- The trees right beside the gap. -/
def left : Niche α → Forest α
  | here b _ => b
  | inside _ _ x _ => x.left

def right : Niche α → Forest α
  | here _ a => a
  | inside _ _ x _ => x.right

/-- The trees behind the gap that are not right beside it. -/
def beyond : Niche α → Forest α
  | here _ _ => nil
  | inside _ _ x a => x.beyond ++ a

/-- All trees behind the gap. -/
def ahead (x : Niche α) : Forest α :=
  x.right ++ x.beyond

/-- Another niche in place of the gap and the trees right beside it. -/
def plant : Niche α → Niche α → Niche α
  | here _ _, z => z
  | inside b o x a, z => inside b o (x.plant z) a

theorem map_fill (h : α → β) (f : Forest α) (x : Niche α) : (x.fill f).map h = (x.map h).fill (f.map h) := by
  induction x with
  | here b a => simp [fill, map]
  | inside b o x a ih => simp [fill, map, ih]

@[simp] theorem before_map (h : α → β) (x : Niche α) : (x.map h).before = x.before.map h := by
  cases x <;> rfl

@[simp] theorem after_map (h : α → β) (x : Niche α) : (x.map h).after = x.after.map h := by
  cases x <;> rfl

@[simp] theorem map_set (h : α → β) (b a : Forest α) (x : Niche α) :
    (x.set b a).map h = (x.map h).set (b.map h) (a.map h) := by
  cases x <;> rfl

@[simp] theorem left_map (h : α → β) (x : Niche α) : (x.map h).left = x.left.map h := by
  induction x with
  | here b a => rfl
  | inside b o x a ih => exact ih

@[simp] theorem right_map (h : α → β) (x : Niche α) : (x.map h).right = x.right.map h := by
  induction x with
  | here b a => rfl
  | inside b o x a ih => exact ih

@[simp] theorem beyond_map (h : α → β) (x : Niche α) : (x.map h).beyond = x.beyond.map h := by
  induction x with
  | here b a => rfl
  | inside b o x a ih => simp [beyond, map, ih]

@[simp] theorem map_plant (h : α → β) (x z : Niche α) :
    (x.plant z).map h = (x.map h).plant (z.map h) := by
  induction x with
  | here b a => rfl
  | inside b o x a ih => simp [plant, map, ih]

theorem ahead_map (h : α → β) (x : Niche α) : (x.map h).ahead = x.ahead.map h := by
  rw [ahead, ahead, right_map, beyond_map, map_append]

@[simp] theorem ahead_here (b a : Forest α) : (here b a).ahead = a :=
  append_nil a

@[simp] theorem ahead_inside (b : Forest α) (o : α) (x : Niche α) (a : Forest α) :
    (inside b o x a).ahead = x.ahead ++ a := by
  rw [ahead, ahead, right, beyond, append_assoc]

theorem ahead_plant (x z : Niche α) : (x.plant z).ahead = z.ahead ++ x.beyond := by
  induction x with
  | here b a => rw [plant, beyond, append_nil]
  | inside b o x a ih => rw [plant, ahead_inside, ih, beyond, append_assoc]

@[simp] theorem set_self (x : Niche α) : x.set x.before x.after = x := by
  cases x <;> rfl

@[simp] theorem before_embed (g r : Forest α) (x : Niche α) : (x.embed g r).before = g ++ x.before := by
  cases x <;> rfl

@[simp] theorem after_embed (g r : Forest α) (x : Niche α) : (x.embed g r).after = x.after ++ r := by
  cases x <;> rfl

@[simp] theorem set_embed (g r b a : Forest α) (x : Niche α) : (x.embed g r).set b a = x.set b a := by
  cases x <;> rfl

theorem fill_embed (g r f : Forest α) (x : Niche α) : (x.embed g r).fill f = g ++ (x.fill f ++ r) := by
  cases x <;> simp [embed, set, before, after, fill, append_assoc]

theorem ahead_embed (g r : Forest α) (x : Niche α) : (x.embed g r).ahead = x.ahead ++ r := by
  cases x <;> simp [embed, set, before, after, append_assoc]

theorem ahead_set (b a : Forest α) (x : Niche α) : (x.set b a).ahead = (x.set nil nil).ahead ++ a := by
  cases x <;> simp [set]

/-- The node at the top of the niche that the gap, with a tree in it, belongs to. -/
def unit (a : α) (c : Forest α) : Niche α → α × Forest α
  | here _ _ => (a, c)
  | inside _ o x _ => (o, x.fill (tree a c))

theorem fill_set (b a : Forest α) (n : α) (c : Forest α) (x : Niche α) :
    (x.set b a).fill (tree n c) = b ++ cons (x.unit n c).1 (x.unit n c).2 a := by
  cases x <;> rfl

/-! ## Niches in contexts -/

/-- The frames that lead from the gap up to the top. -/
def frames : Niche Node → Context
  | here _ _ => []
  | inside b o x a => x.frames ++ [⟨b, o, a⟩]

theorem fill_eq_close (f : Forest Node) (x : Niche Node) :
    x.fill f = Context.close x.frames (x.left ++ (f ++ x.right)) := by
  induction x with
  | here b a => rfl
  | inside b o x a ih => rw [fill, ih, frames, Context.close_append, left, right]; rfl

theorem fill_plant (f : Forest Node) (x z : Niche Node) :
    (x.plant z).fill f = Context.close x.frames (z.fill f) := by
  induction x with
  | here b a => rfl
  | inside b o x a ih => rw [plant, fill, ih, frames, Context.close_append]; rfl

theorem rest_frames (x : Niche Node) : Context.rest x.frames = x.beyond := by
  induction x with
  | here b a => rfl
  | inside b o x a ih => rw [frames, Context.rest_append, ih, Context.rest_cons, Context.rest_nil,
      append_nil, beyond]

/-- The context below a node that fills the gap. -/
def inner (a : Node) (x : Niche Node) : Context :=
  ⟨x.left, a, x.right⟩ :: x.frames

theorem rest_inner (a : Node) (x : Niche Node) (ks : Context) :
    Context.rest (x.inner a ++ ks) = x.ahead ++ Context.rest ks := by
  rw [Context.rest_append, inner, Context.rest, rest_frames]
  rfl

end Niche

end HtmlTemplate
