import HtmlTemplate.Proofs.Directive.Registry
import HtmlTemplate.Proofs.Forest.Context
import Mathlib.Data.List.DropRight

/-! # Chains of conditions among siblings

`Registry.pieces?` reads siblings as pieces of chains: those that begin a condition, those that go on
with its first or its second branch, and plain ones. `arrange` says how they stand once all their
directives have run, and `Chained` when that goes well.

* A condition takes in what stands between its start and its last continuation.
* Of these, all up to the last bare `if` are in the first branch, and the rest in the second.
-/

namespace HtmlTemplate

open Forest

/-! ## Pieces -/

/-- What a node does to the chain of conditions among its siblings. One that begins a condition has
the number of the conditional and its test. -/
inductive Role where
  | start (number : NodeId) (test : String)
  | holds
  | fails
  | plain
  deriving DecidableEq, Repr

/-- A node among its siblings, in the loop and the condition that are its own. -/
structure Piece where
  role : Role
  unit : Forest Node
  deriving DecidableEq, Repr

/-- A conditional with its two branches. -/
def conditional (number : NodeId) (test : String) (holds fails : Forest Node) : Forest Node :=
  tree ⟨number, .conditional test⟩
    (cons ⟨number + 1, .branch⟩ holds (tree ⟨number + 2, .branch⟩ fails))

namespace Registry

/-- The names of the directives of an element, in the order in which they run. -/
def carried (r : Registry) (e : Element) : List String :=
  (r.ordered e).map fun x => x.2.name

/-- The element without its directives. -/
def bare (r : Registry) (e : Element) : Element :=
  { e with attributes := e.attributes.filter fun a => (r.directive? a.1).isNone }

/-- The parameter of a directive. -/
def given (r : Registry) (e : Element) (name : String) : Option AttrValue :=
  parameter? (e.get? (r.lead ++ name))

/-- A node as a piece, with the number after those of the nodes that are made for it. -/
def piece? (r : Registry) (d : Dialect) (next : NodeId) (a : Node) (c : Forest Node) :
    Option (Piece × NodeId) :=
  match a.kind with
  | .element e =>
    let self := tree ⟨a.id, .element (r.bare e)⟩ c
    let code := fun name => AttrValue.parameterCode d (r.given e name)
    let looped := tree ⟨next, .loop (code "foreach")⟩
    match r.carried e, r.given e "foreach", r.given e "if" with
    | [], _, _ => some (⟨.plain, self⟩, next)
    | ["foreach"], some _, _ => some (⟨.plain, looped self⟩, next + 1)
    | ["foreach", "if"], some _, some _ =>
      some (⟨.plain, looped (conditional (next + 1) (code "if") self nil)⟩, next + 4)
    | ["if"], _, some _ => some (⟨.start next (code "if"), self⟩, next + 3)
    | ["if"], _, none => some (⟨.holds, self⟩, next)
    | ["foreach", "if"], some _, none => some (⟨.holds, looped self⟩, next + 1)
    | ["else"], _, _ => some (⟨.fails, self⟩, next)
    | ["foreach", "else"], some _, _ => some (⟨.fails, looped self⟩, next + 1)
    | _, _, _ => none
  | .text _ | .code _ => some (⟨.plain, tree a c⟩, next)
  | _ => none

/-- Siblings as pieces. The nodes that are made for them are numbered in order. -/
def pieces? (r : Registry) (d : Dialect) : NodeId → Forest Node → Option (List Piece)
  | _, nil => some []
  | next, cons a c f =>
    match r.piece? d next a c with
    | none => none
    | some (x, next') => (pieces? r d next' f).map (x :: ·)

end Registry

/-! ## Segments -/

/-- The units of pieces side by side. -/
def units : List Piece → Forest Node
  | [] => nil
  | x :: xs => x.unit ++ units xs

/-- A piece that begins a condition, and the pieces up to the next such piece. -/
structure Segment where
  number : NodeId
  test : String
  first : Forest Node
  others : List Piece
  deriving DecidableEq, Repr

namespace Segment

/-- The pieces up to the last that goes on with the first branch. -/
def holding (s : Segment) : List Piece :=
  s.others.rdropWhile (·.role ≠ .holds)

/-- The pieces after these, up to the last that goes on with the second branch. -/
def failing (s : Segment) : List Piece :=
  (s.others.rtakeWhile (·.role ≠ .holds)).rdropWhile (·.role ≠ .fails)

/-- The pieces after all continuations. -/
def trailing (s : Segment) : List Piece :=
  (s.others.rtakeWhile (·.role ≠ .holds)).rtakeWhile (·.role ≠ .fails)

/-- How the pieces of a segment stand in the end. -/
def forest (s : Segment) : Forest Node :=
  conditional s.number s.test (s.first ++ units s.holding) (units s.failing) ++ units s.trailing

/-- No piece goes back from the second branch to the first. -/
def InOrder (s : Segment) : Prop :=
  s.others.Pairwise fun x y => ¬ (x.role = .fails ∧ y.role = .holds)

instance (s : Segment) : Decidable s.InOrder :=
  inferInstanceAs (Decidable (List.Pairwise _ _))

/-- The segment with more pieces. -/
def extend (s : Segment) (xs : List Piece) : Segment :=
  { s with others := s.others ++ xs }

/-- The segment with one more piece. -/
def add (s : Segment) (x : Piece) : Segment :=
  s.extend [x]

theorem extend_nil (s : Segment) : s.extend [] = s := by
  rw [extend, List.append_nil]

theorem extend_cons (s : Segment) (x : Piece) (xs : List Piece) :
    s.extend (x :: xs) = (s.add x).extend xs := by
  rw [extend, extend, add, extend, List.append_assoc, List.singleton_append]

end Segment

/-- The pieces before the first start, and the segments. -/
def segments : List Piece → List Piece × List Segment
  | [] => ([], [])
  | x :: xs =>
    match x.role with
    | .start number test => ([], ⟨number, test, x.unit, (segments xs).1⟩ :: (segments xs).2)
    | _ => (x :: (segments xs).1, (segments xs).2)

/-- Segments side by side. -/
def Segment.forests : List Segment → Forest Node
  | [] => nil
  | s :: ss => s.forest ++ forests ss

/-- How pieces stand in the end. -/
def arrange (xs : List Piece) : Forest Node :=
  units (segments xs).1 ++ Segment.forests (segments xs).2

/-- No piece goes on with a condition before one has begun, or goes back to a first branch. -/
def Chained (xs : List Piece) : Prop :=
  (∀ x ∈ (segments xs).1, x.role = .plain) ∧ ∀ s ∈ (segments xs).2, s.InOrder

instance (xs : List Piece) : Decidable (Chained xs) :=
  inferInstanceAs (Decidable (_ ∧ _))

/-! ## Adding a piece to a segment -/

theorem units_append (xs ys : List Piece) : units (xs ++ ys) = units xs ++ units ys := by
  induction xs with
  | nil => rfl
  | cons x xs ih => rw [List.cons_append, units, units, ih, Forest.append_assoc]

theorem units_singleton (x : Piece) : units [x] = x.unit := Forest.append_nil _

namespace Segment

variable {s : Segment} {x : Piece}

theorem others_eq (s : Segment) : s.holding ++ (s.failing ++ s.trailing) = s.others := by
  rw [holding, failing, trailing, List.rdropWhile_append_rtakeWhile, List.rdropWhile_append_rtakeWhile]

theorem trailing_subset (s : Segment) : s.trailing ⊆ s.others := by
  intro y hy
  rw [← s.others_eq]
  simp [hy]

theorem forest_begin (number : NodeId) (test : String) (first : Forest Node) :
    forest ⟨number, test, first, []⟩ = conditional number test first nil := by
  show conditional number test (first ++ nil) nil ++ nil = _
  rw [Forest.append_nil, Forest.append_nil]

theorem forest_add_plain (h : x.role = .plain) : (s.add x).forest = s.forest ++ x.unit := by
  have hholding : (s.add x).holding = s.holding :=
    List.rdropWhile_concat_pos _ _ _ (by simp [h])
  have hbehind : (s.add x).others.rtakeWhile (·.role ≠ .holds) =
      s.others.rtakeWhile (·.role ≠ .holds) ++ [x] := List.rtakeWhile_concat_pos _ _ _ (by simp [h])
  have hfailing : (s.add x).failing = s.failing := by
    rw [failing, hbehind]
    exact List.rdropWhile_concat_pos _ _ _ (by simp [h])
  have htrailing : (s.add x).trailing = s.trailing ++ [x] := by
    rw [trailing, hbehind]
    exact List.rtakeWhile_concat_pos _ _ _ (by simp [h])
  rw [forest, forest, hholding, hfailing, htrailing, units_append, units_singleton,
    Forest.append_assoc]
  rfl

/-- An `else` takes all between the conditional and itself into the second branch. -/
theorem forest_add_fails (h : x.role = .fails) :
    (s.add x).forest = conditional s.number s.test (s.first ++ units s.holding)
      (units s.failing ++ (units s.trailing ++ x.unit)) := by
  have hholding : (s.add x).holding = s.holding :=
    List.rdropWhile_concat_pos _ _ _ (by simp [h])
  have hbehind : (s.add x).others.rtakeWhile (·.role ≠ .holds) =
      s.others.rtakeWhile (·.role ≠ .holds) ++ [x] := List.rtakeWhile_concat_pos _ _ _ (by simp [h])
  have hfailing : (s.add x).failing = s.failing ++ (s.trailing ++ [x]) := by
    rw [failing, hbehind, List.rdropWhile_concat_neg _ _ _ (by simp [h]), failing, trailing,
      ← List.append_assoc, List.rdropWhile_append_rtakeWhile]
  have htrailing : (s.add x).trailing = [] := by
    rw [trailing, hbehind]
    exact List.rtakeWhile_concat_neg _ _ _ (by simp [h])
  rw [forest, hholding, hfailing, htrailing, units_append, units_append, units_singleton, units,
    Forest.append_nil]
  rfl

/-- A bare `if` takes all between the conditional and itself into the first branch, if there is
nothing in the second. -/
theorem forest_add_holds (h : x.role = .holds) (hs : s.failing = []) :
    (s.add x).forest = conditional s.number s.test
      (s.first ++ units s.holding ++ (units s.trailing ++ x.unit)) nil := by
  have hholding : (s.add x).holding = s.holding ++ (s.trailing ++ [x]) := by
    have hall : s.others = s.holding ++ s.trailing := by
      have hothers := s.others_eq
      rw [hs, List.nil_append] at hothers
      exact hothers.symm
    rw [holding, add, extend, List.rdropWhile_concat_neg _ _ _ (by simp [h]), hall, List.append_assoc]
  have hbehind : (s.add x).others.rtakeWhile (·.role ≠ .holds) = [] :=
    List.rtakeWhile_concat_neg _ _ _ (by simp [h])
  have hfailing : (s.add x).failing = [] := by
    rw [failing, hbehind, List.rdropWhile_nil]
  have htrailing : (s.add x).trailing = [] := by
    rw [trailing, hbehind, List.rtakeWhile_nil]
  rw [forest, hholding, hfailing, htrailing, units_append, units_append, units_singleton, units,
    Forest.append_nil, Forest.append_assoc]
  rfl

/-- A segment in order has something in its second branch if and only if it has an `else`. -/
theorem InOrder.failing_eq_nil_iff (h : s.InOrder) :
    s.failing = [] ↔ ∀ y ∈ s.others, y.role ≠ .fails := by
  rw [failing, List.rdropWhile_eq_nil_iff]
  constructor
  · intro hbehind y hy
    rw [← List.rdropWhile_append_rtakeWhile (p := (·.role ≠ .holds)) (l := s.others),
      List.mem_append] at hy
    rcases hy with hy | hy
    · -- The last piece of the first branch is a bare `if`, and no `else` stands before it.
      intro hfails
      have hne : s.others.rdropWhile (·.role ≠ .holds) ≠ [] := List.ne_nil_of_mem hy
      have hlast : ((s.others.rdropWhile (·.role ≠ .holds)).getLast hne).role = .holds :=
        not_not.1 (mt decide_eq_true (List.rdropWhile_last_not _ _ hne))
      have hpair : (s.others.rdropWhile (·.role ≠ .holds)).Pairwise
          fun x y => ¬ (x.role = .fails ∧ y.role = .holds) :=
        h.sublist (List.rdropWhile_prefix _ _).sublist
      rw [← List.dropLast_append_getLast hne] at hy hpair
      rcases List.mem_append.1 hy with hy | hy
      · exact (List.pairwise_append.1 hpair).2.2 y hy _ (List.mem_singleton_self _)
          ⟨hfails, hlast⟩
      · rw [List.mem_singleton.1 hy, hlast] at hfails
        cases hfails
    · simpa using hbehind y hy
  · intro hall y hy
    have hmem : y ∈ s.others := (List.rtakeWhile_suffix _ _).subset hy
    simpa using hall y hmem

theorem inOrder_add : (s.add x).InOrder ↔
    s.InOrder ∧ (x.role = .holds → ∀ y ∈ s.others, y.role ≠ .fails) := by
  rw [InOrder, add, extend, List.pairwise_append]
  constructor
  · rintro ⟨hs, -, hx⟩
    exact ⟨hs, fun hrole y hy hfails => hx y hy x (List.mem_singleton_self x) ⟨hfails, hrole⟩⟩
  · rintro ⟨hs, hx⟩
    refine ⟨hs, List.pairwise_singleton _ _, fun y hy z hz hboth => ?_⟩
    rw [List.mem_singleton.1 hz] at hboth
    exact hx hboth.2 y hy hboth.1

end Segment

theorem Segment.failing_subset (s : Segment) : s.failing ⊆ s.others := by
  intro y hy
  rw [← s.others_eq]
  simp [hy]

theorem Segment.InOrder.of_extend {s : Segment} {xs : List Piece} (h : (s.extend xs).InOrder) :
    s.InOrder :=
  (List.pairwise_append.1 h).1

theorem segments_start {x : Piece} {xs : List Piece} {number : NodeId} {test : String}
    (h : x.role = .start number test) :
    segments (x :: xs) =
      ([], Segment.extend ⟨number, test, x.unit, []⟩ (segments xs).1 :: (segments xs).2) := by
  rw [segments, h]
  rfl

theorem segments_other {x : Piece} {xs : List Piece} (h : ∀ number test, x.role ≠ .start number test) :
    segments (x :: xs) = (x :: (segments xs).1, (segments xs).2) := by
  rw [segments]
  split
  · exact absurd ‹_› (h _ _)
  · rfl

/-! ## The directives of a piece -/

theorem Element.get?_erase {e : Element} {name other : String} (h : other ≠ name) :
    (e.erase name).get? other = e.get? other := by
  have hlookup : ∀ as : List (String × AttrValue),
      (as.filter (·.1 != name)).lookup other = as.lookup other := by
    intro as
    induction as with
    | nil => rfl
    | cons a as ih =>
      obtain ⟨attr, value⟩ := a
      by_cases ha : attr = name
      · rw [List.filter_cons_of_neg (by simp [ha]), ih, List.lookup_cons, ha,
          beq_eq_false_iff_ne.2 h]
      · rw [List.filter_cons_of_pos (by simp [ha]), List.lookup_cons, List.lookup_cons, ih]
  exact hlookup e.attributes

namespace Registry

variable {r : Registry} {e : Element}

theorem eq_of_mem_ordered {x : String × Directive} (h : x ∈ r.ordered e) :
    r.get? x.2.name = some x.2 ∧ x.1 = r.lead ++ x.2.name := by
  obtain ⟨a, -, ha⟩ := List.mem_filterMap.1 ((r.ordered_perm e).mem_iff.1 h)
  obtain ⟨d, hd, rfl⟩ := Option.map_eq_some_iff.1 ha
  have hattr := eq_of_directive? hd
  refine ⟨?_, hattr⟩
  unfold directive? at hd
  split at hd
  · rwa [hattr, String.toList_append, List.drop_left, String.ofList_toList] at hd
  · cases hd

/-- The directives of an element are known by their names. -/
theorem ordered_eq (r : Registry) (e : Element) :
    r.ordered e = (r.carried e).filterMap fun name => (r.get? name).map fun d => (r.lead ++ name, d) := by
  have hall : ∀ l : List (String × Directive), l ⊆ r.ordered e →
      l = (l.map fun x => x.2.name).filterMap fun name =>
        (r.get? name).map fun d => (r.lead ++ name, d) := by
    intro l hl
    induction l with
    | nil => rfl
    | cons x l ih =>
      rw [List.cons_subset] at hl
      obtain ⟨hget, hattr⟩ := eq_of_mem_ordered hl.1
      rw [List.map_cons, List.filterMap_cons, hget, ← ih hl.2]
      simp [← hattr]
  exact hall _ (List.Subset.refl _)

theorem bare_eq (r : Registry) (e : Element) :
    r.bare e = (r.ordered e).foldl (fun e x => e.erase x.1) e := by
  have hfold : ∀ (l : List (String × Directive)) (e : Element),
      l.foldl (fun e x => e.erase x.1) e =
        { e with attributes := e.attributes.filter fun a => l.all fun x => a.1 != x.1 } := by
    intro l
    induction l with
    | nil => intro e; simp
    | cons x l ih =>
      intro e
      rw [List.foldl_cons, ih, Element.erase, List.filter_filter]
      simp only [List.all_cons, Bool.and_comm]
  rw [hfold, bare]
  congr 1
  refine List.filter_congr fun a ha => ?_
  rw [Bool.eq_iff_iff, List.all_eq_true, Option.isNone_iff_eq_none]
  constructor
  · intro hnone x hx
    refine bne_iff_ne.2 fun heq => ?_
    obtain ⟨b, -, hb⟩ := List.mem_filterMap.1 ((r.ordered_perm e).mem_iff.1 hx)
    obtain ⟨d, hd, rfl⟩ := Option.map_eq_some_iff.1 hb
    rw [← show a.1 = b.1 from heq, hnone] at hd
    cases hd
  · intro hall
    cases hd : r.directive? a.1 with
    | none => rfl
    | some d =>
      have hmem : (a.1, d) ∈ r.ordered e :=
        (r.ordered_perm e).mem_iff.2 (List.mem_filterMap.2 ⟨a, ha, by rw [hd]; rfl⟩)
      exact absurd rfl (bne_iff_ne.1 (hall _ hmem))

end Registry

end HtmlTemplate
