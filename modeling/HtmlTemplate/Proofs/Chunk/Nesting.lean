import HtmlTemplate.Node

/-! # Words of brackets

The output of a document opens and closes conditions, loops and captured blocks. A word of such
brackets is nested if each is closed by its own kind, with all that was opened since closed before it,
and if a condition goes over to its alternative at most once. Reading a word with a stack of what is
open decides that (`nested_iff`).
-/

namespace HtmlTemplate

/-- What begins or ends a part of the output. A block goes by the number of the node that begins it. -/
inductive Bracket where
  | beginIf
  | beginElse
  | endIf
  | beginLoop
  | endLoop
  | beginBlock (n : NodeId)
  | endBlock (n : NodeId)
  deriving DecidableEq, Repr

namespace Bracket

inductive Nested : List Bracket → Prop
  | nil : Nested []
  | append {u v : List Bracket} (hu : Nested u) (hv : Nested v) : Nested (u ++ v)
  | condition {u : List Bracket} (hu : Nested u) : Nested (beginIf :: (u ++ [endIf]))
  | alternative {u v : List Bracket} (hu : Nested u) (hv : Nested v) :
      Nested (beginIf :: (u ++ beginElse :: (v ++ [endIf])))
  | loop {u : List Bracket} (hu : Nested u) : Nested (beginLoop :: (u ++ [endLoop]))
  | block {u : List Bracket} (n : NodeId) (hu : Nested u) :
      Nested (beginBlock n :: (u ++ [endBlock n]))

/-- Something open: a condition before or after its alternative begins, a loop or a block. -/
inductive Opened where
  | first
  | second
  | loop
  | block (n : NodeId)
  deriving DecidableEq, Repr

/-- What is open after a bracket, the innermost first. There is none if the bracket does not fit. -/
def step (st : List Opened) : Bracket → Option (List Opened)
  | beginIf => some (.first :: st)
  | beginElse =>
    match st with
    | .first :: outer => some (.second :: outer)
    | _ => none
  | endIf =>
    match st with
    | .first :: outer | .second :: outer => some outer
    | _ => none
  | beginLoop => some (.loop :: st)
  | endLoop =>
    match st with
    | .loop :: outer => some outer
    | _ => none
  | beginBlock n => some (.block n :: st)
  | endBlock n =>
    match st with
    | .block m :: outer => if m = n then some outer else none
    | _ => none

def read (st : List Opened) (w : List Bracket) : Option (List Opened) :=
  w.foldlM step st

variable {st : List Opened} {b : Bracket} {u v w : List Bracket}

@[simp] theorem read_nil (st : List Opened) : read st [] = some st := rfl

@[simp] theorem read_cons (st : List Opened) (b : Bracket) (w : List Bracket) :
    read st (b :: w) = (step st b).bind (read · w) := rfl

@[simp] theorem read_append (st : List Opened) (u v : List Bracket) :
    read st (u ++ v) = (read st u).bind (read · v) :=
  List.foldlM_append ..

/-- A nested word leaves open what was open. -/
theorem Nested.read_eq (h : Nested w) (st : List Opened) : read st w = some st := by
  induction h generalizing st with
  | nil => rfl
  | append _ _ ihu ihv => simp [ihu, ihv]
  | condition _ ihu => simp [step, ihu]
  | alternative _ _ ihu ihv => simp [step, ihu, ihv]
  | loop _ ihu => simp [step, ihu]
  | block n _ ihu => simp [step, ihu]

/-! ## Reading decides nesting -/

/-- The word closes all that is open, in its order, with nested words in between. -/
def Closes : List Opened → List Bracket → Prop
  | [], w => Nested w
  | .first :: outer, w => ∃ u v, Nested u ∧ (w = u ++ endIf :: v ∧ Closes outer v ∨
      ∃ v', Nested v ∧ w = u ++ beginElse :: (v ++ endIf :: v') ∧ Closes outer v')
  | .second :: outer, w => ∃ u v, Nested u ∧ w = u ++ endIf :: v ∧ Closes outer v
  | .loop :: outer, w => ∃ u v, Nested u ∧ w = u ++ endLoop :: v ∧ Closes outer v
  | .block n :: outer, w => ∃ u v, Nested u ∧ w = u ++ endBlock n :: v ∧ Closes outer v

theorem Closes.prepend (hu : Nested u) (h : Closes st w) : Closes st (u ++ w) := by
  cases st with
  | nil => exact hu.append h
  | cons o outer =>
    cases o with
    | first =>
      obtain ⟨u', v, hu', h⟩ := h
      refine ⟨u ++ u', v, hu.append hu', ?_⟩
      rcases h with ⟨rfl, hv⟩ | ⟨v', hv, rfl, hv'⟩
      · exact Or.inl ⟨by simp, hv⟩
      · exact Or.inr ⟨v', hv, by simp, hv'⟩
    | second | loop | block n =>
      obtain ⟨u', v, hu', rfl, hv⟩ := h
      exact ⟨u ++ u', v, hu.append hu', by simp, hv⟩

/-- A bracket in front of a word that closes what is open behind it. -/
theorem Closes.step {st' : List Opened} (hb : step st b = some st') (h : Closes st' w) :
    Closes st (b :: w) := by
  cases b with
  | beginIf =>
    cases hb
    obtain ⟨u, v, hu, ⟨rfl, hv⟩ | ⟨v', hv, rfl, hv'⟩⟩ := h
    · have hword : beginIf :: (u ++ endIf :: v) = beginIf :: (u ++ [endIf]) ++ v := by simp
      rw [hword]
      exact hv.prepend hu.condition
    · have hword : beginIf :: (u ++ beginElse :: (v ++ endIf :: v')) =
          beginIf :: (u ++ beginElse :: (v ++ [endIf])) ++ v' := by simp
      rw [hword]
      exact hv'.prepend (hu.alternative hv)
  | beginLoop =>
    cases hb
    obtain ⟨u, v, hu, rfl, hv⟩ := h
    have hword : beginLoop :: (u ++ endLoop :: v) = beginLoop :: (u ++ [endLoop]) ++ v := by simp
    rw [hword]
    exact hv.prepend hu.loop
  | beginBlock n =>
    cases hb
    obtain ⟨u, v, hu, rfl, hv⟩ := h
    have hword : beginBlock n :: (u ++ endBlock n :: v) = beginBlock n :: (u ++ [endBlock n]) ++ v := by
      simp
    rw [hword]
    exact hv.prepend (hu.block n)
  | beginElse =>
    dsimp only [Bracket.step] at hb
    split at hb
    · cases hb
      obtain ⟨u, v, hu, rfl, hv⟩ := h
      exact ⟨[], u, .nil, Or.inr ⟨v, hu, rfl, hv⟩⟩
    · cases hb
  | endIf =>
    dsimp only [Bracket.step] at hb
    split at hb
    · cases hb
      exact ⟨[], w, .nil, Or.inl ⟨rfl, h⟩⟩
    · cases hb
      exact ⟨[], w, .nil, rfl, h⟩
    · cases hb
  | endLoop =>
    dsimp only [Bracket.step] at hb
    split at hb
    · cases hb
      exact ⟨[], w, .nil, rfl, h⟩
    · cases hb
  | endBlock n =>
    dsimp only [Bracket.step] at hb
    split at hb
    · split at hb
      · rename_i hn
        cases hb
        exact ⟨[], w, .nil, by rw [hn]; rfl, h⟩
      · cases hb
    · cases hb

theorem closes_of_read (h : read st w = some []) : Closes st w := by
  induction w generalizing st with
  | nil =>
    cases h
    exact .nil
  | cons b w ih =>
    rw [read_cons, Option.bind_eq_some_iff] at h
    obtain ⟨st', hb, hw⟩ := h
    exact (ih hw).step hb

theorem nested_iff : Nested w ↔ read [] w = some [] :=
  ⟨fun h => h.read_eq [], closes_of_read⟩

instance (w : List Bracket) : Decidable (Nested w) :=
  decidable_of_iff _ nested_iff.symm

end Bracket

end HtmlTemplate
