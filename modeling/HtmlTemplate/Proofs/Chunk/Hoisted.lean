import HtmlTemplate.Chunk
import HtmlTemplate.Dialect.Php
import HtmlTemplate.Tree.Edit
import Mathlib.Data.List.Basic
import Mathlib.Data.List.Perm.Basic

/-! # Code that is written

The output of a document has its eager fragments ahead of the body. Two walks through the document make
it: one collects the eager code nodes, the other writes everything and leaves eager fragments out. They
agree on code nodes (`filter_isEager_sequence`), but only the second comes to what attributes hold.
-/

namespace HtmlTemplate

open Forest
open scoped List

namespace Chunk

def isCode : Chunk → Bool
  | code _ => true
  | text _ => false

variable {p : Chunk → Bool}

/-- Joining texts leaves all code as it is. -/
theorem filter_push (hp : ∀ s, p (text s) = false) (c : Chunk) (cs : List Chunk) :
    (push c cs).filter p = (c :: cs).filter p := by
  cases c with
  | code f => rfl
  | text s =>
    cases cs with
    | nil =>
      rw [push]
      split
      · simp [hp]
      · rfl
      · rintro _ _ ⟨⟩
    | cons c' cs =>
      cases c' with
      | text t => simp [push, hp]
      | code f =>
        rw [push]
        split
        · simp [hp]
        · rfl
        · rintro _ _ ⟨⟩

theorem filter_join (hp : ∀ s, p (text s) = false) (cs : List Chunk) :
    (join cs).filter p = cs.filter p := by
  induction cs with
  | nil => rfl
  | cons c cs ih => rw [join, filter_push hp, List.filter_cons, List.filter_cons, ih]

end Chunk

/-! ## Fragments of a node -/

namespace Kind

/-- The fragments that the attributes of an element hold. -/
def held : Kind → List Chunk
  | element e => e.attributes.filterMap fun a =>
      match a.2 with
      | .code f => some (.code f)
      | .text _ => none
  | _ => []

/-- The fragment of a code node. -/
def own : Kind → List Chunk
  | code f => [.code f]
  | _ => []

/-- What stands below a node is written: a conditional has two branches, and below text, code and void
elements there is nothing. -/
def Writes (k : Kind) (below : List Kind) : Prop :=
  match k with
  | conditional _ => below = [branch, branch]
  | text _ | code _ => below = []
  | element e => isVoid e.tag = true → below = []
  | _ => True

instance (k : Kind) (below : List Kind) : Decidable (k.Writes below) := by
  unfold Writes
  cases k <;> infer_instance

end Kind

namespace Forest

/-- Of every node, what stands below it is written. -/
def Written : Forest Kind → Prop
  | nil => True
  | cons k c r => k.Writes c.roots ∧ Written c ∧ Written r

instance decidableWritten : (f : Forest Kind) → Decidable f.Written
  | nil => isTrue trivial
  | cons k c r =>
    have := decidableWritten c
    have := decidableWritten r
    inferInstanceAs (Decidable (k.Writes c.roots ∧ c.Written ∧ r.Written))

end Forest

theorem Forest.eq_nil_of_roots {α : Type} {f : Forest α} (h : f.roots = []) : f = nil := by
  cases f with
  | nil => rfl
  | cons => cases h

section Eager

variable {d : Dialect} {f : Forest Kind}

@[simp] theorem isEager_text (s : String) : (Chunk.text s).isEager = false := rfl

@[simp] theorem isEager_statement (code : String) :
    (Chunk.code (Fragment.statement code)).isEager = false := rfl

theorem filter_attributes {p : Chunk → Bool} (hp : ∀ s, p (.text s) = false)
    (attributes : List (String × AttrValue)) :
    (attributes.flatMap Element.attributeChunks).filter p =
      (attributes.filterMap fun a => match a.2 with
        | .code f => some (Chunk.code f)
        | .text _ => none).filter p := by
  induction attributes with
  | nil => rfl
  | cons a attributes ih =>
    rw [List.flatMap_cons, List.filter_append, ih]
    obtain ⟨name, value⟩ := a
    cases value with
    | text t => simp [Element.attributeChunks, hp]
    | code f =>
      have hhere : (Element.attributeChunks (name, .code f)).filter p = [Chunk.code f].filter p := by
        simp [Element.attributeChunks, List.filter_cons, hp]
      rw [hhere, ← List.filter_append]
      rfl

/-- Of what is written for an element, the fragments are those it holds and those below it. -/
theorem filter_element {p : Chunk → Bool} (hp : ∀ s, p (.text s) = false) {e : Element} {c : Forest Kind}
    (he : (Kind.element e).Writes c.roots) :
    ((Kind.element e).chunks d (c.blocks d)).filter p =
      (Kind.element e).held.filter p ++ (Block.sequence (c.blocks d)).filter p := by
  have hstart : e.startChunks.filter p = (Kind.element e).held.filter p := by
    rw [Kind.held, ← filter_attributes hp]
    simp [Element.startChunks, hp]
  rw [Kind.chunks]
  split
  · rename_i hvoid
    rw [eq_nil_of_roots (he hvoid), hstart]
    simp [blocks, Block.sequence]
  · rw [List.filter_append, List.filter_append, hstart]
    simp [hp]

/-- The eager fragments of a node are those it holds itself and those below it. -/
theorem filter_isEager_chunks {k : Kind} {c : Forest Kind} (hk : k.Writes c.roots) :
    (k.chunks d (c.blocks d)).filter Chunk.isEager =
      (k.held ++ k.own).filter Chunk.isEager ++
        (Block.sequence (c.blocks d)).filter Chunk.isEager := by
  cases k with
  | document => rfl
  | branch => rfl
  | text t =>
    rw [eq_nil_of_roots hk]
    rfl
  | code f =>
    rw [eq_nil_of_roots hk]
    simp [Kind.chunks, Kind.held, Kind.own, blocks, Block.sequence]
  | element e =>
    have hown : (Kind.element e).own = [] := rfl
    rw [filter_element isEager_text hk, hown, List.append_nil]
  | conditional test =>
    obtain ⟨c₁, c₂, rfl⟩ : ∃ c₁ c₂, c = cons .branch c₁ (cons .branch c₂ nil) := by
      match c, hk with
      | cons _ c₁ (cons _ c₂ nil), hk =>
        obtain ⟨rfl, rfl⟩ : _ = Kind.branch ∧ _ = Kind.branch := by simpa [Kind.Writes, roots] using hk
        exact ⟨c₁, c₂, rfl⟩
    -- A second branch with nothing in it is not written, and there is nothing in it to be lost.
    cases c₂ with
    | nil => simp [Kind.chunks, Kind.held, Kind.own, blocks, Block.sequence, Forest.isEmpty]
    | cons k' c' r' => simp [Kind.chunks, Kind.held, Kind.own, blocks, Block.sequence, Forest.isEmpty]
  | loop binding => simp [Kind.chunks, Kind.held, Kind.own]

/-- The eager fragments of what is written are those of the nodes, in document order. -/
theorem filter_isEager_sequence (hf : f.Written) :
    (Block.sequence (f.blocks d)).filter Chunk.isEager =
      f.preorder.flatMap fun k => (k.held ++ k.own).filter Chunk.isEager := by
  induction f with
  | nil => rfl
  | cons k c r ihc ihr =>
    obtain ⟨hk, hc, hr⟩ := hf
    rw [blocks, Block.sequence, List.flatMap_cons, List.filter_append, filter_isEager_chunks hk, ihc hc,
      preorder_cons, List.flatMap_cons, List.flatMap_append, List.append_assoc]
    exact congrArg _ (congrArg _ (ihr hr))

end Eager

/-! ## The output of a document -/

namespace Tree

variable {d : Dialect} {t : Tree}

/-- The eager fragments that attributes of the document hold, in document order. -/
def heldEager (t : Tree) : List Chunk :=
  (t.kindsAt root).preorder.flatMap fun k => k.held.filter Chunk.isEager

theorem hoisted_eq (t : Tree) :
    t.hoisted = (t.kindsAt root).preorder.flatMap fun k => k.own.filter Chunk.isEager := by
  rw [hoisted]
  induction (t.kindsAt root).preorder with
  | nil => rfl
  | cons k ks ih =>
    rw [List.flatMap_cons, List.filterMap_cons, ih]
    cases k with
    | code f =>
      cases hf : f.isEager <;> simp [Kind.own, Chunk.isEager, hf]
    | _ => rfl

theorem filter_isEager_root (hwritten : (t.kindsAt root).Written) :
    (t.chunks d root).filter Chunk.isEager =
      (t.kindsAt root).preorder.flatMap fun k => (k.held ++ k.own).filter Chunk.isEager := by
  rw [chunks, Forest.chunks, Chunk.filter_join isEager_text, filter_isEager_sequence hwritten]

/-- Where attributes hold no eager fragments, both walks come to the same ones in the same order. -/
theorem hoisted_of_heldEager (hwritten : (t.kindsAt root).Written) (hheld : t.heldEager = []) :
    t.hoisted = (t.chunks d root).filter Chunk.isEager := by
  rw [filter_isEager_root hwritten, hoisted_eq]
  refine List.flatMap_congr fun k hk => ?_
  rw [List.filter_append, List.flatMap_eq_nil_iff.1 hheld k hk, List.nil_append]

theorem filter_isCode_isEager (cs : List Chunk) :
    (cs.filter Chunk.isCode).filter Chunk.isEager = cs.filter Chunk.isEager := by
  refine (List.filter_filter ..).trans (List.filter_congr fun c _ => ?_)
  cases c <;> simp [Chunk.isCode]

theorem body_of_main (hmain : t.main? = none) :
    t.body d = (t.chunks d root).filter (!·.isEager) := by
  rw [body, hmain, Option.getD_none]

theorem filter_isCode_body (hmain : t.main? = none) :
    (t.body d).filter Chunk.isCode = ((t.chunks d root).filter Chunk.isCode).filter (!·.isEager) := by
  rw [body_of_main hmain, List.filter_filter, List.filter_filter]
  exact List.filter_congr fun c _ => Bool.and_comm ..

/-- Of a document without a marked node all code is written, once, but for the eager fragments that
attributes hold. If they hold none, the output is the eager fragments of the document in their order, and
then the rest of it. -/
theorem serialize_codes (d : Dialect) (t : Tree) (hwritten : (t.kindsAt root).Written)
    (hmain : t.main? = none) :
    let codes := t.hoisted ++ (t.body d).filter Chunk.isCode
    codes ++ t.heldEager ~ (t.chunks d root).filter Chunk.isCode ∧
      (t.heldEager = [] →
        codes ~ (t.chunks d root).filter Chunk.isCode ∧
        t.serialize d = Chunk.emit d ((t.chunks d root).filter Chunk.isEager) ++
          Chunk.emit d ((t.chunks d root).filter (!·.isEager))) := by
  intro codes
  have heager : t.hoisted ++ t.heldEager ~ (t.chunks d root).filter Chunk.isEager := by
    rw [filter_isEager_root hwritten, hoisted_eq]
    simp only [List.filter_append]
    exact List.perm_append_comm.trans (List.flatMap_append_perm ..)
  have hperm : codes ++ t.heldEager ~ (t.chunks d root).filter Chunk.isCode := by
    calc codes ++ t.heldEager
        ~ (t.hoisted ++ t.heldEager) ++ (t.body d).filter Chunk.isCode := by
          rw [List.append_assoc, List.append_assoc]
          exact List.perm_append_comm.append_left _
      _ ~ (t.chunks d root).filter Chunk.isEager ++ (t.body d).filter Chunk.isCode :=
          heager.append_right _
      _ ~ (t.chunks d root).filter Chunk.isCode := by
          rw [filter_isCode_body hmain, ← filter_isCode_isEager]
          exact List.filter_append_perm ..
  refine ⟨hperm, fun hheld => ⟨?_, ?_⟩⟩
  · rwa [hheld, List.append_nil] at hperm
  · rw [serialize, hoisted_of_heldEager hwritten hheld, body_of_main hmain]

/-- A layout that is declared within the second branch of a condition comes ahead of all output. -/
theorem serialize_codes_branch :
    let t := (((((empty.create (.conditional "$a")).append root 1).create
      (.code (Fragment.eager "$this->disableLayout()"))).append 3 4).create
        (.element ⟨"br", [("class", .code (Fragment.expression "$b"))]⟩)).append 3 5
    (t.kindsAt root).Written ∧ t.main? = none ∧ t.heldEager = [] ∧
      t.hoisted ++ (t.body .php).filter Chunk.isCode ~ (t.chunks .php root).filter Chunk.isCode := by
  intro t
  have hwritten : (t.kindsAt root).Written := by decide
  have hmain : t.main? = none := by decide
  have hheld : t.heldEager = [] := by decide
  exact ⟨hwritten, hmain, hheld, ((serialize_codes .php t hwritten hmain).2 hheld).1⟩

/-- An eager fragment that an attribute holds is not written at all. -/
theorem serialize_drops_held :
    let t := (empty.create (.element ⟨"p", [("a", .code (Fragment.eager "$x"))]⟩)).append root 1
    (t.kindsAt root).Written ∧ t.main? = none ∧ t.serialize .php = "<p a=\"\"></p>" ∧
      ¬ t.hoisted ++ (t.body .php).filter Chunk.isCode ~ (t.chunks .php root).filter Chunk.isCode := by
  refine ⟨by decide, by decide, by decide +kernel, fun h => ?_⟩
  have hlength := h.length_eq
  revert hlength
  decide

end Tree

end HtmlTemplate
