import HtmlTemplate.Proofs.Chunk.Buffer
import HtmlTemplate.Proofs.Chunk.Hoisted
import HtmlTemplate.Proofs.Directive.Shown
import HtmlTemplate.Proofs.Forest.Late

/-! # What is written apart from eager fragments

The body of a document is written without eager fragments, and is the same as that of the document without
the nodes that hold them (`filter_shown_late`), up to texts that they keep apart.
-/

namespace HtmlTemplate

open Forest

/-! ## Texts kept apart -/

namespace Chunk

theorem push_push (s t : String) (cs : List Chunk) :
    push (text s) (push (text t) cs) = push (text (s ++ t)) cs := by
  have hcs (hcs : ∀ u, push (text u) cs = if u = "" then cs else text u :: cs) :
      push (text s) (push (text t) cs) = push (text (s ++ t)) cs := by
    rw [hcs, hcs]
    by_cases ht : t = ""
    · rw [if_pos ht, ht, String.append_empty, hcs]
    · have hst : s ++ t ≠ "" := fun h => ht (String.append_eq_empty_iff.1 h).2
      rw [if_neg ht, if_neg hst]
      rfl
  match cs with
  | [] => exact hcs fun _ => rfl
  | text u :: cs => exact congrArg (text · :: cs) (String.append_assoc ..).symm
  | code f :: cs => exact hcs fun _ => rfl

/-- Chunks that are taken out leave texts side by side. -/
theorem join_filter_join {p : Chunk → Bool} (hp : ∀ s, p (text s) = true) (cs : List Chunk) :
    join ((join cs).filter p) = join (cs.filter p) := by
  induction cs with
  | nil => rfl
  | cons c cs ih =>
    cases c with
    | code f =>
      rw [join, push, List.filter_cons, List.filter_cons]
      split
      · rw [join, join, ih]
      · exact ih
    | text s =>
      rw [List.filter_cons, if_pos (hp s), join, join, ← ih]
      generalize join cs = l
      have hl (hl : push (text s) l = if s = "" then l else text s :: l) :
          join ((push (text s) l).filter p) = push (text s) (join (l.filter p)) := by
        rw [hl]
        split
        · rename_i hs
          rw [hs, push_empty]
        · rw [List.filter_cons, if_pos (hp s), join]
      rcases l with _ | ⟨t | f, l⟩
      · exact hl rfl
      · rw [push, List.filter_cons, if_pos (hp _), join, List.filter_cons, if_pos (hp t), join, push_push]
      · exact hl rfl

end Chunk

/-! ## Blocks -/

namespace Block

/-- A block without eager fragments. -/
def late (b : Block) : Block :=
  ⟨b.chunks.filter (!·.isEager), b.filled⟩

theorem filter_sequence (bs : List Block) :
    (sequence bs).filter (!·.isEager) = sequence (bs.map late) := by
  rw [sequence, sequence, List.filter_flatMap, List.flatMap_map]
  rfl

end Block

namespace Kind

variable {d : Dialect} {inner inner' : List Block}

/-- Around blocks that are written alike a conditional is written alike. -/
theorem filter_conditional (test : String) (h : inner.map Block.late = inner'.map Block.late) :
    ((conditional test).chunks d inner).filter (!·.isEager) =
      ((conditional test).chunks d inner').filter (!·.isEager) := by
  have hhead : inner.head?.map Block.late = inner'.head?.map Block.late := by
    rw [← List.head?_map, ← List.head?_map, h]
  have hfirst : (Block.sequence inner.head?.toList).filter (!·.isEager) =
      (Block.sequence inner'.head?.toList).filter (!·.isEager) := by
    rw [Block.filter_sequence, Block.filter_sequence, ← Option.toList_map, ← Option.toList_map, hhead]
  have hlast : inner.getLast?.map Block.late = inner'.getLast?.map Block.late := by
    rw [← List.getLast?_map, ← List.getLast?_map, h]
  rw [chunks, chunks]
  cases hb : inner.getLast? with
  | none =>
    rw [hb] at hlast
    simp only [Option.map_eq_none_iff.1 hlast.symm, List.filter_cons, List.filter_append, hfirst]
  | some b =>
    rw [hb] at hlast
    obtain ⟨b', hb', hlate⟩ := Option.map_eq_some_iff.1 hlast.symm
    obtain ⟨hchunks, hfilled⟩ := Block.mk.inj hlate
    simp only [hb', hfilled, List.filter_cons, List.filter_append, hfirst]
    cases b.filled with
    | false => rfl
    | true => simp only [if_true, List.filter_cons, hchunks]

/-- Around what is written alike a node is written alike, unless it is a conditional. -/
theorem filter_chunks {k : Kind} (hk : k.isConditional = false)
    (h : (Block.sequence inner).filter (!·.isEager) = (Block.sequence inner').filter (!·.isEager)) :
    (k.chunks d inner).filter (!·.isEager) = (k.chunks d inner').filter (!·.isEager) := by
  cases k with
  | document | branch => exact h
  | text | code => rfl
  | element e =>
    rw [chunks, chunks]
    split
    · rfl
    · simp only [List.filter_append, h]
  | conditional test => cases hk
  | loop binding => simp only [chunks, List.filter_cons, List.filter_append, h]

end Kind

theorem Kind.bears.filter {k : Kind} {l : List Kind} (h : k.bears l) : k.bears (l.filter isLate) := by
  cases k with
  | loop | conditional => exact fun x hx => h x (List.mem_filter.1 hx).1
  | branch =>
    rcases h with rfl | ⟨x, hx, hlate⟩
    · exact Or.inl rfl
    · exact Or.inr ⟨x, List.mem_filter.2 ⟨hx, hlate⟩, hlate⟩
  | code =>
    rw [show l = [] from h]
    rfl
  | document | element | text => trivial

theorem Kind.exists_eager {k : Kind} (h : k.isLate = false) : ∃ f, k = .code f ∧ f.isEager = true := by
  cases k with
  | code f =>
    refine ⟨f, rfl, ?_⟩
    cases hf : f.isEager with
    | true => rfl
    | false => simp [isLate, eager?, hf] at h
  | document | element | text | conditional | branch | loop => cases h

namespace Forest

variable {d : Dialect} {f c : Forest Node}

/-- What is written of two forests is the same apart from eager fragments, and so is each branch of a
conditional. -/
def Alike (d : Dialect) (f g : Forest Node) : Prop :=
  (Block.sequence (f.kinds.blocks d)).filter (!·.isEager) =
      (Block.sequence (g.kinds.blocks d)).filter (!·.isEager) ∧
    ((∀ k ∈ f.rootKinds, k = .branch) →
      (f.kinds.blocks d).map Block.late = (g.kinds.blocks d).map Block.late)

theorem Alike.chunks {k : Kind} (h : c.Alike d f) (hk : k.bears c.rootKinds) :
    (k.chunks d (c.kinds.blocks d)).filter (!·.isEager) =
      (k.chunks d (f.kinds.blocks d)).filter (!·.isEager) := by
  cases hconditional : k.isConditional with
  | false => exact Kind.filter_chunks hconditional h.1
  | true =>
    have hbranches := h.2 (Kind.eq_branch_of_bears hconditional hk)
    cases k with
    | conditional test => exact Kind.filter_conditional test hbranches
    | document | element | text | code | branch | loop => cases hconditional

theorem isEmpty_kinds (f : Forest Node) : f.kinds.isEmpty = f.isEmpty := by
  cases f <;> rfl

theorem alike_late (hf : f.Firm) : f.Alike d f.late := by
  induction f with
  | nil => exact ⟨rfl, fun _ => rfl⟩
  | cons a c r ihc ihr =>
    obtain ⟨-, hbears, hc, hr⟩ := hf
    have hchunks := (ihc hc).chunks hbears
    cases ha : a.kind.isLate with
    | true =>
      rw [late_cons ha]
      constructor
      · rw [kinds_cons, kinds_cons, blocks, blocks, Block.sequence, Block.sequence, List.flatMap_cons,
          List.flatMap_cons, List.filter_append, List.filter_append, hchunks]
        exact congrArg _ (ihr hr).1
      · intro hroots
        rw [rootKinds_cons, List.forall_mem_cons] at hroots
        have hempty : c.late.kinds.isEmpty = c.kinds.isEmpty := by
          rw [isEmpty_kinds, isEmpty_kinds]
          rw [hroots.1] at hbears
          exact isEmpty_late hbears
        rw [kinds_cons, kinds_cons, blocks, blocks, List.map_cons, List.map_cons, (ihr hr).2 hroots.2,
          Block.late, Block.late, hchunks, hempty]
    | false =>
      rw [late_cons_eager ha]
      obtain ⟨x, hx, heager⟩ := Kind.exists_eager ha
      constructor
      · rw [kinds_cons, blocks, Block.sequence, List.flatMap_cons, List.filter_append, hx]
        rw [show ((Kind.code x).chunks d (c.kinds.blocks d)).filter (!·.isEager) = [] by
          simp [Kind.chunks, Chunk.isEager, heager]]
        exact (ihr hr).1
      · intro hroots
        rw [rootKinds_cons, List.forall_mem_cons, hx] at hroots
        cases hroots.1

/-! ## The marked node -/

theorem firm_late (hf : f.Firm) : f.late.Firm := by
  induction f with
  | nil => trivial
  | cons a c r ihc ihr =>
    obtain ⟨-, hbears, hc, hr⟩ := hf
    cases ha : a.kind.isLate with
    | false =>
      rw [late_cons_eager ha]
      exact ihr hr
    | true =>
      rw [late_cons ha, firm_cons ha, rootKinds_late]
      exact ⟨hbears.filter, ihc hc, ihr hr⟩

theorem find?_late {n : NodeId} (hf : f.Firm) (hn : n ≠ Tree.root) :
    f.late.find? n = (f.find? n).map fun x => (x.1, x.2.late) := by
  induction f with
  | nil => rfl
  | cons a c r ihc ihr =>
    obtain ⟨hid, hbears, hc, hr⟩ := hf
    cases ha : a.kind.isLate with
    | true =>
      rw [late_cons ha, find?, find?, ihc hc, ihr hr]
      split
      · rfl
      · cases c.find? n <;> rfl
    | false =>
      obtain ⟨x, hx, -⟩ := Kind.exists_eager ha
      have hnil : c = nil := by
        rw [hx] at hbears
        cases c with
        | nil => rfl
        | cons => cases hbears
      rw [late_cons_eager ha, find?, if_neg fun h => hn (h.symm.trans (hid ha)), ihr hr, hnil]
      rfl

theorem firm_of_find? {n : NodeId} {k : Kind} (hf : f.Firm) (h : f.find? n = some (k, c)) :
    k.bears c.rootKinds ∧ c.Firm := by
  obtain ⟨r, -, hbears, hc, -⟩ := exists_cons_of_find? (P := Firm) (fun h => h.2.2) hf h
  exact ⟨hbears, hc⟩

/-- What is written of a document is the same without eager fragments. -/
theorem filter_shown_late (hf : f.Firm) {marked : Option NodeId} (hmarked : marked ≠ some Tree.root) :
    (Block.sequence ((f.shown marked).blocks d)).filter (!·.isEager) =
      (Block.sequence ((f.late.shown marked).blocks d)).filter (!·.isEager) := by
  have htree {k : Kind} {c : Forest Node} (hk : k.bears c.rootKinds) (hc : c.Firm) :
      (Block.sequence ((tree k c.kinds).blocks d)).filter (!·.isEager) =
        (Block.sequence ((tree k c.late.kinds).blocks d)).filter (!·.isEager) := by
    simpa [tree, blocks, Block.sequence] using (alike_late hc).chunks hk
  unfold shown
  cases marked with
  | none => exact htree trivial hf
  | some n =>
    have hn : n ≠ Tree.root := fun h => hmarked (congrArg some h)
    rw [Option.bind_some, Option.bind_some, find?_late hf hn]
    cases hfind : f.find? n with
    | none => exact htree trivial hf
    | some x =>
      obtain ⟨hbears, hx⟩ := firm_of_find? (k := x.1) (c := x.2) hf hfind
      exact htree hbears hx

end Forest

end HtmlTemplate
