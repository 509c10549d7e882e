import HtmlTemplate.Dialect.Php
import HtmlTemplate.Proofs.Markup.Plain
import HtmlTemplate.Proofs.Tree.Traversal

/-! # Chunks are a normal form of the output

Joining texts leaves no empty text and no two texts side by side (`normal_join`), and loses nothing of the output
(`emit_join`). Written out, the chunks of a node are its own text around those of its children, each rendered on its
own, and this alone fixes the output of every node (`chunks_normal_form`).
-/

namespace HtmlTemplate

open Forest

namespace Chunk

def isText : Chunk → Bool
  | text _ => true
  | code _ => false

/-- No text is empty, and no two texts stand side by side. -/
def Normal (cs : List Chunk) : Prop :=
  text "" ∉ cs ∧ cs.IsChain fun a b => ¬ (a.isText = true ∧ b.isText = true)

theorem normal_nil : Normal [] :=
  ⟨List.not_mem_nil, .nil⟩

theorem normal_code_cons {f : Fragment} {cs : List Chunk} : Normal (code f :: cs) ↔ Normal cs := by
  cases cs with
  | nil => simp [Normal]
  | cons c cs => simp [Normal, isText]

theorem normal_text_cons {s : String} {cs : List Chunk} :
    Normal (text s :: cs) ↔ s ≠ "" ∧ Normal cs ∧ ∀ t, cs.head? ≠ some (text t) := by
  rcases cs with _ | ⟨t | f, cs⟩
  · simp [Normal, eq_comm (a := "")]
  · simp [Normal, isText]
  · simp [Normal, isText, and_assoc, eq_comm (a := "")]

theorem push_text {cs : List Chunk} (h : ∀ t, cs.head? ≠ some (text t)) (s : String) :
    push (text s) cs = if s = "" then cs else text s :: cs := by
  rcases cs with _ | ⟨t | f, cs⟩
  · rfl
  · exact absurd rfl (h t)
  · rfl

theorem normal_push {cs : List Chunk} (h : Normal cs) (c : Chunk) : Normal (push c cs) := by
  cases c with
  | code f => exact normal_code_cons.2 h
  | text s =>
    have hapart (hcs : ∀ t, cs.head? ≠ some (text t)) : Normal (push (text s) cs) := by
      rw [push_text hcs]
      split
      · exact h
      · rename_i hs
        exact normal_text_cons.2 ⟨hs, h, hcs⟩
    rcases cs with _ | ⟨t | f, cs⟩
    · exact hapart nofun
    · obtain ⟨ht, hcs, hhead⟩ := normal_text_cons.1 h
      exact normal_text_cons.2 ⟨fun hst => ht (String.append_eq_empty_iff.1 hst).2, hcs, hhead⟩
    · exact hapart nofun

theorem normal_join (cs : List Chunk) : Normal (join cs) := by
  induction cs with
  | nil => exact normal_nil
  | cons c cs ih => exact normal_push ih c

variable {d : Dialect}

theorem emit_nil : emit d [] = "" := rfl

theorem emit_append (cs cs' : List Chunk) : emit d (cs ++ cs') = emit d cs ++ emit d cs' := by
  simp [emit]

end Chunk

/-! ## The plain rendering -/

open Chunk (emit_nil emit_cons emit_append)

namespace Element

/-- An attribute as it is written. -/
def attributeText (d : Dialect) (a : String × AttrValue) : String :=
  " " ++ a.1 ++ "=\"" ++ (match a.2 with | .text s => escapeQuotes s | .code f => f.render d) ++ "\""

theorem emit_startChunks (d : Dialect) (e : Element) :
    Chunk.emit d e.startChunks = "<" ++ e.tag ++ String.join (e.attributes.map (attributeText d)) ++ ">" := by
  have hattributes (as : List (String × AttrValue)) :
      Chunk.emit d (as.flatMap attributeChunks) = String.join (as.map (attributeText d)) := by
    induction as with
    | nil => rfl
    | cons a as ih =>
      obtain ⟨name, value⟩ := a
      rw [List.flatMap_cons, emit_append, ih]
      cases value <;>
        simp [attributeChunks, attributeText, emit_nil, emit_cons, Chunk.render, String.append_assoc]
  simp [startChunks, hattributes, emit_nil, emit_cons, emit_append, Chunk.render, String.append_assoc]

end Element

namespace Tree

variable {d : Dialect} {t : Tree} {n : NodeId}

/-- What is written for a node, when `text` is written for each of its children. -/
def plain (d : Dialect) (t : Tree) (text : NodeId → String) (n : NodeId) : String :=
  let inner := String.join ((t.children n).map text)
  match t.kind? n with
  | none => ""
  | some .document => inner
  | some .branch => inner
  | some (.text s) => s
  | some (.code f) => f.render d
  | some (.element e) =>
    "<" ++ e.tag ++ String.join (e.attributes.map (Element.attributeText d)) ++ ">" ++
      if isVoid e.tag then "" else inner ++ "</" ++ e.tag ++ ">"
  | some (.conditional test) =>
    let otherwise := match t.elseBranch? n with
      | some b => if t.hasChildren b then d.statement d.beginElse ++ text b else ""
      | none => ""
    d.statement (d.beginIf test) ++ ((t.thenBranch? n).map text).getD "" ++ otherwise ++ d.statement d.endIf
  | some (.loop binding) => d.statement (d.beginLoop binding) ++ inner ++ d.statement d.endLoop

/-- A node with all below it, as it is written within another one. -/
def block (d : Dialect) (t : Tree) (n : NodeId) : Block :=
  ⟨Block.sequence ((t.kindsAt n).blocks d), t.hasChildren n⟩

theorem emit_chunks (d : Dialect) (t : Tree) (n : NodeId) :
    Chunk.emit d (t.chunks d n) = Chunk.emit d (t.block d n).chunks :=
  Chunk.emit_join _

/-- The trees below a node are those of its children. -/
theorem blocks_below (ht : t.forest.ids.Nodup) {k : Kind} {c : Forest Node} (h : t.find? n = some (k, c)) :
    c.kinds.blocks d = (t.children n).map (t.block d) := by
  have hchildren : t.children n = c.rootIds := by rw [children, below, h]
  have hfound {m : NodeId} {x : Kind × Forest Node} (hm : c.find? m = some x) : t.find? m = some x :=
    find?_of_find? ht h hm
  have hc : c.ids.Nodup := by
    obtain ⟨r, hr⟩ := exists_cons_of_find? (P := fun f => f.ids.Nodup) nodup_parts ht h
    exact (nodup_parts hr).1
  rw [hchildren]
  clear hchildren h
  induction c with
  | nil => rfl
  | cons a c r _ ih =>
    have ha : t.find? a.id = some (a.kind, c) := hfound (by rw [Forest.find?, if_pos rfl])
    have hempty : c.kinds.isEmpty = c.isEmpty := by cases c <;> rfl
    have hblock : t.block d a.id = ⟨a.kind.chunks d (c.kinds.blocks d), !c.kinds.isEmpty⟩ := by
      simp [block, kindsAt, hasChildren, below, ha, Forest.tree, blocks, Block.sequence, hempty]
    rw [rootIds_cons, List.map_cons, hblock, ← ih (fun hm => hfound (find?_rest hc hm)) (nodup_parts hc).2]
    rfl

/-- The output of a node is its own text around the outputs of its children. -/
theorem emit_chunks_eq_plain (ht : t.forest.ids.Nodup) (d : Dialect) (n : NodeId) :
    Chunk.emit d (t.chunks d n) = t.plain d (fun m => Chunk.emit d (t.chunks d m)) n := by
  simp only [emit_chunks]
  cases hfind : t.find? n with
  | none => simp [plain, block, kindsAt, kind?, hfind, blocks, Block.sequence, emit_nil]
  | some x =>
    obtain ⟨k, c⟩ := x
    have hkind : t.kind? n = some k := by rw [kind?, hfind]; rfl
    have hblock : (t.block d n).chunks = k.chunks d ((t.children n).map (t.block d)) := by
      rw [← blocks_below ht hfind]
      simp [block, kindsAt, hfind, Forest.tree, blocks, Block.sequence]
    have hinner (ns : List NodeId) : Chunk.emit d (Block.sequence (ns.map (t.block d))) =
        String.join (ns.map fun m => Chunk.emit d (t.block d m).chunks) := by
      induction ns with
      | nil => rfl
      | cons m ns ih =>
        rw [List.map_cons, Block.sequence, List.flatMap_cons, emit_append]
        simp [← ih, Block.sequence]
    rw [hblock, plain, hkind]
    cases k with
    | document => exact hinner _
    | branch => exact hinner _
    | text s => simp [Kind.chunks, emit_nil, emit_cons, Chunk.render]
    | code f => simp [Kind.chunks, emit_nil, emit_cons, Chunk.render]
    | loop binding =>
      simp [Kind.chunks, hinner, emit_nil, emit_cons, emit_append, Chunk.render, Fragment.render, Fragment.statement,
        String.append_assoc]
    | element e =>
      rw [Kind.chunks]
      dsimp only
      split
      · rw [Element.emit_startChunks, String.append_empty]
      · simp [Element.emit_startChunks, hinner, emit_nil, emit_cons, emit_append, Chunk.render, String.append_assoc]
    | conditional test =>
      have hconditional : t.isConditional n = true := by rw [isConditional, hkind]; rfl
      have hthen : Chunk.emit d (Block.sequence ((t.children n).head?.map (t.block d)).toList) =
          ((t.children n).head?.map fun m => Chunk.emit d (t.block d m).chunks).getD "" := by
        cases (t.children n).head? <;> simp [Block.sequence, emit_nil]
      rw [thenBranch?_of_isConditional hconditional, elseBranch?_of_isConditional hconditional, Kind.chunks,
        List.head?_map, List.getLast?_map]
      dsimp only
      cases (t.children n).getLast? with
      | none =>
        simp [hthen, emit_nil, emit_cons, emit_append, Chunk.render, Fragment.render, Fragment.statement,
          String.append_assoc]
      | some b =>
        have hfilled : (t.block d b).filled = t.hasChildren b := rfl
        cases hb : t.hasChildren b <;>
          simp [hthen, hfilled, hb, emit_nil, emit_cons, emit_append, Chunk.render, Fragment.render,
            Fragment.statement, String.append_assoc]

/-- What is written for a node depends on its children alone. -/
theorem plain_congr {text text' : NodeId → String} (h : ∀ m ∈ t.children n, text m = text' m) :
    t.plain d text n = t.plain d text' n := by
  have hinner : (t.children n).map text = (t.children n).map text' := List.map_congr_left h
  cases hkind : t.kind? n with
  | none => simp only [plain, hkind]
  | some kind =>
    cases kind with
    | conditional test =>
      have hconditional : t.isConditional n = true := by rw [isConditional, hkind]; rfl
      have hthen : (t.children n).head?.map text = (t.children n).head?.map text' := by
        rw [← List.head?_map, hinner, List.head?_map]
      simp only [plain, hkind, thenBranch?_of_isConditional hconditional, elseBranch?_of_isConditional hconditional,
        hthen]
      cases hlast : (t.children n).getLast? with
      | none => rfl
      | some b => simp only [h b (List.mem_of_getLast? hlast)]
    | _ => simp only [plain, hkind, hinner]

/-- The text is what is written for each node around the text of its children. -/
def Renders (d : Dialect) (t : Tree) (text : NodeId → String) : Prop :=
  ∀ n, text n = t.plain d text n

theorem Renders.eq {text text' : NodeId → String} (ht : t.forest.ids.Nodup) (h : t.Renders d text)
    (h' : t.Renders d text') : text = text' := by
  funext n
  induction hsize : (t.descendants n).length using Nat.strongRecOn generalizing n with
  | _ size ih =>
    rw [h n, h' n]
    refine plain_congr fun m hm => ih _ ?_ m rfl
    have hn : n ∈ t.forest.ids := by
      refine Classical.byContradiction fun hn => ?_
      rw [children, below, find?_of_not_mem hn] at hm
      cases hm
    have hsub : (t.descendants m).Sublist ((t.children n).flatMap t.descendants) :=
      List.sublist_flatten_of_mem (List.mem_map_of_mem hm)
    rw [← hsize, descendants_eq_flatMap ht hn, List.length_cons]
    exact Nat.lt_succ_of_le hsub.length_le

/-- In a tree whose nodes have different numbers, the chunks of a node are in normal form, and written out they are the
one text that is, at every node, its own text around the text of its children. So a document, a branch and the body of
a loop are written as their children one after the other. -/
theorem chunks_normal_form (d : Dialect) (t : Tree) (ht : t.forest.ids.Nodup) :
    (∀ n, Chunk.Normal (t.chunks d n)) ∧
      (∀ text, t.Renders d text ↔ text = fun n => Chunk.emit d (t.chunks d n)) ∧
      (∀ n, t.kind? n = some .document ∨ t.kind? n = some .branch →
        Chunk.emit d (t.chunks d n) = String.join ((t.children n).map fun m => Chunk.emit d (t.chunks d m))) ∧
      ∀ n binding, t.kind? n = some (.loop binding) →
        Chunk.emit d (t.chunks d n) = d.statement (d.beginLoop binding) ++
          String.join ((t.children n).map fun m => Chunk.emit d (t.chunks d m)) ++ d.statement d.endLoop := by
  have hemit : t.Renders d fun n => Chunk.emit d (t.chunks d n) := emit_chunks_eq_plain ht d
  refine ⟨fun n => Chunk.normal_join _, fun text => ⟨fun h => h.eq ht hemit, ?_⟩, ?_, ?_⟩
  · rintro rfl
    exact hemit
  · rintro n (hn | hn) <;> rw [emit_chunks_eq_plain ht, plain, hn]
  · intro n binding hn
    rw [emit_chunks_eq_plain ht, plain, hn]

/-- Two texts, one of them empty, and a loop around a condition without an else part and a void element. -/
def mixed : Tree :=
  let condition : Forest Node :=
    .cons ⟨5, .branch⟩ (.cons ⟨6, .text "x"⟩ .nil .nil) (.cons ⟨7, .branch⟩ .nil .nil)
  let body : Forest Node := .cons ⟨4, .conditional "$c"⟩ condition (.cons ⟨8, .element ⟨"br", []⟩⟩ .nil .nil)
  let content : Forest Node :=
    .cons ⟨1, .text "a"⟩ .nil (.cons ⟨2, .text ""⟩ .nil (.cons ⟨3, .loop "$b as $c"⟩ body .nil))
  ⟨.cons ⟨root, .document⟩ content .nil, 9, none⟩

theorem chunks_normal_form_mixed :
    Chunk.Normal (mixed.chunks .php root) ∧
      Chunk.emit .php (mixed.chunks .php root) = "a<?php foreach ($b as $c): ?><?php if ($c): ?>x<?php endif; ?><br>" ++
        "<?php endforeach; ?>" ∧
      Chunk.emit .php (mixed.chunks .php root) =
        String.join ((mixed.children root).map fun m => Chunk.emit .php (mixed.chunks .php m)) := by
  obtain ⟨hnormal, -, hconcat, -⟩ := chunks_normal_form .php mixed (by decide)
  exact ⟨hnormal root, by decide +kernel, hconcat root (.inl rfl)⟩

end Tree

end HtmlTemplate
