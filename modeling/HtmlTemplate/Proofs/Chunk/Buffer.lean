import HtmlTemplate.Chunk

/-! # The walk that writes the chunks

A walk through a tree writes to the end of one buffer, which it passes on from node to node. Joining the texts of
a list is the same as writing its chunks one after the other (`foldl_write`), so the walk leaves in the buffer what
the trees are written as (`buffered_eq_chunks`).
-/

namespace HtmlTemplate

namespace Chunk

/-! ## Writing and joining -/

theorem push_empty (cs : List Chunk) : push (text "") cs = cs := by
  match cs with
  | [] => rfl
  | text t :: cs => exact congrArg (text · :: cs) (String.empty_append ..)
  | code f :: cs => rfl

theorem write_nil (c : Chunk) : write [] c = push c [] := by
  cases c <;> rfl

theorem write_empty (buffer : List Chunk) : write buffer (text "") = buffer := by
  rw [write, if_pos rfl]

theorem write_text_text (s t : String) : write [text s] (text t) = [text (s ++ t)] := by
  by_cases ht : t = ""
  · rw [ht, write_empty, String.append_empty]
  · exact if_neg ht

/-- Only the last chunk of a buffer is looked at. -/
theorem write_cons_cons (a b c : Chunk) (cs : List Chunk) : write (a :: b :: cs) c = a :: write (b :: cs) c := by
  cases c with
  | code f => rfl
  | text s =>
    simp only [write, List.getLast?_cons_cons, List.dropLast_cons_cons]
    split
    · rfl
    · split <;> rfl

/-- What is put in front of a buffer stays in front of all that is written to its end. -/
theorem write_push (a c : Chunk) (buffer : List Chunk) : write (push a buffer) c = push a (write buffer c) := by
  match a, buffer with
  | code f, [] =>
    cases c with
    | code g => rfl
    | text s => by_cases hs : s = "" <;> simp [push, write, hs]
  | code f, b :: cs => rw [push, push, write_cons_cons]
  | text s, [] =>
    by_cases hs : s = ""
    · rw [hs, push_empty, push_empty]
    · have hpush : push (text s) [] = [text s] := if_neg hs
      rw [hpush]
      cases c with
      | code g => simp [push, write, hs]
      | text t => by_cases ht : t = "" <;> simp [push, write, hs, ht]
  | text s, text t :: cs =>
    match cs with
    | [] =>
      cases c with
      | code g => rfl
      | text u => rw [push, write_text_text, write_text_text, push, String.append_assoc]
    | b :: cs => rw [push, write_cons_cons, write_cons_cons, push]
  | text s, code f :: cs =>
    have hhead : ∃ cs', write (code f :: cs) c = code f :: cs' := by
      match cs with
      | [] =>
        cases c with
        | code g => exact ⟨_, rfl⟩
        | text t => by_cases ht : t = "" <;> simp [write, ht]
      | b :: cs => exact ⟨_, write_cons_cons ..⟩
    obtain ⟨cs', hcs'⟩ := hhead
    rw [hcs', push, push]
    · split
      · exact hcs'
      · rw [write_cons_cons, hcs']
    · nofun
    · nofun

theorem write_join (cs : List Chunk) (c : Chunk) : write (join cs) c = join (cs ++ [c]) := by
  induction cs with
  | nil => exact write_nil c
  | cons a cs ih => rw [join, write_push, ih]; rfl

theorem foldl_write (cs cs' : List Chunk) : cs'.foldl write (join cs) = join (cs ++ cs') := by
  induction cs' generalizing cs with
  | nil => rw [List.append_nil, List.foldl_nil]
  | cons c cs' ih => rw [List.foldl_cons, write_join, ih, List.append_assoc, List.singleton_append]

/-- Two texts are written like the one that they make. -/
theorem write_write (buffer : List Chunk) (s t : String) :
    write (write buffer (text s)) (text t) = write buffer (text (s ++ t)) := by
  by_cases hs : s = ""
  · rw [hs, write_empty, String.empty_append]
  by_cases ht : t = ""
  · rw [ht, write_empty, String.append_empty]
  have hst : s ++ t ≠ "" := fun h => hs (String.append_eq_empty_iff.1 h).1
  simp only [write, if_neg hs, if_neg ht, if_neg hst]
  rcases buffer.getLast? with _ | ⟨u | f⟩
  · simp
  · simp [String.append_assoc]
  · simp

end Chunk

/-! ## The walk -/

open Chunk (write)

/-- The walk that writes the chunks of a block. -/
def Block.writer (b : Block) : Writer :=
  ⟨fun buffer => b.chunks.foldl write buffer, b.filled⟩

theorem Writer.walkAll_map_writer (blocks : List Block) (buffer : List Chunk) :
    walkAll (blocks.map Block.writer) buffer = (Block.sequence blocks).foldl write buffer := by
  rw [walkAll, List.foldl_map, Block.sequence, List.foldl_flatMap]
  rfl

namespace Element

theorem walkAttribute_eq (buffer : List Chunk) (a : String × AttrValue) :
    walkAttribute buffer a = (attributeChunks a).foldl write buffer := by
  obtain ⟨name, value⟩ := a
  have hname : [.text " ", .text name, .text "=\""].foldl write buffer =
      write buffer (.text (" " ++ name ++ "=\"")) := by
    simp only [List.foldl_cons, List.foldl_nil, Chunk.write_write]
  rw [walkAttribute, hname]
  cases value <;> rfl

theorem walkStart_eq (e : Element) (buffer : List Chunk) :
    e.walkStart buffer = e.startChunks.foldl write buffer := by
  have hattributes : walkAttribute = fun buffer a => (attributeChunks a).foldl write buffer :=
    funext fun buffer => funext fun a => walkAttribute_eq buffer a
  simp only [walkStart, startChunks, List.foldl_cons, List.foldl_nil, List.foldl_append, List.foldl_flatMap,
    hattributes, Chunk.write_write]

end Element

theorem Kind.walk_map_writer (d : Dialect) (inner : List Block) (buffer : List Chunk) (k : Kind) :
    k.walk d (inner.map Block.writer) buffer = (k.chunks d inner).foldl write buffer := by
  have hinner := Writer.walkAll_map_writer inner
  cases k with
  | document => exact hinner buffer
  | branch => exact hinner buffer
  | text t => rfl
  | code f => rfl
  | element e =>
    rw [walk, chunks, e.walkStart_eq, hinner]
    split
    · rfl
    · rw [List.foldl_append, List.foldl_append]
      simp only [List.foldl_cons, List.foldl_nil, Chunk.write_write]
  | conditional test =>
    have hfirst := Writer.walkAll_map_writer inner.head?.toList
    simp only [walk, chunks, List.head?_map, List.getLast?_map, Option.toList_map, hfirst, List.foldl_cons,
      List.foldl_append, List.foldl_nil]
    cases inner.getLast? with
    | none => rfl
    | some b =>
      simp only [Option.map_some, Block.writer]
      split <;> rfl
  | loop binding =>
    rw [walk, chunks, hinner, List.foldl_cons, List.foldl_append]
    rfl

namespace Forest

theorem writers_eq (d : Dialect) (f : Forest Kind) : f.writers d = (f.blocks d).map Block.writer := by
  induction f with
  | nil => rfl
  | cons k c r ihc ihr =>
    rw [writers, blocks, List.map_cons, ihc, ihr, Block.writer]
    congr
    funext buffer
    exact k.walk_map_writer d _ buffer

/-- The walk leaves the chunks of the forest in the buffer. -/
theorem buffered_eq_chunks (d : Dialect) (f : Forest Kind) : f.buffered d = f.chunks d := by
  rw [buffered, writers_eq, Writer.walkAll_map_writer, chunks]
  exact Chunk.foldl_write [] _

end Forest

end HtmlTemplate
