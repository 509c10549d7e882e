import HtmlTemplate.Compiler
import HtmlTemplate.Proofs.Directive.Agreement

/-! # What is written of a document

The text of a document depends on what its content is, up to the numbers of new nodes, and on the node
that is marked (`kindsAt_main`). What comes of a pass over markup is therefore the text of its report
(`finish_run`), and that is the same by whatever numbers the nodes go (`text_relabel`).
-/

namespace HtmlTemplate

open Forest HtmlTemplate.Tree

/-! ## Numbers and the marked node -/

namespace Forest

/-- What is written of a document with content `f`: the node that is marked, or else all of it. -/
def shown (marked : Option NodeId) (f : Forest Node) : Forest Kind :=
  match marked.bind (f.find? ·) with
  | some (k, c) => tree k c.kinds
  | none => tree .document f.kinds

/-- The eager fragments of the code nodes, in document order. -/
def hoisted (f : Forest Kind) : List Chunk :=
  f.preorder.filterMap fun
    | .code f => if f.isEager then some (.code f) else none
    | _ => none

variable {h : Node → Node} {f : Forest Node}

theorem kinds_map (hkind : ∀ a, (h a).kind = a.kind) (f : Forest Node) : (f.map h).kinds = f.kinds := by
  induction f with
  | nil => rfl
  | cons a c r ihc ihr => rw [map_cons, kinds_cons, kinds_cons, ihc, ihr, hkind]

theorem find?_map {n n' : NodeId} (hkind : ∀ a, (h a).kind = a.kind)
    (hid : ∀ a, (h a).id = n' ↔ a.id = n) (f : Forest Node) :
    (f.map h).find? n' = (f.find? n).map fun x => (x.1, x.2.map h) := by
  induction f with
  | nil => rfl
  | cons a c r ihc ihr =>
    rw [map_cons, find?, find?, ihc, ihr, hkind]
    by_cases ha : a.id = n
    · rw [if_pos ha, if_pos ((hid a).2 ha)]
      rfl
    · rw [if_neg ha, if_neg (mt (hid a).1 ha)]
      cases c.find? n <;> rfl

/-- Numbers do not matter, as long as the node that is marked goes by its own. -/
theorem shown_map (marked : Option NodeId) (rename : NodeId → NodeId)
    (hkind : ∀ a, (h a).kind = a.kind)
    (hid : ∀ n ∈ marked, ∀ a, (h a).id = rename n ↔ a.id = n) (f : Forest Node) :
    (f.map h).shown (marked.map rename) = f.shown marked := by
  cases marked with
  | none => exact congrArg (tree _) (kinds_map hkind f)
  | some n =>
    rw [shown, shown, Option.map_some, Option.bind_some, Option.bind_some,
      find?_map hkind (hid n rfl) f]
    cases f.find? n with
    | none => exact congrArg (tree _) (kinds_map hkind f)
    | some x => exact congrArg (tree _) (kinds_map hkind x.2)

end Forest

/-- A node by another number. -/
def Node.rename (rename : NodeId → NodeId) (a : Node) : Node :=
  ⟨rename a.id, a.kind⟩

theorem Node.id_settle_iff {bound n : NodeId} (hn : n < bound) (hroot : n ≠ root) (a : Node) :
    (a.settle bound).id = n ↔ a.id = n := by
  by_cases ha : a.id < bound
  · rw [settle_old ha]
  · rw [settle, if_neg ha]
    exact iff_of_false (fun h => hroot h.symm) fun h => ha (h ▸ hn)

namespace Tree

variable {f loose : Forest Node} {next : NodeId} {marked : Option NodeId}

theorem kindsAt_root : (around [] f loose next marked).kindsAt root = tree .document f.kinds := by
  rw [kindsAt, find?, around, Forest.find?, if_pos rfl]
  rfl

theorem below_ofContent (f : Forest Kind) : (ofContent f).below root = (f.numberFrom 1).1 := by
  rw [below, find?, ofContent, Forest.tree, Forest.find?, if_pos rfl]

/-- What is written of a document. -/
theorem kindsAt_main (ht : (around [] f loose next marked).Numbered) (hmarked : marked ≠ some root) :
    (around [] f loose next marked).kindsAt ((around [] f loose next marked).main?.getD root) =
      f.shown marked := by
  rw [main?, show (around [] f loose next marked).marked = marked from rfl, shown]
  cases marked with
  | none => exact kindsAt_root
  | some n =>
    have hroot : n ≠ root := fun h => hmarked (congrArg some h)
    rw [Option.bind_some, Option.filter_some]
    by_cases hn : n ∈ f.ids
    · obtain ⟨x, hx⟩ := exists_find? hn
      have hfind : (around [] f loose next (some n)).find? n = some x := by
        rw [find?, around, Forest.find?, if_neg hroot.symm, Context.close_nil, hx]
        rfl
      rw [isAttached_of_mem ht.nodup hn, hx, if_pos rfl, Option.getD_some, kindsAt, hfind]
    · have hgone : (around [] f loose next (some n)).isAttached n = false :=
        Bool.eq_false_iff.2 fun h => hn (mem_of_isAttached ht.nodup hroot h)
      rw [hgone, (find?_eq_none_iff n f).2 hn, if_neg Bool.false_ne_true]
      exact kindsAt_root

end Tree

/-! ## The text of a report -/

namespace Margin

variable {d : Dialect} {rename : NodeId → NodeId}

/-- A node that is marked has been called. -/
theorem marked_after (d : Dialect) (m : Margin) (calls : List Call) :
    ∀ n ∈ (m.after d calls).marked, n ∈ m.marked ∨ ∃ c ∈ calls, c.node = n := by
  induction calls generalizing m with
  | nil => exact fun n hn => Or.inl hn
  | cons c calls ih =>
    intro n hn
    rcases ih (m.note d c) n hn with hn | ⟨c', hc', hn⟩
    · rw [marked_note] at hn
      split at hn
      · exact Or.inr ⟨c, List.mem_cons_self .., Option.some.inj hn⟩
      · exact Or.inl hn
    · exact Or.inr ⟨c', List.mem_cons_of_mem c hc', hn⟩

/-- The margin with other numbers. -/
def relabel (rename : NodeId → NodeId) (m : Margin) : Margin :=
  ⟨m.head.map (Node.rename rename), m.marked.map rename⟩

theorem note_relabel (hroot : rename root = root) (m : Margin) (c : Call) :
    (m.relabel rename).note d (c.rename rename) = (m.note d c).relabel rename := by
  rw [note, note, show (c.rename rename).directive = c.directive from rfl,
    show (c.rename rename).parameter = c.parameter from rfl]
  split
  · cases c.parameter with
    | none => rfl
    | some v => simp [relabel, Node.rename, hroot]
  · split <;> rfl

theorem after_relabel (hroot : rename root = root) (m : Margin) (calls : List Call) :
    (m.relabel rename).after d (calls.map (Call.rename rename)) = (m.after d calls).relabel rename := by
  induction calls generalizing m with
  | nil => rfl
  | cons c calls ih =>
    rw [List.map_cons, after, List.foldl_cons, note_relabel hroot]
    exact ih (m.note d c)

end Margin

namespace Report

/-- The text of a document of which a pass reports. -/
def text (d : Dialect) (out : Report (Forest Node)) : Except TemplateError String :=
  out.result.map fun k =>
    let m := Margin.blank.after d out.calls
    Chunk.emit d (tree .document (m.head ++ k).kinds).hoisted ++
      Chunk.emit d ((((m.head ++ k).shown m.marked).chunks d).filter (!·.isEager))

variable {d : Dialect} {rename : NodeId → NodeId}

/-- The text does not depend on the numbers of nodes. -/
theorem text_relabel (hrename : Function.Injective rename) (hroot : rename root = root)
    (out : Report (Forest Node)) :
    (out.relabel (Forest.map (Node.rename rename)) rename).text d = out.text d := by
  have hafter := Margin.after_relabel (d := d) hroot Margin.blank out.calls
  rw [show Margin.blank.relabel rename = Margin.blank from rfl] at hafter
  unfold text relabel
  dsimp only
  rw [hafter]
  cases out.result with
  | error e => rfl
  | ok k =>
    have hkinds := kinds_map (h := Node.rename rename) (fun _ => rfl)
      ((Margin.blank.after d out.calls).head ++ k)
    have hshown := shown_map (Margin.blank.after d out.calls).marked rename (h := Node.rename rename)
      (fun _ => rfl) (fun n _ a => hrename.eq_iff) ((Margin.blank.after d out.calls).head ++ k)
    rw [map_append] at hkinds hshown
    simp only [Except.map, Margin.relabel, hkinds, hshown]

end Report

namespace Run.Accords

variable {d : Dialect} {bound : NodeId} {run : Run} {out : Report (Forest Node)}
  (h : run.Accords d bound out) (hcalls : ∀ c ∈ out.calls, c.node < bound ∧ c.node ≠ root)
include h hcalls

/-- What is written of the tree that a run leaves behind. -/
theorem kindsAt_main {k : Forest Node} (hresult : out.result = .ok k) :
    run.tree.kindsAt (run.tree.main?.getD root) = ((Margin.blank.after d out.calls).head ++ k).shown
      (Margin.blank.after d out.calls).marked := by
  have hmarked : ∀ n ∈ (Margin.blank.after d out.calls).marked, n < bound ∧ n ≠ root := by
    intro n hn
    rcases Margin.marked_after d Margin.blank out.calls n hn with hn | ⟨c, hc, rfl⟩
    · cases hn
    · exact hcalls c hc
  obtain ⟨-, h⟩ := h
  rw [hresult] at h
  obtain ⟨-, f, loose, next, htree, hnum, hsettle⟩ := h
  generalize Margin.blank.after d out.calls = m at hmarked hsettle htree ⊢
  have hshown := shown_map m.marked id (Node.kind_settle bound)
    (fun n hn a => Node.id_settle_iff (hmarked n hn).1 (hmarked n hn).2 a) f
  rw [hsettle, Option.map_id] at hshown
  rw [htree] at hnum ⊢
  rw [Tree.kindsAt_main hnum (fun hroot => (hmarked root hroot).2 rfl), ← hshown]
  rfl

/-- What comes of a run that does what a report says. -/
theorem finish {reg : Registry} : Compiler.finish ⟨reg, d⟩ run = out.text d := by
  have hmain := fun k => h.kindsAt_main hcalls (k := k)
  obtain ⟨-, h⟩ := h
  rw [Compiler.finish, Report.text]
  cases hresult : out.result with
  | error e =>
    rw [hresult] at h
    rw [show run.error = some e from h]
    rfl
  | ok k =>
    rw [hresult] at h
    obtain ⟨herror, f, loose, next, htree, -, hsettle⟩ := h
    have hroot : run.tree.kindsAt root =
        Forest.tree .document ((Margin.blank.after d out.calls).head ++ k).kinds := by
      rw [htree, kindsAt_root, ← hsettle, kinds_settle]
    rw [herror]
    simp only [Compiler.serialize, Tree.serialize, Tree.hoisted, Tree.body, Tree.chunks, hmain k hresult, hroot]
    rfl

end Run.Accords

namespace Registry

variable {reg : Registry} {d : Dialect}

theorem mem_ids_of_call {f : Forest Node} (left : Forest Node) :
    ∀ c ∈ (reg.report .settled d left f).calls, c.node ∈ f.ids :=
  forall_calls_report (fun _ ha _ _ _ => List.mem_map_of_mem ha) left

theorem lt_next_of_call (f : Forest Kind) :
    ∀ c ∈ (reg.report .settled d nil (f.numberFrom 1).1).calls,
      c.node < (ofContent f).next ∧ c.node ≠ root := by
  intro c hc
  have hmem := mem_ids_of_call nil c hc
  rw [ids_numberFrom, List.mem_range'_1] at hmem
  have hnext : (ofContent f).next = 1 + f.preorder.length := numberFrom_next 1 f
  refine ⟨hnext ▸ hmem.2, fun hroot => ?_⟩
  rw [hroot] at hmem
  exact absurd hmem.1 (by decide)

/-- What comes of a pass over markup is the text of its report. -/
theorem finish_run {f : Forest Kind} (hf : f.IsMarkup)
    (hds : ∀ k ∈ f.preorder, ∀ z ∈ reg.orderedOf k, z.2.IsStandard) :
    Compiler.finish ⟨reg, d⟩ (reg.run d (ofContent f)) =
      (reg.report .settled d nil (f.numberFrom 1).1).text d :=
  (accords_run hf hds d).finish (lt_next_of_call f)

end Registry

end HtmlTemplate
