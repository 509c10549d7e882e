import HtmlTemplate.Tree.Edit

/-! # Contexts of a forest

A context is a forest with a gap: the frames that lead from the gap up to the top. Every node of a
forest stands in a context (`exists_close`), and each function that looks for a node or edits the
forest at it passes through the context to the gap, as long as the node's number does not occur in
the context itself.
-/

namespace HtmlTemplate

namespace Forest

/-! ## Numbers of a forest -/

@[simp] theorem ids_nil : (nil : Forest Node).ids = [] := rfl

@[simp] theorem ids_cons (a : Node) (c r : Forest Node) :
    (cons a c r).ids = a.id :: (c.ids ++ r.ids) := by
  simp [ids]

@[simp] theorem ids_append (f g : Forest Node) : (f ++ g).ids = f.ids ++ g.ids := by
  simp [ids]

@[simp] theorem ids_tree (a : Node) (c : Forest Node) : (tree a c).ids = a.id :: c.ids := by
  simp [tree]

@[simp] theorem rootIds_nil : (nil : Forest Node).rootIds = [] := rfl

@[simp] theorem rootIds_cons (a : Node) (c r : Forest Node) :
    (cons a c r).rootIds = a.id :: r.rootIds := rfl

@[simp] theorem rootIds_append (f g : Forest Node) : (f ++ g).rootIds = f.rootIds ++ g.rootIds := by
  simp [rootIds]

@[simp] theorem rootIds_tree (a : Node) (c : Forest Node) : (tree a c).rootIds = [a.id] := rfl

theorem rootIds_sublist_ids (f : Forest Node) : f.rootIds.Sublist f.ids := by
  induction f with
  | nil => exact List.Sublist.refl _
  | cons a c r _ ih =>
    rw [rootIds_cons, ids_cons]
    exact (ih.trans (List.sublist_append_right c.ids r.ids)).cons_cons a.id

theorem mem_ids_of_mem_rootIds {n : NodeId} {f : Forest Node} (h : n ∈ f.rootIds) : n ∈ f.ids :=
  (rootIds_sublist_ids f).subset h

theorem tree_append (a : Node) (c r : Forest Node) : tree a c ++ r = cons a c r := rfl

theorem append_eq_nil {f g : Forest Node} (h : f ++ g = nil) : f = nil ∧ g = nil := by
  cases f with
  | nil => exact ⟨rfl, h⟩
  | cons a c r => cases h

theorem first?_map_id (f : Forest Node) : f.first?.map Node.id = f.rootIds.head? := by
  cases f <;> rfl

theorem first?_map_id_append (f g : Forest Node) (up : Option NodeId) :
    ((f ++ g).first?.map Node.id <|> up) = (f.first?.map Node.id <|> (g.first?.map Node.id <|> up)) := by
  cases f <;> rfl

/-! ## Looking for a node -/

theorem find?_append (n : NodeId) (f g : Forest Node) :
    (f ++ g).find? n = (f.find? n <|> g.find? n) := by
  induction f with
  | nil => rfl
  | cons a c r _ ih =>
    rw [cons_append, find?, find?, ih]
    split
    · rfl
    · cases find? n c <;> rfl

theorem find?_eq_none_iff (n : NodeId) (f : Forest Node) : f.find? n = none ↔ n ∉ f.ids := by
  induction f with
  | nil => simp [find?]
  | cons a c r ihc ihr =>
    rw [find?, ids_cons]
    by_cases h : a.id = n
    · simp [h]
    · have h' : n ≠ a.id := fun e => h e.symm
      simp [h, h', ihc, ihr]

theorem exists_find? {n : NodeId} {f : Forest Node} (h : n ∈ f.ids) : ∃ x, f.find? n = some x := by
  cases hf : f.find? n with
  | some x => exact ⟨x, rfl⟩
  | none => exact absurd h ((find?_eq_none_iff n f).1 hf)

section Found

variable {a : Node} {c f r : Forest Node} {k : Kind} {m n : NodeId} {x : Kind × Forest Node}

theorem mem_ids_of_find? (h : f.find? n = some x) : n ∈ f.ids := by
  refine Classical.byContradiction fun hn => ?_
  rw [(find?_eq_none_iff n f).2 hn] at h
  cases h

theorem find?_child (hf : (cons a c r).ids.Nodup) (h : c.find? n = some x) :
    (cons a c r).find? n = some x := by
  rw [ids_cons, List.nodup_cons] at hf
  have hne : a.id ≠ n := fun e => hf.1 (e ▸ List.mem_append_left _ (mem_ids_of_find? h))
  rw [find?, if_neg hne, h]
  rfl

theorem find?_rest (hf : (cons a c r).ids.Nodup) (h : r.find? n = some x) :
    (cons a c r).find? n = some x := by
  rw [ids_cons, List.nodup_cons, List.nodup_append] at hf
  have hn := mem_ids_of_find? h
  have hne : a.id ≠ n := fun e => hf.1 (e ▸ List.mem_append_right _ hn)
  have hc : c.find? n = none := (find?_eq_none_iff n c).2 fun hm => hf.2.2.2 n hm n hn rfl
  rw [find?, if_neg hne, hc, h]
  rfl

theorem nodup_parts (hf : (cons a c r).ids.Nodup) : c.ids.Nodup ∧ r.ids.Nodup := by
  rw [ids_cons, List.nodup_cons, List.nodup_append] at hf
  exact ⟨hf.2.1, hf.2.2.1⟩

/-- What is found below a node is found. -/
theorem find?_of_find? (hf : f.ids.Nodup) (hn : f.find? n = some (k, c)) (hm : c.find? m = some x) :
    f.find? m = some x := by
  induction f with
  | nil => cases hn
  | cons a c' r ihc ihr =>
    obtain ⟨hc, hr⟩ := nodup_parts hf
    rw [find?] at hn
    split at hn
    · cases hn
      exact find?_child hf hm
    · cases hfind : c'.find? n with
      | some y =>
        rw [hfind] at hn
        cases hn
        exact find?_child hf (ihc hc hfind)
      | none =>
        rw [hfind] at hn
        exact find?_rest hf (ihr hr hn)

/-- What holds of a forest, and so of what is below and after its nodes, holds where a node is found. -/
theorem exists_cons_of_find? {P : Forest Node → Prop} (hP : ∀ {a c r}, P (cons a c r) → P c ∧ P r)
    (hf : P f) (h : f.find? n = some (k, c)) : ∃ r, P (cons ⟨n, k⟩ c r) := by
  induction f with
  | nil => cases h
  | cons a c' r ihc ihr =>
    rw [find?] at h
    split at h
    · rename_i hn
      cases h
      exact ⟨r, hn ▸ hf⟩
    · cases hfind : c'.find? n with
      | none =>
        rw [hfind] at h
        exact ihr (hP hf).2 h
      | some x =>
        rw [hfind] at h
        cases h
        exact ihc (hP hf).1 hfind

end Found

theorem parent?_append (n : NodeId) (f g : Forest Node) :
    (f ++ g).parent? n = (f.parent? n <|> g.parent? n) := by
  induction f with
  | nil => rfl
  | cons a c r _ ih =>
    rw [cons_append, parent?, parent?, ih]
    split
    · rfl
    · cases parent? n c <;> rfl

theorem parent?_eq_none {n : NodeId} {f : Forest Node} (h : n ∉ f.ids) : f.parent? n = none := by
  induction f with
  | nil => rfl
  | cons a c r ihc ihr =>
    simp only [ids_cons, List.mem_cons, List.mem_append, not_or] at h
    have hc : n ∉ c.rootIds := fun hm => h.2.1 (mem_ids_of_mem_rootIds hm)
    rw [parent?, if_neg hc, ihc h.2.1, ihr h.2.2]
    rfl

theorem above?_append (n : NodeId) (up : List NodeId) (f g : Forest Node) :
    (f ++ g).above? n up = (f.above? n up <|> g.above? n up) := by
  induction f with
  | nil => rfl
  | cons a c r _ ih =>
    rw [cons_append, above?, above?, ih]
    split
    · rfl
    · cases above? n (a.id :: up) c <;> rfl

theorem above?_eq_none_iff (n : NodeId) (up : List NodeId) (f : Forest Node) :
    f.above? n up = none ↔ n ∉ f.ids := by
  induction f generalizing up with
  | nil => simp [above?]
  | cons a c r ihc ihr =>
    rw [above?, ids_cons]
    by_cases h : a.id = n
    · simp [h]
    · have h' : n ≠ a.id := fun e => h e.symm
      simp [h, h', ihc, ihr]

theorem following?_eq_none_iff (n : NodeId) (up : Option NodeId) (f : Forest Node) :
    f.following? n up = none ↔ n ∉ f.ids := by
  induction f generalizing up with
  | nil => simp [following?]
  | cons a c r ihc ihr =>
    rw [following?, ids_cons]
    by_cases h : a.id = n
    · simp [h]
    · have h' : n ≠ a.id := fun e => h e.symm
      simp [h, h', ihc, ihr]

/-- What comes after a node of the first part is found in the first part, with the second part
behind it. -/
theorem following?_append (n : NodeId) (up : Option NodeId) (f g : Forest Node) :
    (f ++ g).following? n up =
      (f.following? n (g.first?.map Node.id <|> up) <|> g.following? n up) := by
  induction f with
  | nil => rfl
  | cons a c r _ ih =>
    rw [cons_append, following?, following?, ih, first?_map_id_append]
    by_cases h : a.id = n
    · simp [h]
    · simp only [h, if_false]
      cases following? n (r.first?.map Node.id <|> (g.first?.map Node.id <|> up)) c <;> rfl

/-! ## Editing at a node -/

/-- The forest with the tree of node `n` replaced by what `g` makes of it. -/
def replaceAt (n : NodeId) (g : Node → Forest Node → Forest Node) : Forest Node → Forest Node
  | nil => nil
  | cons a c r => if a.id = n then g a c ++ r else cons a (replaceAt n g c) (replaceAt n g r)

theorem remove_eq_replaceAt (n : NodeId) (f : Forest Node) :
    f.remove n = f.replaceAt n fun _ _ => nil := by
  induction f with
  | nil => rfl
  | cons a c r ihc ihr => rw [remove, replaceAt, ihc, ihr]; rfl

theorem mapChildren_eq_replaceAt (n : NodeId) (g : Forest Node → Forest Node) (f : Forest Node) :
    f.mapChildren n g = f.replaceAt n fun a c => tree a (g c) := by
  induction f with
  | nil => rfl
  | cons a c r ihc ihr => rw [mapChildren, replaceAt, ihc, ihr]; rfl

theorem mapKind_eq_replaceAt (n : NodeId) (g : Kind → Kind) (f : Forest Node) :
    f.mapKind n g = f.replaceAt n fun a c => tree ⟨a.id, g a.kind⟩ c := by
  induction f with
  | nil => rfl
  | cons a c r ihc ihr => rw [mapKind, replaceAt, ihc, ihr]; rfl

theorem rootIds_mapKind (n : NodeId) (g : Kind → Kind) (f : Forest Node) :
    (f.mapKind n g).rootIds = f.rootIds := by
  induction f with
  | nil => rfl
  | cons a c r _ ih =>
    rw [mapKind]
    split
    · rfl
    · rw [rootIds_cons, rootIds_cons, ih]

theorem insertBefore_eq_replaceAt (n : NodeId) (s f : Forest Node) :
    insertBefore n s f = f.replaceAt n fun a c => s ++ tree a c := by
  induction f with
  | nil => rfl
  | cons a c r ihc ihr =>
    rw [insertBefore, replaceAt, ihc, ihr, append_assoc, tree_append]

theorem insertAfter_eq_replaceAt (n : NodeId) (s f : Forest Node) :
    insertAfter n s f = f.replaceAt n fun a c => tree a c ++ s := by
  induction f with
  | nil => rfl
  | cons a c r ihc ihr =>
    rw [insertAfter, replaceAt, ihc, ihr, append_assoc, tree_append]

theorem replaceAt_of_not_mem {n : NodeId} {f : Forest Node} (g : Node → Forest Node → Forest Node)
    (h : n ∉ f.ids) : f.replaceAt n g = f := by
  induction f with
  | nil => rfl
  | cons a c r ihc ihr =>
    simp only [ids_cons, List.mem_cons, List.mem_append, not_or] at h
    have ha : a.id ≠ n := fun e => h.1 e.symm
    rw [replaceAt, if_neg ha, ihc h.2.1, ihr h.2.2]

theorem replaceAt_append {n : NodeId} {f : Forest Node} (g : Node → Forest Node → Forest Node)
    (h : n ∉ f.ids) (r : Forest Node) : (f ++ r).replaceAt n g = f ++ r.replaceAt n g := by
  induction f with
  | nil => rfl
  | cons a c s _ ihs =>
    simp only [ids_cons, List.mem_cons, List.mem_append, not_or] at h
    have ha : a.id ≠ n := fun e => h.1 e.symm
    rw [cons_append, replaceAt, if_neg ha, ihs h.2.2, replaceAt_of_not_mem g h.2.1, cons_append]

theorem replaceAt_cons_self (a : Node) (c r : Forest Node) (g : Node → Forest Node → Forest Node) :
    (cons a c r).replaceAt a.id g = g a c ++ r := by
  rw [replaceAt, if_pos rfl]

end Forest

/-! ## Contexts -/

/-- One step up from a gap: the node whose children the gap is among, and the trees beside it. -/
structure Frame where
  before : Forest Node
  node : Node
  after : Forest Node

/-- A forest with a gap for the trees below the innermost frame. The innermost frame comes first. -/
abbrev Context := List Frame

namespace Context

open Forest

/-- The forest that a context makes of what stands in its gap. -/
def close : Context → Forest Node → Forest Node
  | [], f => f
  | k :: ks, f => close ks (k.before ++ cons k.node f k.after)

/-- The numbers of the nodes that come before the gap in document order. -/
def leading : Context → List NodeId
  | [] => []
  | k :: ks => leading ks ++ (k.before.ids ++ [k.node.id])

/-- The trees that come after the gap, in document order. -/
def rest : Context → Forest Node
  | [] => nil
  | k :: ks => k.after ++ rest ks

/-- The numbers of the nodes above the gap, the nearest first. -/
def above (ks : Context) : List NodeId :=
  ks.map fun k => k.node.id

@[simp] theorem close_nil (f : Forest Node) : close [] f = f := rfl

@[simp] theorem close_cons (k : Frame) (ks : Context) (f : Forest Node) :
    close (k :: ks) f = close ks (k.before ++ cons k.node f k.after) := rfl

@[simp] theorem rest_nil : rest [] = nil := rfl

@[simp] theorem rest_cons (k : Frame) (ks : Context) : rest (k :: ks) = k.after ++ rest ks := rfl

@[simp] theorem leading_nil : leading [] = [] := rfl

@[simp] theorem leading_cons (k : Frame) (ks : Context) :
    leading (k :: ks) = leading ks ++ (k.before.ids ++ [k.node.id]) := rfl

@[simp] theorem above_nil : above [] = [] := rfl

@[simp] theorem above_cons (k : Frame) (ks : Context) : above (k :: ks) = k.node.id :: above ks := rfl

theorem close_append (js ks : Context) (f : Forest Node) :
    close (js ++ ks) f = close ks (close js f) := by
  induction js generalizing f with
  | nil => rfl
  | cons j js ih => rw [List.cons_append, close_cons, close_cons, ih]

theorem rest_append (js ks : Context) : rest (js ++ ks) = rest js ++ rest ks := by
  induction js with
  | nil => rfl
  | cons j js ih => rw [List.cons_append, rest_cons, rest_cons, ih, Forest.append_assoc]

theorem leading_append (js ks : Context) : leading (js ++ ks) = leading ks ++ leading js := by
  induction js with
  | nil => simp
  | cons j js ih => rw [List.cons_append, leading_cons, leading_cons, ih, List.append_assoc]

theorem above_append (js ks : Context) : above (js ++ ks) = above js ++ above ks :=
  List.map_append

theorem ids_close (ks : Context) (f : Forest Node) :
    (close ks f).ids = leading ks ++ (f.ids ++ (rest ks).ids) := by
  induction ks generalizing f with
  | nil => simp
  | cons k ks ih => simp [ih]

/-- What is in front of a gap in document order, and what follows. -/
theorem ids_close_append (ks : Context) (l f : Forest Node) :
    (close ks (l ++ f)).ids = (leading ks ++ l.ids) ++ (f ++ rest ks).ids := by
  simp [ids_close]

theorem mem_leading_of_mem_above {n : NodeId} {ks : Context} (h : n ∈ above ks) : n ∈ leading ks := by
  induction ks with
  | nil => exact absurd h List.not_mem_nil
  | cons k ks ih =>
    rw [above_cons, List.mem_cons] at h
    rw [leading_cons, List.mem_append]
    rcases h with h | h
    · right
      simp [h]
    · exact Or.inl (ih h)

/-! ## Passing to the gap -/

theorem find?_close {n : NodeId} {ks : Context} {f : Forest Node} (hk : n ∉ leading ks)
    (hf : n ∈ f.ids) : (close ks f).find? n = f.find? n := by
  induction ks generalizing f with
  | nil => rfl
  | cons k ks ih =>
    simp only [leading_cons, List.mem_append, List.mem_singleton, not_or] at hk
    have hne : k.node.id ≠ n := fun e => hk.2.2 e.symm
    obtain ⟨x, hx⟩ := exists_find? hf
    rw [close_cons, ih hk.1 (by simp [hf]), find?_append, (find?_eq_none_iff n k.before).2 hk.2.1,
      find?, if_neg hne, hx]
    rfl

theorem above?_close {n : NodeId} {ks : Context} {f : Forest Node} (up : List NodeId)
    (hk : n ∉ leading ks) (hf : n ∈ f.ids) :
    (close ks f).above? n up = f.above? n (above ks ++ up) := by
  induction ks generalizing f with
  | nil => rfl
  | cons k ks ih =>
    simp only [leading_cons, List.mem_append, List.mem_singleton, not_or] at hk
    have hne : k.node.id ≠ n := fun e => hk.2.2 e.symm
    rw [close_cons, ih hk.1 (by simp [hf]), above?_append,
      (above?_eq_none_iff n _ k.before).2 hk.2.1, above?, if_neg hne, above_cons, List.cons_append]
    cases hx : above? n (k.node.id :: (above ks ++ up)) f with
    | some x => rfl
    | none => exact absurd hf ((above?_eq_none_iff n _ f).1 hx)

theorem following?_close {n : NodeId} {ks : Context} {f : Forest Node} (up : Option NodeId)
    (hk : n ∉ leading ks) (hf : n ∈ f.ids) :
    (close ks f).following? n up = f.following? n ((rest ks).first?.map Node.id <|> up) := by
  induction ks generalizing f with
  | nil => rfl
  | cons k ks ih =>
    simp only [leading_cons, List.mem_append, List.mem_singleton, not_or] at hk
    have hne : k.node.id ≠ n := fun e => hk.2.2 e.symm
    rw [close_cons, ih hk.1 (by simp [hf]), following?_append,
      (following?_eq_none_iff n _ k.before).2 hk.2.1, following?, if_neg hne, rest_cons,
      first?_map_id_append]
    cases hx : following? n (k.after.first?.map Node.id <|> ((rest ks).first?.map Node.id <|> up)) f with
    | some x => rfl
    | none => exact absurd hf ((following?_eq_none_iff n _ f).1 hx)

theorem replaceAt_close {n : NodeId} {ks : Context} (g : Node → Forest Node → Forest Node)
    (hk : n ∉ leading ks) (hr : n ∉ (rest ks).ids) (f : Forest Node) :
    (close ks f).replaceAt n g = close ks (f.replaceAt n g) := by
  induction ks generalizing f with
  | nil => rfl
  | cons k ks ih =>
    simp only [leading_cons, List.mem_append, List.mem_singleton, not_or] at hk
    simp only [rest_cons, ids_append, List.mem_append, not_or] at hr
    have hne : k.node.id ≠ n := fun e => hk.2.2 e.symm
    rw [close_cons, ih hk.1 hr.2, replaceAt_append g hk.2.1, replaceAt, if_neg hne,
      replaceAt_of_not_mem g hr.1, close_cons]

/-- A node that is not at the top of the gap has its parent in the gap. -/
theorem parent?_close_below {n : NodeId} {ks : Context} {f : Forest Node} (hk : n ∉ leading ks)
    (hr : n ∉ (rest ks).ids) (hf : n ∉ f.rootIds) : (close ks f).parent? n = f.parent? n := by
  induction ks generalizing f with
  | nil => rfl
  | cons k ks ih =>
    simp only [leading_cons, List.mem_append, List.mem_singleton, not_or] at hk
    simp only [rest_cons, ids_append, List.mem_append, not_or] at hr
    have hb : n ∉ k.before.rootIds := fun h => hk.2.1 (mem_ids_of_mem_rootIds h)
    have ha : n ∉ k.after.rootIds := fun h => hr.1 (mem_ids_of_mem_rootIds h)
    rw [close_cons, ih hk.1 hr.2 (by simp [hb, ha, hk.2.2]), parent?_append,
      parent?_eq_none hk.2.1, parent?, if_neg hf, parent?_eq_none hr.1]
    cases parent? n f <;> rfl

theorem parent?_close_root {n : NodeId} {ks : Context} {f : Forest Node} (hk : n ∉ leading ks)
    (hr : n ∉ (rest ks).ids) (hf : n ∈ f.rootIds) (h0 : f.parent? n = none) :
    (close ks f).parent? n = (above ks).head? := by
  cases ks with
  | nil => exact h0
  | cons k ks =>
    simp only [leading_cons, List.mem_append, List.mem_singleton, not_or] at hk
    simp only [rest_cons, ids_append, List.mem_append, not_or] at hr
    have hb : n ∉ k.before.rootIds := fun h => hk.2.1 (mem_ids_of_mem_rootIds h)
    have ha : n ∉ k.after.rootIds := fun h => hr.1 (mem_ids_of_mem_rootIds h)
    rw [close_cons, parent?_close_below hk.1 hr.2 (by simp [hb, ha, hk.2.2]), parent?_append,
      parent?_eq_none hk.2.1, parent?, if_pos hf]
    rfl

end Context

open Forest Context

/-- Every node of a forest stands in a context, between trees on its own level. -/
theorem exists_close {n : NodeId} {f : Forest Node} (h : n ∈ f.ids) :
    ∃ (ks : Context) (l : Forest Node) (a : Node) (c r : Forest Node),
      a.id = n ∧ f = close ks (l ++ cons a c r) := by
  induction f with
  | nil => exact absurd h List.not_mem_nil
  | cons b d s ihd ihs =>
    rw [ids_cons, List.mem_cons, List.mem_append] at h
    rcases h with h | h | h
    · exact ⟨[], nil, b, d, s, h.symm, rfl⟩
    · obtain ⟨ks, l, a, c, r, ha, hd⟩ := ihd h
      refine ⟨ks ++ [⟨nil, b, s⟩], l, a, c, r, ha, ?_⟩
      rw [close_append, ← hd]
      rfl
    · obtain ⟨ks, l, a, c, r, ha, hs⟩ := ihs h
      rcases List.eq_nil_or_concat ks with rfl | ⟨js, k, rfl⟩
      · exact ⟨[], cons b d l, a, c, r, ha, by rw [hs]; rfl⟩
      · refine ⟨js ++ [⟨cons b d k.before, k.node, k.after⟩], l, a, c, r, ha, ?_⟩
        rw [hs, List.concat_eq_append, close_append, close_append]
        rfl

end HtmlTemplate
