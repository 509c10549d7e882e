import HtmlTemplate.Proofs.Tree.Numbering

/-! # What an edit at one node does to the others

An edit of a forest at one node is seen in the child lists. For every other node, what is found below it is what was
there before, edited in the same way (`find?_replaceAt`), and of its child list only the place of the edited node is
changed (`childIds_replaceAt`).
-/

namespace HtmlTemplate.Forest

variable {f : Forest Node} {m n : NodeId} {k : Kind} {c : Forest Node} {g : Node → Forest Node → Forest Node}
  {ids : List NodeId}

/-! ## Where a number is found -/

theorem find?_append_left {g : Forest Node} (h : m ∉ g.ids) : (f ++ g).find? m = f.find? m := by
  rw [find?_append, (find?_eq_none_iff m g).2 h]
  cases f.find? m <;> rfl

theorem find?_append_right {g : Forest Node} {x : Kind × Forest Node} (hf : (f ++ g).ids.Nodup)
    (h : g.find? m = some x) : (f ++ g).find? m = some x := by
  rw [ids_append, List.nodup_append] at hf
  have hm : m ∉ f.ids := fun hm => hf.2.2 m hm m (mem_ids_of_find? h) rfl
  rw [find?_append, (find?_eq_none_iff m f).2 hm, h]
  rfl

theorem ids_subset_of_find? (h : f.find? m = some (k, c)) : c.ids ⊆ f.ids := by
  have hparts {a : Node} {d r : Forest Node} (hsub : (cons a d r).ids ⊆ f.ids) : d.ids ⊆ f.ids ∧ r.ids ⊆ f.ids := by
    exact ⟨fun i hi => hsub (by simp [hi]), fun i hi => hsub (by simp [hi])⟩
  obtain ⟨r, hr⟩ := exists_cons_of_find? (P := fun g => g.ids ⊆ f.ids) hparts (List.Subset.refl _) h
  exact (hparts hr).1

/-! ## Changing the forest at one node -/

theorem find?_replaceAt (hf : f.ids.Nodup) (hm : m ≠ n)
    (hg : ∀ k c, f.find? n = some (k, c) → (g ⟨n, k⟩ c).find? m = c.find? m) :
    (f.replaceAt n g).find? m = (f.find? m).map fun x => (x.1, x.2.replaceAt n g) := by
  induction f with
  | nil => rfl
  | cons a c r ihc ihr =>
    obtain ⟨hc, hr⟩ := nodup_parts hf
    have ihc := ihc hc fun k d h => hg k d (find?_child hf h)
    have ihr := ihr hr fun k d h => hg k d (find?_rest hf h)
    rw [replaceAt]
    split
    · rename_i ha
      subst ha
      -- The number occurs nowhere else, so that nothing is replaced below the node or after it.
      simp only [ids_cons, List.nodup_cons, List.mem_append, not_or] at hf
      rw [replaceAt_of_not_mem g hf.1.1] at ihc
      rw [replaceAt_of_not_mem g hf.1.2] at ihr
      rw [find?_append, hg a.kind c (by rw [find?, if_pos rfl]), find?, if_neg (Ne.symm hm)]
      cases hfind : c.find? m with
      | some x =>
        rw [hfind] at ihc
        exact ihc
      | none => exact ihr
    · rw [find?, find?, ihc, ihr]
      split
      · rfl
      · cases c.find? m <;> rfl

theorem rootIds_replaceAt (hf : f.ids.Nodup) (hg : ∀ a c, a.id = n → (g a c).rootIds = ids) :
    (f.replaceAt n g).rootIds = f.rootIds.flatMap fun i => if i = n then ids else [i] := by
  induction f with
  | nil => rfl
  | cons a c r _ ih =>
    have ih := ih (nodup_parts hf).2
    rw [replaceAt, rootIds_cons, List.flatMap_cons]
    split
    · rename_i ha
      subst ha
      simp only [ids_cons, List.nodup_cons, List.mem_append, not_or] at hf
      rw [replaceAt_of_not_mem g hf.1.2] at ih
      rw [rootIds_append, hg a c rfl, ← ih]
    · rw [rootIds_cons, ih]
      rfl

/-- The numbers of the nodes directly below a node. -/
def childIds (f : Forest Node) (m : NodeId) : List NodeId :=
  (f.find? m).elim [] fun x => x.2.rootIds

theorem nodup_of_find? (hf : f.ids.Nodup) (h : f.find? m = some (k, c)) : c.ids.Nodup := by
  obtain ⟨r, hr⟩ := exists_cons_of_find? (P := fun f => f.ids.Nodup) nodup_parts hf h
  exact (nodup_parts hr).1

theorem childIds_replaceAt (hf : f.ids.Nodup) (hm : m ≠ n)
    (hg : ∀ k c, f.find? n = some (k, c) → (g ⟨n, k⟩ c).find? m = c.find? m)
    (hids : ∀ a c, a.id = n → (g a c).rootIds = ids) :
    (f.replaceAt n g).childIds m = (f.childIds m).flatMap fun i => if i = n then ids else [i] := by
  rw [childIds, childIds, find?_replaceAt hf hm hg]
  cases h : f.find? m with
  | none => rfl
  | some x => exact rootIds_replaceAt (nodup_of_find? hf h) hids

theorem childIds_mapKind (n m : NodeId) (g : Kind → Kind) (f : Forest Node) :
    (f.mapKind n g).childIds m = f.childIds m := by
  have helim (x : Option (Kind × Forest Node)) :
      x.elim [] (fun x => x.2.rootIds) = (x.map fun x => x.2.rootIds).getD [] := by
    cases x <;> rfl
  have hfind : ((f.mapKind n g).find? m).map (fun x => x.2.rootIds) =
      (f.find? m).map fun x => x.2.rootIds := by
    induction f with
    | nil => rfl
    | cons a c r ihc ihr =>
      rw [mapKind]
      split
      · rw [find?, find?]
        split <;> rfl
      · rw [find?, find?]
        split
        · exact congrArg some (rootIds_mapKind n g c)
        · simp only [Option.orElse_eq_orElse, Option.orElse_eq_or, Option.map_or, ihc, ihr]
  rw [childIds, childIds, helim, helim, hfind]

/-! ## Taking a tree out -/

theorem find?_remove (hf : f.ids.Nodup) (h : f.find? n = some (k, c)) (hm : m ≠ n) (hc : m ∉ c.ids) :
    (f.remove n).find? m = (f.find? m).map fun x => (x.1, x.2.remove n) := by
  simp only [remove_eq_replaceAt]
  refine find?_replaceAt hf hm fun k' c' h' => ?_
  cases h.symm.trans h'
  exact ((find?_eq_none_iff m c).2 hc).symm

theorem childIds_remove (hf : f.ids.Nodup) (h : f.find? n = some (k, c)) (hm : m ≠ n) (hc : m ∉ c.ids) :
    (f.remove n).childIds m = (f.childIds m).filter (· ≠ n) := by
  have hnone : ∀ (a : Node) (d : Forest Node), a.id = n → (nil : Forest Node).rootIds = [] := fun _ _ _ => rfl
  rw [remove_eq_replaceAt, childIds_replaceAt hf hm ?_ hnone]
  · induction f.childIds m with
    | nil => rfl
    | cons i l ih => by_cases hi : i = n <;> simp_all
  · intro k' c' h'
    cases h.symm.trans h'
    exact ((find?_eq_none_iff m c).2 hc).symm

end HtmlTemplate.Forest
