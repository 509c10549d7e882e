import HtmlTemplate.Proofs.Tree.Numbering

/-! # Forests with trees taken out

`Thin f g` says that `g` is what is left of `f` when some of its trees are taken out, at whatever depth.
A place whose node is left is a place in both: what stood before it is thinned out too, and nothing
came there (`Thin.exists_place`).
-/

namespace HtmlTemplate

open Forest Context

/-- The second forest is what is left of the first, by the numbers of the nodes. -/
inductive Thin : Forest Node → Forest Node → Prop
  | nil : Thin .nil .nil
  | skip {a : Node} {c f g : Forest Node} (h : Thin f g) : Thin (.cons a c f) g
  | keep {a b : Node} {c d f g : Forest Node} (hid : b.id = a.id) (hc : Thin c d) (hf : Thin f g) :
      Thin (.cons a c f) (.cons b d g)

namespace Thin

variable {f g h l r c : Forest Node} {a : Node} {ks : Context}

theorem refl (f : Forest Node) : Thin f f := by
  induction f with
  | nil => exact .nil
  | cons a c f ihc ihf => exact .keep rfl ihc ihf

theorem trans (hfg : Thin f g) (hgh : Thin g h) : Thin f h := by
  induction hfg generalizing h with
  | nil => exact hgh
  | skip _ ih => exact .skip (ih hgh)
  | keep hid _ _ ihc ihf =>
    cases hgh with
    | skip hgh => exact .skip (ihf hgh)
    | keep hid' hc hgh => exact .keep (hid'.trans hid) (ihc hc) (ihf hgh)

theorem remove (n : NodeId) (f : Forest Node) : Thin f (f.remove n) := by
  induction f with
  | nil => exact .nil
  | cons a c f ihc ihf =>
    rw [Forest.remove]
    split
    · exact .skip (refl f)
    · exact .keep rfl ihc ihf

theorem mapKind (n : NodeId) (k : Kind → Kind) (f : Forest Node) : Thin f (f.mapKind n k) := by
  induction f with
  | nil => exact .nil
  | cons a c f ihc ihf =>
    rw [Forest.mapKind]
    split
    · exact .keep rfl (refl c) (refl f)
    · exact .keep rfl ihc ihf

theorem ids_subset (h : Thin f g) : g.ids ⊆ f.ids := by
  induction h with
  | nil => exact List.Subset.refl _
  | skip _ ih =>
    rw [ids_cons]
    exact List.subset_cons_of_subset _ (List.subset_append_of_subset_right _ ih)
  | keep hid _ _ ihc ihf =>
    rw [ids_cons, ids_cons, hid]
    exact List.cons_subset_cons _ (List.append_subset.2
      ⟨List.subset_append_of_subset_left _ ihc, List.subset_append_of_subset_right _ ihf⟩)

theorem rootIds_subset (h : Thin f g) : g.rootIds ⊆ f.rootIds := by
  induction h with
  | nil => exact List.Subset.refl _
  | skip _ ih =>
    rw [rootIds_cons]
    exact List.subset_cons_of_subset _ ih
  | keep hid _ _ _ ihf =>
    rw [rootIds_cons, rootIds_cons, hid]
    exact List.cons_subset_cons _ ihf

theorem exists_append (h : Thin (f ++ r) g) : ∃ f' r', g = f' ++ r' ∧ Thin f f' ∧ Thin r r' := by
  induction f generalizing g with
  | nil => exact ⟨.nil, g, rfl, .nil, h⟩
  | cons a c f _ ih =>
    cases h with
    | skip h =>
      obtain ⟨f', r', rfl, hf, hr⟩ := ih h
      exact ⟨f', r', rfl, .skip hf, hr⟩
    | keep hid hc h =>
      obtain ⟨f', r', rfl, hf, hr⟩ := ih h
      exact ⟨_, r', rfl, .keep hid hc hf, hr⟩

/-- Nothing is left of trees of which no root is left. -/
theorem of_append (h : Thin (l ++ r) g) (hr : ∀ n ∈ r.rootIds, n ∉ g.ids) : Thin l g := by
  obtain ⟨l', r', rfl, hl, hthin⟩ := h.exists_append
  cases r' with
  | nil =>
    rw [Forest.append_nil]
    exact hl
  | cons b d r' =>
    have hb : b.id ∈ r.rootIds := hthin.rootIds_subset (by simp)
    exact absurd (by simp) (hr b.id hb)

theorem exists_cons (h : Thin (l ++ cons a c r) g) (ha : a.id ∈ g.ids)
    (hn : (l ++ cons a c r).ids.Nodup) :
    ∃ (l' : Forest Node) (b : Node) (c' r' : Forest Node), g = l' ++ cons b c' r' ∧ b.id = a.id ∧
      Thin l l' ∧ Thin c c' ∧ Thin r r' := by
  obtain ⟨l', g', rfl, hl, hg⟩ := h.exists_append
  cases hg with
  | keep hid hc hr => exact ⟨l', _, _, _, rfl, hid, hl, hc, hr⟩
  | skip hr =>
    -- No other node has the number, neither before nor behind.
    have hclose : (close [] (l ++ cons a c r)).ids.Nodup := hn
    obtain ⟨-, hal, -, har, -⟩ := apart_of_nodup hclose
    rw [ids_append, List.mem_append] at ha
    rcases ha with ha | ha
    · exact absurd (hl.ids_subset ha) hal
    · exact absurd (hr.ids_subset ha) har

/-- Either a gap stays open with what is left in it, or all that stood in it is gone. -/
theorem exists_gap (h : Thin (close ks f) g) (hn : (close ks f).ids.Nodup) :
    (∃ (ks' : Context) (f' : Forest Node), g = close ks' f' ∧ leading ks' ⊆ leading ks ∧
      (rest ks').ids ⊆ (rest ks).ids ∧ Thin f f') ∨ ∀ m ∈ f.ids, m ∉ g.ids := by
  induction ks generalizing f with
  | nil => exact Or.inl ⟨[], g, rfl, List.Subset.refl _, List.Subset.refl _, h⟩
  | cons k ks ih =>
    rcases ih h hn with ⟨ks', f', rfl, hlead, hrest, hf⟩ | hlost
    · obtain ⟨b, f'', rfl, hb, hf⟩ := hf.exists_append
      cases hf with
      | keep hid hc hr =>
        refine Or.inl ⟨⟨b, _, _⟩ :: ks', _, rfl, ?_, ?_, hc⟩
        · rw [leading_cons, leading_cons]
          have hbefore := hb.ids_subset
          grind
        · rw [rest_cons, rest_cons, ids_append, ids_append]
          have hafter := hr.ids_subset
          grind
      | skip hr =>
        refine Or.inr fun m hm hleft => ?_
        have hbefore := hb.ids_subset
        have hafter := hr.ids_subset
        rw [close_cons, ids_close, ids_append, ids_cons] at hn
        rw [ids_close, ids_append] at hleft
        grind
    · exact Or.inr fun m hm => hlost m (by simp [hm])

theorem exists_place (h : Thin (close ks (l ++ cons a c r)) g) (ha : a.id ∈ g.ids)
    (hn : (close ks (l ++ cons a c r)).ids.Nodup) :
    ∃ (ks' : Context) (l' : Forest Node) (b : Node) (c' r' : Forest Node),
      g = close ks' (l' ++ cons b c' r') ∧ b.id = a.id ∧ leading ks' ⊆ leading ks ∧
        Thin l l' ∧ Thin c c' ∧ Thin r r' := by
  have hin : (l ++ cons a c r).ids.Nodup := by
    rw [ids_close] at hn
    exact (List.nodup_append.1 (List.nodup_append.1 hn).2.1).1
  obtain ⟨hk, -, -, -, hrk⟩ := apart_of_nodup hn
  rcases h.exists_gap hn with ⟨ks', f', rfl, hlead, hrest, hf⟩ | hlost
  · have hmem : a.id ∈ f'.ids := by
      rw [ids_close, List.mem_append, List.mem_append] at ha
      exact (ha.resolve_left fun hm => hk (hlead hm)).resolve_right fun hm => hrk (hrest hm)
    obtain ⟨l', b, c', r', rfl, hid, hl, hc, hr⟩ := hf.exists_cons hmem hin
    exact ⟨ks', l', b, c', r', rfl, hid, hlead, hl, hc, hr⟩
  · exact absurd ha (hlost a.id (by simp))

end Thin

end HtmlTemplate
