import HtmlTemplate.Proofs.Directive.Effect

/-! # Effects in a document

Where an element stands in a niche of the document, a directive does to the document what its effect
does to the niche (`shows_move`).
-/

namespace HtmlTemplate

open Forest Context HtmlTemplate.Tree Niche

variable {ks : Context} {x : Niche Node} {a : Node} {c loose : Forest Node} {next : NodeId}
  {marked : Option NodeId} {s : Site}

/-! ## Elements in niches -/

theorem around_fill (ks : Context) (x : Niche Node) (f loose : Forest Node) (next : NodeId)
    (marked : Option NodeId) :
    around ks (x.fill f) loose next marked =
      around (x.frames ++ ks) (x.left ++ (f ++ x.right)) loose next marked := by
  rw [around_append, fill_eq_close]

theorem around_plant (ks : Context) (x z : Niche Node) (f loose : Forest Node) (next : NodeId)
    (marked : Option NodeId) :
    around (x.frames ++ ks) (z.fill f) loose next marked =
      around ks ((x.plant z).fill f) loose next marked := by
  rw [around_append, fill_plant]

/-- The handler has failed as the niche says, or it leaves the element in that niche, with new nodes from
`next` on. -/
def Shows (ks : Context) (a : Node) (c loose : Forest Node) (next : NodeId) (marked : Option NodeId)
    (out : Outcome) : Except TemplateError (Niche Node) → Prop
  | .ok y => out.error = none ∧
      ∃ next', next ≤ next' ∧ out.tree = around ks (y.fill (tree a c)) loose next' marked
  | .error e => out.error = some e

/-- The node that is marked after an effect. -/
def Effect.marks (s : Site) (marked : Option NodeId) : Effect → Option NodeId
  | mark => some s.node
  | _ => marked

namespace Handler

/-! ## New nodes -/

section New

variable (hs : s.node = a.id) (ht : (around ks (x.fill (tree a c)) loose next marked).Numbered)
include hs ht

theorem shows_flank (p : Leaf) (q : Option Leaf) :
    Shows ks a c loose next marked ((Effect.flank p q).perform s (around ks (x.fill (tree a c)) loose next marked))
      ((Effect.flank p q).move (.numbered next) s x) := by
  rw [around_fill, tree_append] at ht ⊢
  cases q with
  | none =>
    refine ⟨rfl, next + 1, Nat.le_add_right next 1, ?_⟩
    rw [Effect.perform, putBefore_around hs p.isConditional ht, Niche.flank, ← around_plant, fill,
      Forest.append_assoc]
    rfl
  | some q =>
    refine ⟨rfl, next + 2, Nat.le_add_right next 2, ?_⟩
    rw [Effect.perform, putAround_around hs p.isConditional ht q.isConditional, Niche.flank,
      ← around_plant, fill, Forest.append_assoc]
    rfl

theorem shows_wrap (hv : s.parameter.isSome = true) :
    Shows ks a c loose next marked (loop s (around ks (x.fill (tree a c)) loose next marked))
      (.ok (x.wrap ⟨next, .loop s.code⟩)) := by
  obtain ⟨v, hv⟩ := Option.isSome_iff_exists.1 hv
  rw [around_fill, tree_append] at ht ⊢
  rw [loop_some hs ht hv]
  refine ⟨rfl, next + 1, Nat.le_add_right next 1, ?_⟩
  rw [Niche.wrap, ← around_plant]
  rfl

theorem shows_wrapTest (hv : s.parameter.isSome = true) :
    Shows ks a c loose next marked (condition s (around ks (x.fill (tree a c)) loose next marked))
      (.ok (x.wrapTest ⟨next, .conditional s.code⟩ ⟨next + 1, .branch⟩ ⟨next + 2, .branch⟩)) := by
  obtain ⟨v, hv⟩ := Option.isSome_iff_exists.1 hv
  rw [around_fill, tree_append] at ht ⊢
  rw [condition_some hs ht hv]
  refine ⟨rfl, next + 3, Nat.le_add_right next 3, ?_⟩
  rw [Niche.wrapTest, ← around_plant]
  rfl

/-! ## Going on with a loop -/

theorem shows_again (hv : s.parameter = none) :
    Shows ks a c loose next marked (loop s (around ks (x.fill (tree a c)) loose next marked)) (x.again Node.kind) := by
  rw [around_fill, tree_append] at ht ⊢
  rw [Niche.again]
  split
  · rename_i l b m hcut
    obtain ⟨hl, hb, -⟩ := cutLast_eq_some hcut
    rw [hl, Forest.append_assoc, cons_append, nil_append] at ht ⊢
    rw [loop_none hs hv hb ht]
    refine ⟨rfl, next, Nat.le_refl next, ?_⟩
    rw [← around_plant, fill, fill, Forest.append_nil]
  · rename_i hcut
    cases hprev : ((around (x.frames ++ ks) (x.left ++ cons a c x.right) loose next
        marked).previousSibling? a.id).filter
          (around (x.frames ++ ks) (x.left ++ cons a c x.right) loose next marked).isLoop with
    | some n =>
      obtain ⟨l, b, m, hl, -, hb⟩ := exists_loop_before ht hprev
      have htree : (tree b m).cutLast (fun a => a.kind.isLoop) = some ⟨nil, b, m, nil⟩ := by
        simp [tree, cutLast, hb]
      refine (hcut l b m ?_).elim
      rw [hl, cutLast_append htree l, Forest.append_nil]
    | none =>
      rw [loop, hv, hs]
      simp only [hprev]
      rfl

end New

/-! ## Going on with a conditional -/

/-- Through loops around it alone, an element is climbed from to the node above them. -/
theorem climbLoops_bare {t : Tree} {k : Frame} (ht : t.forest.ids.Nodup) (hx : x.isBare Node.kind = true)
    (hk : k.node.kind.isLoop = true) (h : t.forest = close (k :: ks) (x.fill (tree a c))) :
    t.climbLoops a.id (above (x.frames ++ k :: ks)) = t.climbLoops k.node.id (above ks) := by
  induction x generalizing k ks with
  | here b f =>
    simp only [isBare, Bool.and_eq_true, isEmpty_eq_true] at hx
    obtain ⟨rfl, rfl⟩ := hx
    exact climbLoops_loop ht h hk
  | inside b o x f ih =>
    simp only [isBare, Bool.and_eq_true, isEmpty_eq_true] at hx
    obtain ⟨⟨rfl, rfl⟩, ho, hx⟩ := hx
    have hin : t.climbLoops a.id (above (x.frames ++ ⟨nil, o, nil⟩ :: k :: ks)) =
        t.climbLoops o.id (above (k :: ks)) := ih hx ho h
    rw [frames, List.append_assoc, List.singleton_append, hin]
    exact climbLoops_loop ht h hk

/-- The top of a niche that holds nothing but loops around the gap is climbed to, and no further if
there is something else beside it or around it. -/
theorem climbLoops_unit {t : Tree} (ht : t.forest.ids.Nodup) (h : t.forest = close ks (x.fill (tree a c)))
    (hks : ∀ k ∈ ks.head?, k.node.kind.isLoop = true → x.isBare Node.kind = false)
    (hx : ∀ b o y f, x = .inside b o y f → o.kind.isLoop = true ∧ y.isBare Node.kind = true) :
    t.climbLoops a.id (above (x.frames ++ ks)) = (x.unit a c).1.id := by
  cases x with
  | here b f =>
    refine climbLoops_self ht h fun k hk hloop hnil => ?_
    obtain ⟨rfl, rfl⟩ := Forest.append_eq_nil hnil
    cases hks k hk hloop
  | inside b o x f =>
    obtain ⟨ho, hbare⟩ := hx b o x f rfl
    rw [frames, List.append_assoc, List.singleton_append]
    rw [climbLoops_bare (k := ⟨b, o, f⟩) ht hbare ho h]
    refine climbLoops_self ht h fun k hk hloop hnil => ?_
    obtain ⟨rfl, rfl⟩ := Forest.append_eq_nil hnil
    have := hks k hk hloop
    simp [isBare, isEmpty, ho, hbare] at this

theorem unit_fill (ht : (around ks (x.fill (tree a c)) loose next marked).Shaped)
    (hks : ∀ k ∈ ks.head?, k.node.kind.isLoop = true → x.isBare Node.kind = false)
    (hx : ∀ b o y f, x = .inside b o y f → o.kind.isLoop = true ∧ y.isBare Node.kind = true) :
    (around ks (x.fill (tree a c)) loose next marked).unit a.id = (x.unit a c).1.id := by
  have hplace := around_forest (x.frames ++ ks) (x.left ++ cons a c x.right) loose next marked
  rw [← tree_append, ← around_fill] at hplace
  rw [Tree.unit, ancestors_at ht.numbered.nodup hplace, List.append_assoc]
  refine climbLoops_unit ht.numbered.nodup (around_forest ..) (fun k hk hloop => ?_) hx
  cases ks with
  | nil =>
    -- The document is no loop.
    cases hk
    cases hloop
  | cons k' ks => exact hks k hk hloop

theorem shows_joinTop {n : NodeId} (side : Side) (alone : TemplateError)
    (ht : (around ks (x.fill (tree a c)) loose next marked).Shaped)
    (hu : (around ks (x.fill (tree a c)) loose next marked).unit n = (x.unit a c).1.id) :
    Shows ks a c loose next marked (join side alone n (around ks (x.fill (tree a c)) loose next marked))
      (x.joinTop Node.kind side alone) := by
  have hfill : x.fill (tree a c) = x.before ++ cons (x.unit a c).1 (x.unit a c).2 x.after := by
    rw [← fill_set, set_self]
  rw [hfill] at ht hu ⊢
  rw [joinTop]
  cases hcut : x.before.cutLast fun a => a.kind.isConditional with
  | none =>
    rw [join_alone ht.numbered hu (cutLast_eq_none hcut)]
    rfl
  | some cut =>
    obtain ⟨l, b, g, m⟩ := cut
    obtain ⟨hl, hb, hm⟩ := cutLast_eq_some hcut
    dsimp only at hl hb hm
    rw [hl, Forest.append_assoc, cons_append] at ht hu ⊢
    obtain ⟨k₁, k₂, c₁, c₂, rfl, -, h₂⟩ := ht.exists_branches (around_forest ..) hb
    cases side with
    | holds =>
      by_cases hc : c₂ = nil
      · rw [join_holds ht.numbered hb hm hu hc]
        simp only [tree, enter, h₂, hc, isEmpty, if_true]
        refine ⟨rfl, next, Nat.le_refl next, ?_⟩
        simp only [fill, fill_set, nil_append, Forest.append_assoc]
      · rw [join_holds_error ht.numbered hb hm hu hc]
        have hempty : c₂.isEmpty = false := by
          cases c₂ with
          | nil => exact absurd rfl hc
          | cons k d r => rfl
        simp only [tree, enter, h₂, hempty, if_true, Bool.false_eq_true, if_false]
        rfl
    | fails =>
      rw [join_fails ht.numbered hb hm hu]
      refine ⟨rfl, next, Nat.le_refl next, ?_⟩
      simp only [fill, fill_set, Forest.append_assoc]
      rfl

theorem shows_join (side : Side) (alone : TemplateError)
    (ht : (around ks (x.fill (tree a c)) loose next marked).Shaped)
    (hks : ∀ k ∈ ks.head?, k.node.kind.isLoop = true → x.isBare Node.kind = false) :
    Shows ks a c loose next marked (join side alone a.id (around ks (x.fill (tree a c)) loose next marked))
      (x.join Node.kind side alone) := by
  induction x generalizing ks with
  | here b f => exact shows_joinTop side alone ht (unit_fill ht hks fun _ _ _ _ h => by cases h)
  | inside b o x f ih =>
    rw [Niche.join]
    by_cases hbare : o.kind.isLoop = true ∧ x.isBare Node.kind = true
    · rw [if_pos (by simpa using hbare)]
      refine shows_joinTop side alone ht (unit_fill ht hks fun _ _ _ _ h => ?_)
      cases h
      exact hbare
    · rw [if_neg (by simpa using hbare)]
      have hhead : ∀ k ∈ (⟨b, o, f⟩ :: ks : Context).head?, k.node.kind.isLoop = true →
          x.isBare Node.kind = false := by
        intro k hk hloop
        cases hk
        exact Bool.eq_false_iff.2 fun hx => hbare ⟨hloop, hx⟩
      have hin := ih ht hhead
      cases hjoin : x.join Node.kind side alone with
      | error e =>
        rw [hjoin] at hin
        exact hin
      | ok y =>
        rw [hjoin] at hin
        exact hin

/-! ## All effects on the niche -/

/-- A directive that acts on the niche of its element does to the document what its effect does to the
niche. -/
theorem shows_move {e : Effect} (hs : s.node = a.id)
    (ht : (around ks (x.fill (tree a c)) loose next marked).Shaped)
    (hks : ∀ k ∈ ks.head?, k.node.kind.isLoop = false) (he : e.onNiche = true) :
    Shows ks a c loose next (e.marks s marked)
      (e.perform s (around ks (x.fill (tree a c)) loose next marked)) (e.move (.numbered next) s x) := by
  have hks' : ∀ k ∈ ks.head?, k.node.kind.isLoop = true → x.isBare Node.kind = false := by
    intro k hk hloop
    rw [hks k hk] at hloop
    cases hloop
  cases e with
  | mark => exact ⟨rfl, next, Nat.le_refl next, rfl⟩
  | flank p q => exact shows_flank hs ht.numbered p q
  | loop =>
    rw [Effect.move]
    split
    · exact shows_wrap hs ht.numbered ‹_›
    · rename_i hv
      exact shows_again hs ht.numbered (Option.not_isSome_iff_eq_none.1 hv)
  | condition =>
    rw [Effect.move]
    split
    · exact shows_wrapTest hs ht.numbered ‹_›
    · rename_i hv
      rw [Effect.perform, condition, Option.not_isSome_iff_eq_none.1 hv, hs]
      exact shows_join .holds .ifAlone ht hks'
  | otherwise =>
    rw [Effect.perform, otherwise, hs]
    exact shows_join .fails .elseAlone ht hks'
  | fail e => rfl
  | remove | content | change => cases he

end Handler

end HtmlTemplate
