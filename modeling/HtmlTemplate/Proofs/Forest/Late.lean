import HtmlTemplate.Proofs.Directive.Declarations
import HtmlTemplate.Proofs.Directive.Effect

/-! # Forests without eager fragments

Directives look at what stands before their element. They see the same without the eager fragments there
(`join_late`), unless an element is to go on with the loop right before it (`again_late`): a branch that
is not empty has something else in it, and there are no eager fragments right below a loop (`Firm`).
-/

namespace HtmlTemplate

open Forest

/-! ## Late nodes -/

namespace Kind

theorem isLate_of_isElement {k : Kind} (h : k.isElement = true) : k.isLate = true := by
  cases k <;> simp_all [isElement, isLate, eager?]

theorem isLate_of_isLoop {k : Kind} (h : k.isLoop = true) : k.isLate = true := by
  cases k <;> simp_all [isLoop, isLate, eager?]

theorem isLate_of_isConditional {k : Kind} (h : k.isConditional = true) : k.isLate = true := by
  cases k <;> simp_all [isConditional, isLate, eager?]

/-- Nodes of the given kinds may stand below a node of kind `k`: a branch that is not empty has some node
that is late, a loop has no others, and a conditional has branches. -/
def bears (k : Kind) (below : List Kind) : Prop :=
  match k with
  | loop _ => ∀ x ∈ below, x.isLate = true
  | conditional _ => ∀ x ∈ below, x = branch
  | branch => below = [] ∨ ∃ x ∈ below, x.isLate = true
  | code _ => below = []
  | _ => True

theorem isLate_of_bears {k x : Kind} {l : List Kind} (h : k.bears l) (hx : x ∈ l) : k.isLate = true := by
  cases k with
  | code f =>
    rw [show l = [] from h] at hx
    cases hx
  | document | element | text | conditional | branch | loop => rfl

theorem eq_branch_of_bears {k : Kind} {l : List Kind} (hk : k.isConditional = true) (h : k.bears l) :
    ∀ x ∈ l, x = branch := by
  cases k with
  | conditional test => exact h
  | document | element | text | code | branch | loop => cases hk

theorem isLate_of_loop_bears {k : Kind} {l : List Kind} (hk : k.isLoop = true) (h : k.bears l) :
    ∀ x ∈ l, x.isLate = true := by
  cases k with
  | loop code => exact h
  | document | element | text | code | branch | conditional => cases hk

/-- Other nodes may be below a node if they are late or were there before, and something stood there that is
no branch. -/
theorem bears_change {k : Kind} {l l' : List Kind} (h : k.bears l) (hl : ∃ x ∈ l, x ≠ branch)
    (hl' : ∀ x ∈ l', x ∈ l ∨ x.isLate = true) (hlate : ∃ x ∈ l', x.isLate = true) : k.bears l' := by
  obtain ⟨y, hy, hbranch⟩ := hl
  cases k with
  | loop code => exact fun x hx => (hl' x hx).elim (h x) id
  | conditional test => exact absurd (h y hy) hbranch
  | branch => exact Or.inr hlate
  | code f =>
    rw [show l = [] from h] at hy
    cases hy
  | document | element | text => trivial

theorem bears_of_isLoop {k : Kind} (hk : k.isLoop = true) {l : List Kind}
    (hl : ∀ x ∈ l, x.isLate = true) : k.bears l := by
  cases k with
  | loop code => exact hl
  | document | element | text | code | branch | conditional => cases hk

theorem bears_of_isConditional {k : Kind} (hk : k.isConditional = true) {l : List Kind}
    (hl : ∀ x ∈ l, x = branch) : k.bears l := by
  cases k with
  | conditional test => exact hl
  | document | element | text | code | branch | loop => cases hk

theorem bears_of_isElement {k : Kind} (hk : k.isElement = true) (l : List Kind) : k.bears l := by
  cases k <;> simp_all [isElement, bears]

end Kind

namespace Forest

/-- The forest without the nodes that are written ahead of all output. -/
def late : Forest Node → Forest Node
  | nil => nil
  | cons a c r => if a.kind.isLate then cons a (late c) (late r) else late r

variable {a : Node} {c r f g : Forest Node}

@[simp] theorem late_nil : (nil : Forest Node).late = nil := rfl

theorem late_cons (h : a.kind.isLate = true) : (cons a c r).late = cons a c.late r.late := if_pos h

theorem late_cons_eager (h : a.kind.isLate = false) : (cons a c r).late = r.late :=
  if_neg (Bool.eq_false_iff.1 h)

theorem late_tree (h : a.kind.isLate = true) : (tree a c).late = tree a c.late := late_cons h

@[simp] theorem late_append (f g : Forest Node) : (f ++ g).late = f.late ++ g.late := by
  induction f with
  | nil => rfl
  | cons a c r _ ih =>
    rw [cons_append, late, late, ih]
    split <;> rfl

theorem rootKinds_late (f : Forest Node) : f.late.rootKinds = f.rootKinds.filter Kind.isLate := by
  induction f with
  | nil => rfl
  | cons a c r _ ih =>
    rw [late, rootKinds_cons, List.filter_cons]
    split
    · rw [rootKinds_cons, ih]
    · exact ih

theorem late_late (f : Forest Node) : f.late.late = f.late := by
  induction f with
  | nil => rfl
  | cons a c r ihc ihr =>
    rw [late]
    split
    · rename_i h
      rw [late_cons h, ihc, ihr]
    · exact ihr

theorem isEmpty_eq (f : Forest Node) : f.isEmpty = f.rootKinds.isEmpty := by
  cases f <;> rfl

/-- Some node at the top is late, if there is one. -/
theorem isEmpty_late (h : f.rootKinds = [] ∨ ∃ k ∈ f.rootKinds, k.isLate = true) :
    f.late.isEmpty = f.isEmpty := by
  rw [isEmpty_eq, isEmpty_eq, rootKinds_late]
  rcases h with h | ⟨k, hk, hlate⟩
  · rw [h]
    rfl
  · rw [List.isEmpty_eq_false_iff_exists_mem.2 ⟨k, hk⟩,
      List.isEmpty_eq_false_iff_exists_mem.2 ⟨k, List.mem_filter.2 ⟨hk, hlate⟩⟩]

theorem isEmpty_late_of_forall (h : ∀ k ∈ f.rootKinds, k.isLate = true) : f.late.isEmpty = f.isEmpty := by
  refine isEmpty_late ?_
  cases hroots : f.rootKinds with
  | nil => exact Or.inl rfl
  | cons k ks =>
    rw [hroots] at h
    exact Or.inr ⟨k, List.mem_cons_self .., h k (List.mem_cons_self ..)⟩

/-- The last node at the top is eager. -/
def EndsEager (f : Forest Node) : Prop :=
  ∃ k ∈ f.rootKinds.getLast?, k.isLate = false

theorem not_endsEager_nil : ¬(nil : Forest Node).EndsEager := fun ⟨_, hk, _⟩ => nomatch hk

theorem endsEager_append (h : g.EndsEager) : (f ++ g).EndsEager := by
  obtain ⟨k, hk, heager⟩ := h
  refine ⟨k, ?_, heager⟩
  rw [rootKinds_append, List.getLast?_append, show g.rootKinds.getLast? = some k from hk]
  rfl

theorem endsEager_of_late (hf : f ≠ nil) (h : f.late = nil) : f.EndsEager := by
  have hfilter := rootKinds_late f
  rw [h, rootKinds_nil] at hfilter
  cases hlast : f.rootKinds.getLast? with
  | none =>
    cases f with
    | nil => exact absurd rfl hf
    | cons a c r => simp at hlast
  | some k =>
    refine ⟨k, hlast, ?_⟩
    have := List.filter_eq_nil_iff.1 hfilter.symm k (List.mem_of_getLast? hlast)
    exact Bool.eq_false_iff.2 this

/-- A late node ends the eager fragments before it. -/
theorem not_endsEager_cons (ha : a.kind.isLate = true) (hr : ∀ k ∈ r.rootKinds, k.isLate = true) :
    ¬(f ++ cons a c r).EndsEager := by
  rintro ⟨k, hk, heager⟩
  rw [rootKinds_append, List.getLast?_append, rootKinds_cons, List.getLast?_cons, Option.some_or] at hk
  have hmem : k ∈ a.kind :: r.rootKinds := by
    cases hlast : r.rootKinds.getLast? with
    | none =>
      rw [hlast] at hk
      exact Option.some.inj hk ▸ List.mem_cons_self ..
    | some k' =>
      rw [hlast] at hk
      exact Option.some.inj hk ▸ List.mem_cons_of_mem _ (List.mem_of_getLast? hlast)
  rcases List.mem_cons.1 hmem with rfl | hmem
  · simp [ha] at heager
  · simp [hr k hmem] at heager

/-- A forest cut at one of the trees at its top, without eager fragments. -/
def Cut.late (x : Cut Node) : Cut Node :=
  ⟨x.before.late, x.label, x.below.late, x.after.late⟩

theorem cutLast_late {p : Kind → Bool} (hp : ∀ k, p k = true → k.isLate = true) (f : Forest Node) :
    f.late.cutLast (fun a => p a.kind) = (f.cutLast fun a => p a.kind).map Cut.late := by
  induction f with
  | nil => rfl
  | cons a c r _ ih =>
    by_cases ha : a.kind.isLate = true
    · rw [late_cons ha, cutLast, cutLast, ih]
      cases r.cutLast fun a => p a.kind with
      | some x => simp [Cut.late, late_cons ha]
      | none => cases hpa : p a.kind <;> simp [Cut.late]
    · have ha := Bool.eq_false_iff.2 ha
      rw [late_cons_eager ha, cutLast, ih]
      cases r.cutLast fun a => p a.kind with
      | some x => simp [Cut.late, late_cons_eager ha]
      | none =>
        have hpa : p a.kind = false := Bool.eq_false_iff.2 fun h => by simp [hp _ h] at ha
        simp [hpa]

/-! ## Firm forests -/

/-- Every node may have what stands below it, and only new nodes are eager. -/
def Firm : Forest Node → Prop
  | nil => True
  | cons a c r => (a.kind.isLate = false → a.id = Tree.root) ∧ a.kind.bears c.rootKinds ∧ Firm c ∧ Firm r

theorem firm_nil : (nil : Forest Node).Firm := trivial

theorem firm_append : (f ++ g).Firm ↔ f.Firm ∧ g.Firm := by
  induction f with
  | nil => exact (and_iff_right trivial).symm
  | cons a c r _ ih =>
    rw [cons_append, Firm, Firm, ih]
    tauto

theorem firm_cons (ha : a.kind.isLate = true) :
    (cons a c r).Firm ↔ a.kind.bears c.rootKinds ∧ c.Firm ∧ r.Firm := by
  rw [Firm, ha]
  exact and_iff_right nofun

theorem firm_tree (ha : a.kind.isLate = true) : (tree a c).Firm ↔ a.kind.bears c.rootKinds ∧ c.Firm := by
  rw [tree, firm_cons ha]
  exact and_congr_right fun _ => and_iff_left trivial

end Forest

namespace Context

variable {ks : Context} {f g : Forest Node}

theorem firm_of_close (ks : Context) {f : Forest Node} (h : (close ks f).Firm) : f.Firm := by
  induction ks generalizing f with
  | nil => exact h
  | cons k ks ih => exact (firm_append.1 (ih h)).2.2.2.1

theorem firm_close (h : (close ks f).Firm) (hg : g.Firm)
    (hroots : ∀ k : Kind, k.bears f.rootKinds → k.bears g.rootKinds) : (close ks g).Firm := by
  induction ks generalizing f g with
  | nil => exact hg
  | cons k ks ih =>
    have hinner := firm_append.1 (firm_of_close ks h)
    refine ih h (firm_append.2 ⟨hinner.1, ?_⟩) ?_
    · exact ⟨hinner.2.1, hroots _ hinner.2.2.1, hg, hinner.2.2.2.2⟩
    · intro k'
      simp only [rootKinds_append, rootKinds_cons]
      exact id

end Context

/-! ## Niches -/

namespace Niche

/-- A niche without eager fragments around it. -/
def late : Niche Node → Niche Node
  | here b a => here b.late a.late
  | inside b o x a => inside b.late o x.late a.late

variable {x y z : Niche Node} {a : Node} {c : Forest Node} {side : Handler.Side} {alone : TemplateError}

theorem left_late (x : Niche Node) : x.late.left = x.left.late := by
  induction x with
  | here b a => rfl
  | inside b o x a ih => exact ih

theorem right_late (x : Niche Node) : x.late.right = x.right.late := by
  induction x with
  | here b a => rfl
  | inside b o x a ih => exact ih

theorem before_late (x : Niche Node) : x.late.before = x.before.late := by
  cases x <;> rfl

theorem after_late (x : Niche Node) : x.late.after = x.after.late := by
  cases x <;> rfl

theorem set_late (b a : Forest Node) (x : Niche Node) : (x.set b a).late = x.late.set b.late a.late := by
  cases x <;> rfl

theorem plant_late (x z : Niche Node) : (x.plant z).late = x.late.plant z.late := by
  induction x with
  | here b a => rfl
  | inside b o x a ih => exact congrArg (inside _ o · _) ih

theorem exists_mem_rootKinds_fill (x : Niche Node) (a : Node) (c : Forest Node) :
    ∃ k, k ∈ (x.fill (tree a c)).rootKinds := by
  cases x with
  | here b r => exact ⟨a.kind, by simp [fill]⟩
  | inside b o x r => exact ⟨o.kind, by simp [fill]⟩

/-- With a late node in the gap, the eager fragments of a forest are those around the gap. -/
theorem late_fill (h : (x.fill (tree a c)).Firm) (f : Forest Node) :
    (x.fill f).late = x.late.fill f.late := by
  induction x with
  | here b r => simp [fill, late]
  | inside b o x r ih =>
    rw [fill, firm_append] at h
    obtain ⟨k, hk⟩ := exists_mem_rootKinds_fill x a c
    have ho := Kind.isLate_of_bears h.2.2.1 hk
    rw [fill, late_append, late_cons ho, ih h.2.2.2.1]
    rfl

theorem isBare_late (h : (x.fill (tree a c)).Firm)
    (hroots : ∀ k ∈ (x.fill (tree a c)).rootKinds, k.isLate = true) :
    x.late.isBare Node.kind = x.isBare Node.kind := by
  induction x with
  | here b r =>
    have hb : b.late.isEmpty = b.isEmpty := isEmpty_late_of_forall fun k hk => hroots k (by simp [fill, hk])
    have hr : r.late.isEmpty = r.isEmpty := isEmpty_late_of_forall fun k hk => hroots k (by simp [fill, hk])
    rw [late, isBare, isBare, hb, hr]
  | inside b o x r ih =>
    have hb : b.late.isEmpty = b.isEmpty := isEmpty_late_of_forall fun k hk => hroots k (by simp [fill, hk])
    have hr : r.late.isEmpty = r.isEmpty := isEmpty_late_of_forall fun k hk => hroots k (by simp [fill, hk])
    rw [fill, firm_append] at h
    rw [late, isBare, isBare, hb, hr]
    by_cases ho : o.kind.isLoop = true
    · rw [ih h.2.2.2.1 (Kind.isLate_of_loop_bears ho h.2.2.1)]
    · simp [ho]

theorem enter_late {f : Forest Node} {u v : Forest Node → Niche Node}
    (huv : ∀ c, v c.late = (u c).late) (hf : f.Firm) (hroots : ∀ k ∈ f.rootKinds, k = .branch) :
    enter Node.kind alone v side f.late = (enter Node.kind alone u side f).map late := by
  have hbranch {k : Node} (hk : k.kind = .branch) : k.kind.isLate = true := by rw [hk]; rfl
  match f with
  | nil => cases side <;> rfl
  | cons k₁ c₁ nil =>
    obtain ⟨h₁, -⟩ := List.forall_mem_cons.1 hroots
    rw [late_cons (hbranch h₁), late_nil]
    cases side <;> rfl
  | cons k₁ c₁ (cons k₂ c₂ (cons k₃ c₃ r)) =>
    obtain ⟨h₁, hroots⟩ := List.forall_mem_cons.1 hroots
    obtain ⟨h₂, hroots⟩ := List.forall_mem_cons.1 hroots
    obtain ⟨h₃, -⟩ := List.forall_mem_cons.1 hroots
    rw [late_cons (hbranch h₁), late_cons (hbranch h₂), late_cons (hbranch h₃)]
    cases side <;> rfl
  | cons k₁ c₁ (cons k₂ c₂ nil) =>
    obtain ⟨h₁, hroots⟩ := List.forall_mem_cons.1 hroots
    obtain ⟨h₂, -⟩ := List.forall_mem_cons.1 hroots
    rw [late_cons (hbranch h₁), late_cons (hbranch h₂), late_nil]
    cases side with
    | fails =>
      rw [enter, enter, huv]
      exact congrArg (fun b => Except.ok (inside b k₂ _ nil)) (late_tree (hbranch h₁)).symm
    | holds =>
      have hempty : c₂.late.isEmpty = c₂.isEmpty := by
        have hbears := hf.2.2.2.2.1
        rw [h₂] at hbears
        exact isEmpty_late hbears
      rw [enter, enter, hempty, if_pos h₂, huv]
      split
      · exact congrArg (fun r => Except.ok (inside nil k₁ _ r)) (late_tree (hbranch h₂)).symm
      · rfl

theorem joinTop_late (h : x.before.Firm) :
    x.late.joinTop Node.kind side alone = (x.joinTop Node.kind side alone).map late := by
  unfold joinTop
  rw [before_late, cutLast_late fun _ => Kind.isLate_of_isConditional]
  cases hcut : x.before.cutLast fun a => a.kind.isConditional with
  | none => rfl
  | some cut =>
    obtain ⟨hbefore, hlabel, -⟩ := cutLast_eq_some hcut
    rw [hbefore, firm_append] at h
    have hbelow := Kind.eq_branch_of_bears hlabel h.2.2.1
    have hset (c : Forest Node) :
        x.late.set (c.late ++ cut.late.after) nil = (x.set (c ++ cut.after) nil).late := by
      rw [set_late, late_append]
      rfl
    simp only [Option.map_some]
    rw [show cut.late.below = cut.below.late from rfl,
      enter_late (u := fun c => x.set (c ++ cut.after) nil) hset h.2.2.2.1 hbelow]
    cases enter Node.kind alone (fun c => x.set (c ++ cut.after) nil) side cut.below with
    | error e => rfl
    | ok z => exact congrArg (fun r => Except.ok (inside _ _ z.late r)) (after_late x)

theorem join_late (h : (x.fill (tree a c)).Firm) :
    x.late.join Node.kind side alone = (x.join Node.kind side alone).map late := by
  induction x with
  | here b r => exact joinTop_late (x := here b r) (firm_append.1 h).1
  | inside b o x r ih =>
    rw [fill, firm_append] at h
    have hbare : (o.kind.isLoop && x.late.isBare Node.kind) = (o.kind.isLoop && x.isBare Node.kind) := by
      by_cases ho : o.kind.isLoop = true
      · rw [isBare_late h.2.2.2.1 (Kind.isLate_of_loop_bears ho h.2.2.1)]
      · simp [ho]
    rw [late, join, join, hbare]
    split
    · exact joinTop_late (x := inside b o x r) h.1
    · rw [ih h.2.2.2.1]
      cases x.join Node.kind side alone <;> rfl

/-- An element goes on with the loop before it, and does so without the eager fragments too. -/
theorem again_late (h : x.again Node.kind = .ok y) : x.late.again Node.kind = .ok y.late := by
  unfold again at h ⊢
  rw [left_late, cutLast_late fun _ => Kind.isLate_of_isLoop]
  split at h
  · rename_i b o c hcut
    cases h
    rw [hcut, plant_late, right_late]
    rfl
  · cases h

/-- There is no loop right before an element. Without the eager fragments there is none either, unless one
of them is right before the element. -/
theorem again_late_error {e : TemplateError} (h : x.again Node.kind = .error e) :
    x.late.again Node.kind = .error e ∨ e = .foreachAlone ∧ x.left.EndsEager := by
  unfold again at h ⊢
  rw [left_late, cutLast_late fun _ => Kind.isLate_of_isLoop]
  cases hcut : x.left.cutLast fun a => a.kind.isLoop with
  | none =>
    rw [hcut] at h
    exact Or.inl h
  | some cut =>
    obtain ⟨b, o, c, r⟩ := cut
    rw [hcut] at h
    cases r with
    | nil => cases h
    | cons k d r =>
      cases hlate : (cons k d r).late with
      | cons k' d' r' =>
        rw [Option.map_some, Cut.late, hlate]
        exact Or.inl h
      | nil =>
        have hleft : x.left = b ++ tree o c ++ cons k d r := by
          rw [Forest.append_assoc, tree_append]
          exact (cutLast_eq_some hcut).1
        rw [hleft]
        exact Or.inr ⟨(Except.error.inj h).symm, endsEager_append (endsEager_of_late nofun hlate)⟩

/-! ## Firm niches -/

section Firm

variable (ha : a.kind.isElement = true) (hx : (x.fill (tree a c)).Firm)
include ha hx

omit ha in
theorem firm_beside : x.left.Firm ∧ (tree a c).Firm ∧ x.right.Firm := by
  rw [fill_eq_close] at hx
  have h := firm_append.1 (Context.firm_of_close _ hx)
  exact ⟨h.1, firm_append.1 h.2⟩

/-- Another niche in place of the gap and the trees beside it. -/
theorem firm_plant (hz : (z.fill (tree a c)).Firm)
    (hnew : ∀ k ∈ (z.fill (tree a c)).rootKinds,
      k ∈ x.left.rootKinds ∨ k ∈ x.right.rootKinds ∨ k.isLate = true)
    (hlate : ∃ k ∈ (z.fill (tree a c)).rootKinds, k.isLate = true) :
    ((x.plant z).fill (tree a c)).Firm := by
  rw [fill_plant]
  rw [fill_eq_close] at hx
  refine Context.firm_close hx hz fun k hk => Kind.bears_change hk ⟨a.kind, by simp, ?_⟩ ?_ hlate
  · intro h
    rw [h] at ha
    cases ha
  · intro y hy
    rcases hnew y hy with h | h | h
    · exact Or.inl (by simp [h])
    · exact Or.inl (by simp [h])
    · exact Or.inr h

theorem firm_flank {f g : Forest Node} (hf : f.Firm) (hg : g.Firm)
    (hfl : ∀ k ∈ f.rootKinds, k.isLate = true) (hgl : ∀ k ∈ g.rootKinds, k.isLate = true) :
    ((x.flank f g).fill (tree a c)).Firm := by
  obtain ⟨hleft, hmid, hright⟩ := firm_beside hx
  refine firm_plant ha hx ?_ ?_ ⟨a.kind, by simp [fill], Kind.isLate_of_isElement ha⟩
  · simp only [fill, firm_append]
    exact ⟨⟨hleft, hf⟩, hmid, hg, hright⟩
  · intro k hk
    simp only [fill, rootKinds_append, rootKinds_tree, List.mem_append, List.mem_singleton] at hk
    rcases hk with (hk | hk) | rfl | hk | hk
    · exact Or.inl hk
    · exact Or.inr (Or.inr (hfl k hk))
    · exact Or.inr (Or.inr (Kind.isLate_of_isElement ha))
    · exact Or.inr (Or.inr (hgl k hk))
    · exact Or.inr (Or.inl hk)

/-- A late node around the gap. -/
theorem firm_around {o : Node} (ho : o.kind.isLate = true) (hz : (z.fill (tree a c)).Firm)
    (hbears : o.kind.bears (z.fill (tree a c)).rootKinds) :
    ((x.plant (inside x.left o z x.right)).fill (tree a c)).Firm := by
  obtain ⟨hleft, -, hright⟩ := firm_beside hx
  refine firm_plant ha hx ?_ ?_ ⟨o.kind, by simp [fill], ho⟩
  · simp only [fill, firm_append, firm_cons ho]
    exact ⟨hleft, hbears, hz, hright⟩
  · intro k hk
    simp only [fill, rootKinds_append, rootKinds_cons, List.mem_append, List.mem_cons] at hk
    rcases hk with hk | rfl | hk
    · exact Or.inl hk
    · exact Or.inr (Or.inr ho)
    · exact Or.inr (Or.inl hk)

theorem firm_wrap {o : Node} (ho : o.kind.isLoop = true) : ((x.wrap o).fill (tree a c)).Firm := by
  obtain ⟨-, hmid, -⟩ := firm_beside hx
  have hlate : ∀ k ∈ [a.kind], k.isLate = true :=
    List.forall_mem_singleton.2 (Kind.isLate_of_isElement ha)
  exact firm_around ha hx (Kind.isLate_of_isLoop ho) (z := here nil nil) hmid
    (Kind.bears_of_isLoop ho hlate)

theorem firm_wrapTest {o b₁ b₂ : Node} (ho : o.kind.isConditional = true) (h₁ : b₁.kind = .branch)
    (h₂ : b₂.kind = .branch) : ((x.wrapTest o b₁ b₂).fill (tree a c)).Firm := by
  obtain ⟨-, hmid, -⟩ := firm_beside hx
  have hlate₁ : b₁.kind.isLate = true := by rw [h₁]; rfl
  have hlate₂ : b₂.kind.isLate = true := by rw [h₂]; rfl
  refine firm_around ha hx (Kind.isLate_of_isConditional ho)
    (z := inside nil b₁ (here nil nil) (tree b₂ nil)) ?_ ?_
  · simp only [fill, nil_append, append_nil, firm_cons hlate₁, firm_tree hlate₂, h₁, h₂]
    exact ⟨Or.inr ⟨a.kind, by simp, Kind.isLate_of_isElement ha⟩, hmid, Or.inl rfl, trivial⟩
  · refine Kind.bears_of_isConditional ho ?_
    simp [fill, h₁, h₂]

theorem firm_again (h : x.again Node.kind = .ok y) : (y.fill (tree a c)).Firm := by
  unfold again at h
  split at h
  · rename_i b o f hcut
    cases h
    obtain ⟨hleft, ho, -⟩ := cutLast_eq_some hcut
    dsimp only at hleft ho
    have hlate := Kind.isLate_of_isLoop ho
    obtain ⟨hfirm, hmid, hright⟩ := firm_beside hx
    rw [hleft, firm_append, firm_cons hlate] at hfirm
    refine firm_plant ha hx ?_ ?_ ⟨o.kind, by simp [fill], hlate⟩
    · simp only [fill, append_nil, firm_append, firm_cons hlate]
      refine ⟨hfirm.1, Kind.bears_of_isLoop ho ?_, ⟨hfirm.2.2.1, hmid⟩, hright⟩
      intro k hk
      rw [rootKinds_append, rootKinds_tree, List.mem_append, List.mem_singleton] at hk
      rcases hk with hk | rfl
      · exact Kind.isLate_of_loop_bears ho hfirm.2.1 k hk
      · exact Kind.isLate_of_isElement ha
    · intro k hk
      simp only [fill, rootKinds_append, rootKinds_cons, List.mem_append, List.mem_cons] at hk
      rcases hk with hk | rfl | hk
      · exact Or.inl (by simp [hleft, hk])
      · exact Or.inr (Or.inr hlate)
      · exact Or.inr (Or.inl hk)
  · cases h

/-- The node at the top that the gap belongs to is late. -/
theorem isLate_unit : (x.unit a c).1.kind.isLate = true := by
  cases x with
  | here b r => exact Kind.isLate_of_isElement ha
  | inside b o x r =>
    obtain ⟨k, hk⟩ := exists_mem_rootKinds_fill x a c
    exact Kind.isLate_of_bears (firm_append.1 hx).2.2.1 hk

omit ha in
/-- What is beside that node, and the node itself. -/
theorem firm_unit : x.before.Firm ∧ (tree (x.unit a c).1 (x.unit a c).2).Firm ∧ x.after.Firm := by
  have hfill := fill_set x.before x.after a c x
  rw [set_self] at hfill
  rw [hfill, ← tree_append, firm_append, firm_append] at hx
  exact hx

/-- That node at the end of a branch. -/
theorem firm_branch {k : Node} (hk : k.kind = .branch) {f : Forest Node} (hf : f.Firm) :
    (tree k ((x.set f nil).fill (tree a c))).Firm := by
  have hlate := isLate_unit ha hx
  have hbranch : k.kind.isLate = true := by rw [hk]; rfl
  rw [firm_tree hbranch, fill_set, hk, firm_append]
  exact ⟨Or.inr ⟨_, by simp, hlate⟩, hf, (firm_unit hx).2.1⟩

theorem firm_joinTop (h : x.joinTop Node.kind side alone = .ok y) :
    (y.fill (tree a c)).Firm ∧
      ∀ k : Kind, k.bears (x.fill (tree a c)).rootKinds → k.bears (y.fill (tree a c)).rootKinds := by
  obtain ⟨hbefore, hunit, hafter⟩ := firm_unit hx
  have hlate := isLate_unit ha hx
  have hfill := fill_set x.before x.after a c x
  rw [set_self] at hfill
  unfold joinTop at h
  cases hcut : x.before.cutLast fun a => a.kind.isConditional with
  | none =>
    rw [hcut] at h
    cases h
  | some cut =>
    rw [hcut] at h
    obtain ⟨z, hz, rfl⟩ := exists_of_map_eq_ok h
    obtain ⟨heq, hlabel, -⟩ := cutLast_eq_some hcut
    have hconditional := Kind.isLate_of_isConditional hlabel
    rw [heq, firm_append, firm_cons hconditional] at hbefore
    obtain ⟨hfront, hbears, hbelow, hrest⟩ := hbefore
    have hinner : (z.fill (tree a c)).Firm ∧ ∀ k ∈ (z.fill (tree a c)).rootKinds, k = .branch := by
      have hbranches := Kind.eq_branch_of_bears hlabel hbears
      obtain ⟨k₁, c₁, k₂, c₂, hbranch, hz⟩ := enter_eq_ok hz
      rw [hbranch] at hbranches hbelow
      have h₁ : k₁.kind = .branch := hbranches _ (by simp)
      have h₂ : k₂.kind = .branch := hbranches _ (by simp)
      have hlate₂ : k₂.kind.isLate = true := by rw [h₂]; rfl
      rw [← tree_append, firm_append] at hbelow
      rcases hz with rfl | ⟨rfl, -⟩
      · refine ⟨firm_append.2 ⟨hbelow.1, firm_branch ha hx h₂ ?_⟩, by simp [fill, h₁, h₂]⟩
        exact firm_append.2 ⟨hbelow.2.2.2.1, hrest⟩
      · refine ⟨?_, by simp [fill, h₁, h₂]⟩
        rw [fill, nil_append, ← tree_append, firm_append, firm_tree hlate₂, h₂]
        refine ⟨firm_branch ha hx h₁ (firm_append.2 ⟨?_, hrest⟩), Or.inl rfl, trivial⟩
        exact hbelow.1.2.2.1
    constructor
    · rw [fill, firm_append, firm_cons hconditional]
      exact ⟨hfront, Kind.bears_of_isConditional hlabel hinner.2, hinner.1, hafter⟩
    · intro k hk
      have hne : cut.label.kind ≠ .branch := by
        intro h
        rw [h] at hlabel
        cases hlabel
      rw [hfill, heq] at hk
      refine Kind.bears_change hk ⟨_, by simp, hne⟩ ?_ ⟨_, by simp [fill], hconditional⟩
      intro k' hk'
      simp only [fill, rootKinds_append, rootKinds_cons, List.mem_append, List.mem_cons] at hk'
      rcases hk' with hk' | rfl | hk'
      · exact Or.inl (by simp [hk'])
      · exact Or.inr hconditional
      · exact Or.inl (by simp [hk'])

theorem firm_join (h : x.join Node.kind side alone = .ok y) :
    (y.fill (tree a c)).Firm ∧
      ∀ k : Kind, k.bears (x.fill (tree a c)).rootKinds → k.bears (y.fill (tree a c)).rootKinds := by
  induction x generalizing y with
  | here b r => exact firm_joinTop ha hx h
  | inside b o x r ih =>
    rw [join] at h
    split at h
    · exact firm_joinTop ha hx h
    · obtain ⟨z, hz, rfl⟩ := exists_of_map_eq_ok h
      rw [fill, firm_append] at hx
      obtain ⟨hfirm, hbears⟩ := ih hx.2.2.2.1 hz
      rw [fill, firm_append]
      refine ⟨⟨hx.1, hx.2.1, hbears _ hx.2.2.1, hfirm, hx.2.2.2.2⟩, fun k => ?_⟩
      simp only [fill, rootKinds_append, rootKinds_cons]
      exact id

end Firm

end Niche

end HtmlTemplate
