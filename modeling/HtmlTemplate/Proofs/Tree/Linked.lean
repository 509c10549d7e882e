import HtmlTemplate.Tree.Arena
import Mathlib.Data.List.Basic

/-! # Links that agree with one another

A node is linked to its parent, to the siblings on either side and to its first and last child. The links
of all nodes agree (`Linked`) if along those to the next sibling one meets each child once and ends at the
last, along those to the previous sibling the same in reverse, and every way up comes to an end.

Such links hold a list of children for each node (`Strung`): wherever the list is cut in two, what is left
and what is right of the cut are linked to each other, an end of the list being linked with the parent. A
node is taken out of its list by linking its neighbours to each other (`Strung.unlink`), and put into one by
linking it with both (`Strung.link`).
-/

namespace HtmlTemplate

/-- The nodes met from `start` on along `link`, until there is none. -/
inductive Along (link : NodeId → Option NodeId) : (start : Option NodeId) → List NodeId → Prop
  | done : Along link none []
  | step {n : NodeId} {l : List NodeId} (h : Along link (link n) l) : Along link (some n) (n :: l)

/-- The links of all nodes agree with one another. -/
structure Linked (links : NodeId → Links) : Prop where
  /-- The children of each node, from the first to the last. -/
  children : ∀ p, ∃ l : List NodeId, l.Nodup ∧
    Along (fun n => (links n).next) (links p).first l ∧
    Along (fun n => (links n).previous) (links p).last l.reverse ∧
    ∀ n, n ∈ l ↔ (links n).parent = some p
  /-- A node without a parent stands alone. -/
  alone : ∀ n, (links n).parent = none → (links n).previous = none ∧ (links n).next = none
  /-- Every way up comes to an end. -/
  grounded : ∀ n, ∃ l : List NodeId, Along (fun m => (links m).parent) (some n) l

/-- Every way up comes to an end. -/
def Grounded (links : NodeId → Links) : Prop :=
  ∀ n, ∃ l : List NodeId, Along (fun m => (links m).parent) (some n) l

/-! ## Ways along links -/

section Along

variable {link : NodeId → Option NodeId} {start : Option NodeId} {l r : List NodeId}

theorem along_of_next {next : NodeId → Option NodeId} {l : List NodeId}
    (h : ∀ l₁ n l₂, l = l₁ ++ n :: l₂ → next n = l₂.head?) : Along next l.head? l := by
  induction l with
  | nil => exact Along.done
  | cons n l ih =>
    refine Along.step ?_
    rw [h [] n l rfl]
    exact ih fun l₁ m l₂ hl => h (n :: l₁) m l₂ (by rw [hl]; rfl)

theorem along_of_previous {previous : NodeId → Option NodeId} {l : List NodeId}
    (h : ∀ l₁ n l₂, l = l₁ ++ n :: l₂ → previous n = l₁.getLast?) :
    Along previous l.getLast? l.reverse := by
  rw [← List.head?_reverse]
  refine along_of_next fun l₁ n l₂ hl => ?_
  have hrev : l = l₂.reverse ++ n :: l₁.reverse := by
    rw [← List.reverse_reverse l, hl]
    simp
  rw [h l₂.reverse n l₁.reverse hrev, List.getLast?_reverse]

theorem Along.start_eq (h : Along link start l) : start = l.head? := by
  cases h with
  | done => rfl
  | step h => rfl

/-- From the last node of the first part on, the way leads along the second part. -/
theorem Along.drop (h : Along link start (l ++ r)) : Along link (l.getLast?.elim start link) r := by
  induction l generalizing start with
  | nil => exact h
  | cons n l ih =>
    cases h with
    | step h =>
      have hdrop := ih h
      cases l with
      | nil => exact hdrop
      | cons m l => rwa [List.getLast?_cons_cons]

theorem Along.unique {l' : List NodeId} (h : Along link start l) (h' : Along link start l') : l = l' := by
  induction h generalizing l' with
  | done =>
    cases h'
    rfl
  | step _ ih =>
    cases h' with
    | step h' => rw [ih h']

/-- A way that comes to an end meets no node twice. -/
theorem Along.nodup (h : Along link start l) : l.Nodup := by
  induction h with
  | done => exact List.nodup_nil
  | @step n l h ih =>
    refine List.nodup_cons.2 ⟨fun hn => ?_, ih⟩
    obtain ⟨l₁, l₂, rfl⟩ := List.append_of_mem hn
    have hagain := h.drop
    rw [hagain.start_eq] at hagain
    have hlength := congrArg List.length ((Along.step h).unique hagain)
    simp only [List.length_cons, List.length_append] at hlength
    omega

theorem Along.congr {link' : NodeId → Option NodeId} (h : Along link start l)
    (hsame : ∀ n ∈ l, link' n = link n) : Along link' start l := by
  induction h with
  | done => exact .done
  | @step n l h ih =>
    rw [List.forall_mem_cons] at hsame
    refine .step ?_
    rw [hsame.1]
    exact ih hsame.2

end Along

/-! ## Lists of siblings -/

/-- The node right of `x` below `p`: the next one, and the first one where `x` is the left end. -/
def rightOf (links : NodeId → Links) (p : NodeId) : (x : Option NodeId) → Option NodeId
  | none => (links p).first
  | some n => (links n).next

/-- The node left of `y` below `p`: the previous one, and the last one where `y` is the right end. -/
def leftOf (links : NodeId → Links) (p : NodeId) : (y : Option NodeId) → Option NodeId
  | none => (links p).last
  | some n => (links n).previous

/-- The links hold these lists of children: wherever a list is cut in two, what is left and what is right
of the cut are linked to each other. -/
structure Strung (links : NodeId → Links) (lists : NodeId → List NodeId) : Prop where
  cut : ∀ p l r, lists p = l ++ r →
    rightOf links p l.getLast? = r.head? ∧ leftOf links p r.head? = l.getLast?
  nodup : ∀ p, (lists p).Nodup
  parent : ∀ p n, n ∈ lists p ↔ (links n).parent = some p
  alone : ∀ n, (links n).parent = none → (links n).previous = none ∧ (links n).next = none

/-- The lists without node `n`. -/
def without (n : NodeId) (lists : NodeId → List NodeId) (m : NodeId) : List NodeId :=
  (lists m).filter (· ≠ n)

section Strung

variable {links : NodeId → Links} {lists : NodeId → List NodeId} {p n : NodeId} {l r : List NodeId}

theorem Strung.first (h : Strung links lists) (p : NodeId) : (links p).first = (lists p).head? :=
  (h.cut p [] (lists p) rfl).1

theorem Strung.last (h : Strung links lists) (p : NodeId) : (links p).last = (lists p).getLast? :=
  (h.cut p (lists p) [] (List.append_nil _).symm).2

theorem Strung.next (h : Strung links lists) (hl : lists p = l ++ n :: r) : (links n).next = r.head? := by
  have hcut := (h.cut p (l ++ [n]) r (by rw [hl, List.append_assoc]; rfl)).1
  rwa [List.getLast?_concat] at hcut

theorem Strung.previous (h : Strung links lists) (hl : lists p = l ++ n :: r) :
    (links n).previous = l.getLast? :=
  (h.cut p l (n :: r) hl).2

theorem Strung.along_next (h : Strung links lists) (p : NodeId) :
    Along (fun n => (links n).next) (links p).first (lists p) := by
  rw [h.first]
  exact along_of_next fun _ _ _ => h.next

theorem Strung.linked (h : Strung links lists) (hg : Grounded links) : Linked links where
  children p := by
    refine ⟨lists p, h.nodup p, h.along_next p, ?_, h.parent p⟩
    rw [h.last]
    exact along_of_previous fun _ _ _ => h.previous
  alone := h.alone
  grounded := hg

theorem Linked.exists_strung (h : Linked links) : ∃ lists, Strung links lists := by
  choose lists hnodup hnext hprevious hparent using h.children
  refine ⟨lists, fun p l r hl => ⟨?_, ?_⟩, hnodup, hparent, h.alone⟩
  · have hcut := (hl ▸ hnext p).drop.start_eq
    cases hx : l.getLast? with
    | none => rwa [hx] at hcut
    | some n => rwa [hx] at hcut
  · have hback := hprevious p
    rw [hl, List.reverse_append] at hback
    have hcut := hback.drop.start_eq
    rw [List.getLast?_reverse, List.head?_reverse] at hcut
    cases hy : r.head? with
    | none => rwa [hy] at hcut
    | some n => rwa [hy] at hcut

end Strung

/-! ## Patching -/

/-- The links after `x` and `y` were linked to each other below `p`. -/
def weld (links : NodeId → Links) (p : NodeId) (x y : Option NodeId) (m : NodeId) : Links :=
  { links m with
    previous := if y = some m then x else (links m).previous
    next := if x = some m then y else (links m).next
    first := if x = none ∧ m = p then y else (links m).first
    last := if y = none ∧ m = p then x else (links m).last }

/-- The links after `n` was taken out below `p`: its neighbours are linked past it. -/
def unlink (links : NodeId → Links) (p n m : NodeId) : Links :=
  let welded := weld links p (links n).previous (links n).next m
  if m = n then { welded with parent := none, previous := none, next := none } else welded

/-- The links after `n` was put between `x` and `y` below `p`. -/
def link (links : NodeId → Links) (p : NodeId) (x : Option NodeId) (n : NodeId) (y : Option NodeId)
    (m : NodeId) : Links :=
  let welded := weld (weld links p x (some n)) p (some n) y m
  if m = n then { welded with parent := some p } else welded

section Patching

variable {links : NodeId → Links} {lists : NodeId → List NodeId} {p q n : NodeId}
  {x y u v : Option NodeId} {l r l₁ l₂ : List NodeId}

theorem rightOf_weld : rightOf (weld links p x y) p u = if u = x then y else rightOf links p u := by
  cases u <;> cases x <;> simp [rightOf, weld, eq_comm]

theorem leftOf_weld : leftOf (weld links p x y) p v = if v = y then x else leftOf links p v := by
  cases v <;> cases y <;> simp [leftOf, weld, eq_comm]

theorem rightOf_unlink (hu : u ≠ some n) :
    rightOf (unlink links p n) q u = rightOf (weld links p (links n).previous (links n).next) q u := by
  cases u with
  | none =>
    simp only [rightOf, unlink]
    split <;> rfl
  | some m =>
    have hm : m ≠ n := fun hm => hu (congrArg some hm)
    simp [rightOf, unlink, hm]

theorem leftOf_unlink (hv : v ≠ some n) :
    leftOf (unlink links p n) q v = leftOf (weld links p (links n).previous (links n).next) q v := by
  cases v with
  | none =>
    simp only [leftOf, unlink]
    split <;> rfl
  | some m =>
    have hm : m ≠ n := fun hm => hv (congrArg some hm)
    simp [leftOf, unlink, hm]

theorem parent_unlink (m : NodeId) :
    (unlink links p n m).parent = if m = n then none else (links m).parent := by
  rw [unlink]
  split <;> rfl

theorem rightOf_link :
    rightOf (link links p x n y) q u = rightOf (weld (weld links p x (some n)) p (some n) y) q u := by
  cases u <;> simp only [rightOf, link] <;> split <;> rfl

theorem leftOf_link :
    leftOf (link links p x n y) q v = leftOf (weld (weld links p x (some n)) p (some n) y) q v := by
  cases v <;> simp only [leftOf, link] <;> split <;> rfl

theorem parent_link (m : NodeId) :
    (link links p x n y m).parent = if m = n then some p else (links m).parent := by
  rw [link]
  split <;> rfl

/-- A list without one of its nodes is cut where that node was, or like the list with it. -/
theorem cut_of_erased (n : NodeId) (h : l₁ ++ l₂ = l ++ r) :
    l = l₁ ∧ r = l₂ ∨
      ∃ l' r', l₁ ++ n :: l₂ = l' ++ r' ∧ l'.getLast? = l.getLast? ∧ r'.head? = r.head? := by
  rcases List.append_eq_append_iff.1 h with ⟨k, rfl, rfl⟩ | ⟨k, rfl, rfl⟩
  · cases k with
    | nil => exact Or.inl ⟨List.append_nil l₁, rfl⟩
    | cons m k => exact Or.inr ⟨l₁ ++ n :: (m :: k), r, by simp, by simp, rfl⟩
  · cases k with
    | nil => exact Or.inl ⟨(List.append_nil l).symm, rfl⟩
    | cons m k => exact Or.inr ⟨l, m :: k ++ n :: l₂, by simp, rfl, rfl⟩

/-- A list with a new node is cut on one side of the node, or like the list without it at another place
than that of the node. -/
theorem cut_of_inserted (hnodup : (l₁ ++ l₂).Nodup) (h : l₁ ++ n :: l₂ = l ++ r) :
    l = l₁ ∧ r = n :: l₂ ∨ l = l₁ ++ [n] ∧ r = l₂ ∨
      ∃ l' r', l₁ ++ l₂ = l' ++ r' ∧ l'.getLast? = l.getLast? ∧ r'.head? = r.head? ∧
        r.head? ≠ l₂.head? := by
  rcases List.append_eq_append_iff.1 h with ⟨k, rfl, hk⟩ | ⟨k, rfl, rfl⟩
  · cases k with
    | nil => exact Or.inl ⟨List.append_nil l₁, hk.symm⟩
    | cons m k =>
      obtain ⟨rfl, rfl⟩ := List.cons.inj hk
      cases k with
      | nil => exact Or.inr (Or.inl ⟨rfl, rfl⟩)
      | cons m k =>
        refine Or.inr (Or.inr ⟨l₁ ++ m :: k, r, by simp, by simp, rfl, fun hm => ?_⟩)
        have hrest : (m :: (k ++ r)).Nodup := (List.nodup_append.1 hnodup).2.1
        exact (List.nodup_cons.1 hrest).1 (List.mem_append_right k (List.mem_of_head? hm))
  · cases k with
    | nil => exact Or.inl ⟨(List.append_nil l).symm, rfl⟩
    | cons m k =>
      refine Or.inr (Or.inr ⟨l, m :: k ++ l₂, by simp, rfl, rfl, fun hm => ?_⟩)
      rw [List.append_assoc] at hnodup
      have hrest : (m :: (k ++ l₂)).Nodup := (List.nodup_append.1 hnodup).2.1
      exact (List.nodup_cons.1 hrest).1 (List.mem_append_right k (List.mem_of_head? hm.symm))

end Patching

theorem filter_ne_of_not_mem {n : NodeId} {l : List NodeId} (h : n ∉ l) : l.filter (· ≠ n) = l :=
  List.filter_eq_self.2 fun m hm => decide_eq_true fun he : m = n => h (he ▸ hm)

theorem filter_ne_cons {m n : NodeId} (h : m ≠ n) (l : List NodeId) :
    (m :: l).filter (· ≠ n) = m :: l.filter (· ≠ n) :=
  List.filter_cons_of_pos (decide_eq_true h)

namespace Strung

variable {links links' : NodeId → Links} {lists lists' : NodeId → List NodeId} {p q n m : NodeId}
  {l r l₁ l₂ : List NodeId}

theorem eq_of_mem (h : Strung links lists) (hp : m ∈ lists p) (hq : m ∈ lists q) : p = q :=
  Option.some.inj (((h.parent p m).1 hp).symm.trans ((h.parent q m).1 hq))

theorem not_mem_of_parent_eq_none (h : Strung links lists) (hm : (links m).parent = none) (p : NodeId) :
    m ∉ lists p := by
  intro hmem
  rw [(h.parent p m).1 hmem] at hm
  cases hm

theorem parent_eq_none (h : Strung links lists) (hm : ∀ p, m ∉ lists p) : (links m).parent = none :=
  Option.eq_none_iff_forall_ne_some.2 fun p hp => hm p ((h.parent p m).2 hp)

theorem without_of_ne (h : Strung links lists) (hn : n ∈ lists p) (hq : q ≠ p) : without n lists q = lists q :=
  filter_ne_of_not_mem fun hnq => hq (h.eq_of_mem hnq hn)

/-- Patches that spare the nodes of a list and the ends of it leave the list as it is. -/
theorem cut_of_spared (h : Strung links lists)
    (hbeside : ∀ m ∈ lists q, (links' m).previous = (links m).previous ∧ (links' m).next = (links m).next)
    (hbelow : (links' q).first = (links q).first ∧ (links' q).last = (links q).last)
    (hcut : lists q = l ++ r) :
    rightOf links' q l.getLast? = r.head? ∧ leftOf links' q r.head? = l.getLast? := by
  obtain ⟨hright, hleft⟩ := h.cut q l r hcut
  constructor
  · rw [← hright]
    cases hx : l.getLast? with
    | none => exact hbelow.1
    | some m => exact (hbeside m (hcut ▸ List.mem_append_left r (List.mem_of_getLast? hx))).2
  · rw [← hleft]
    cases hy : r.head? with
    | none => exact hbelow.2
    | some m => exact (hbeside m (hcut ▸ List.mem_append_right l (List.mem_of_head? hy))).1

/-! ## Taking a node out -/

section Unlink

variable (h : Strung links lists) (hsplit : lists p = l₁ ++ n :: l₂)

include h hsplit

theorem not_mem_around : n ∉ l₁ ++ l₂ := by
  have hnodup : (l₁ ++ n :: l₂).Nodup := hsplit ▸ h.nodup p
  exact (List.nodup_cons.1 (List.perm_middle.nodup_iff.1 hnodup)).1

theorem without_self : without n lists p = l₁ ++ l₂ := by
  have hrest := filter_ne_of_not_mem (h.not_mem_around hsplit)
  rw [without, hsplit, List.filter_append, List.filter_cons_of_neg (by simp), ← List.filter_append, hrest]

theorem beside_unlink (hm : m ∉ lists p) :
    (unlink links p n m).previous = (links m).previous ∧ (unlink links p n m).next = (links m).next := by
  rw [hsplit] at hm
  have hmn : m ≠ n := by
    rintro rfl
    simp at hm
  have hprevious : (links n).previous ≠ some m := fun he =>
    hm (List.mem_append_left _ (List.mem_of_getLast? ((h.previous hsplit).symm.trans he)))
  have hnext : (links n).next ≠ some m := fun he =>
    hm (List.mem_append_right _ (List.mem_cons_of_mem n (List.mem_of_head? ((h.next hsplit).symm.trans he))))
  simp [unlink, weld, hmn, hprevious, hnext]

theorem cut_unlink (hcut : l₁ ++ l₂ = l ++ r) :
    rightOf (unlink links p n) p l.getLast? = r.head? ∧ leftOf (unlink links p n) p r.head? = l.getLast? := by
  have hout := h.not_mem_around hsplit
  have hl : l.getLast? ≠ some n := fun hl => hout (hcut ▸ List.mem_append_left r (List.mem_of_getLast? hl))
  have hr : r.head? ≠ some n := fun hr => hout (hcut ▸ List.mem_append_right l (List.mem_of_head? hr))
  rw [rightOf_unlink hl, leftOf_unlink hr, rightOf_weld, leftOf_weld, h.previous hsplit, h.next hsplit]
  rcases cut_of_erased n hcut with ⟨rfl, rfl⟩ | ⟨l', r', hcut', hl', hr'⟩
  · exact ⟨if_pos rfl, if_pos rfl⟩
  · -- Away from the node, what is left of the cut is linked to no node that was linked to this one.
    obtain ⟨hright, hleft⟩ := h.cut p l' r' (hsplit.trans hcut')
    obtain ⟨hright₁, -⟩ := h.cut p l₁ (n :: l₂) hsplit
    obtain ⟨-, hleft₂⟩ := h.cut p (l₁ ++ [n]) l₂ (by rw [hsplit, List.append_assoc]; rfl)
    rw [List.getLast?_concat] at hleft₂
    rw [hl', hr'] at hright hleft
    constructor
    · rw [if_neg, hright]
      intro he
      rw [he, hright₁] at hright
      exact hr hright.symm
    · rw [if_neg, hleft]
      intro he
      rw [he, hleft₂] at hleft
      exact hl hleft.symm

end Unlink

theorem below_unlink (hq : q ≠ p) :
    (unlink links p n q).first = (links q).first ∧ (unlink links p n q).last = (links q).last := by
  rw [unlink]
  split <;> simp [weld, hq]

theorem unlink (h : Strung links lists) (hn : (links n).parent = some p) :
    Strung (unlink links p n) (without n lists) := by
  have hmem := (h.parent p n).2 hn
  obtain ⟨l₁, l₂, hsplit⟩ := List.append_of_mem hmem
  refine ⟨fun q l r hcut => ?_, fun q => (h.nodup q).filter _, fun q m => ?_, fun m hm => ?_⟩
  · by_cases hq : q = p
    · subst hq
      rw [h.without_self hsplit] at hcut
      exact h.cut_unlink hsplit hcut
    · rw [h.without_of_ne hmem hq] at hcut
      exact h.cut_of_spared (fun m hm => h.beside_unlink hsplit fun hm' => hq (h.eq_of_mem hm hm'))
        (below_unlink hq) hcut
  · rw [parent_unlink, without, List.mem_filter, h.parent]
    split <;> simp_all
  · by_cases hmn : m = n
    · subst hmn
      simp [HtmlTemplate.unlink]
    · rw [parent_unlink, if_neg hmn] at hm
      rw [(h.beside_unlink hsplit (h.not_mem_of_parent_eq_none hm p)).1,
        (h.beside_unlink hsplit (h.not_mem_of_parent_eq_none hm p)).2]
      exact h.alone m hm

/-! ## Putting a node in -/

theorem beside_link (hsplit : lists p = l₁ ++ l₂) (hm : m ∉ lists p) (hmn : m ≠ n) :
    (link links p l₁.getLast? n l₂.head? m).previous = (links m).previous ∧
      (link links p l₁.getLast? n l₂.head? m).next = (links m).next := by
  rw [hsplit] at hm
  have hprevious : l₁.getLast? ≠ some m := fun he => hm (List.mem_append_left _ (List.mem_of_getLast? he))
  have hnext : l₂.head? ≠ some m := fun he => hm (List.mem_append_right _ (List.mem_of_head? he))
  simp [link, weld, hmn, Ne.symm hmn, hprevious, hnext]

section Link

variable (h : Strung links lists) (hsplit : lists p = l₁ ++ l₂) (hn : (links n).parent = none)

include h hsplit hn

theorem cut_link (hcut : l₁ ++ n :: l₂ = l ++ r) :
    rightOf (link links p l₁.getLast? n l₂.head?) p l.getLast? = r.head? ∧
      leftOf (link links p l₁.getLast? n l₂.head?) p r.head? = l.getLast? := by
  have hout : n ∉ l₁ ++ l₂ := hsplit ▸ h.not_mem_of_parent_eq_none hn p
  have hx : l₁.getLast? ≠ some n := fun hx => hout (List.mem_append_left l₂ (List.mem_of_getLast? hx))
  have hy : some n ≠ l₂.head? := fun hy => hout (List.mem_append_right l₁ (List.mem_of_head? hy.symm))
  rw [rightOf_link, leftOf_link, rightOf_weld, rightOf_weld, leftOf_weld, leftOf_weld]
  rcases cut_of_inserted (hsplit ▸ h.nodup p) hcut with
    ⟨rfl, rfl⟩ | ⟨rfl, rfl⟩ | ⟨l', r', hcut', hl', hr', hne⟩
  · simp [hx, hy]
  · simp
  · -- The cut is not the one that the node fills, so what is left of it keeps its neighbour.
    rw [hcut'] at hout
    have hl : l.getLast? ≠ some n := fun hl =>
      hout (List.mem_append_left r' (List.mem_of_getLast? (hl'.trans hl)))
    have hr : r.head? ≠ some n := fun hr =>
      hout (List.mem_append_right l' (List.mem_of_head? (hr'.trans hr)))
    obtain ⟨hright, hleft⟩ := h.cut p l' r' (hsplit.trans hcut')
    obtain ⟨hright₁, -⟩ := h.cut p l₁ l₂ hsplit
    rw [hl', hr'] at hright hleft
    rw [if_neg hl, if_neg hne, if_neg hr]
    refine ⟨?_, hleft⟩
    rw [if_neg, hright]
    intro he
    rw [he, hright₁] at hright
    exact hne hright.symm

theorem link : Strung (link links p l₁.getLast? n l₂.head?) (Function.update lists p (l₁ ++ n :: l₂)) := by
  have hout : n ∉ l₁ ++ l₂ := hsplit ▸ h.not_mem_of_parent_eq_none hn p
  refine ⟨fun q l r hcut => ?_, fun q => ?_, fun q m => ?_, fun m hm => ?_⟩
  · by_cases hq : q = p
    · subst hq
      rw [Function.update_self] at hcut
      exact h.cut_link hsplit hn hcut
    · rw [Function.update_of_ne hq] at hcut
      refine h.cut_of_spared (fun m hm => ?_) ?_ hcut
      · refine beside_link hsplit (fun hm' => hq (h.eq_of_mem hm hm')) ?_
        rintro rfl
        exact h.not_mem_of_parent_eq_none hn q hm
      · rw [HtmlTemplate.link]
        split <;> simp [weld, hq]
  · by_cases hq : q = p
    · subst hq
      rw [Function.update_self, List.perm_middle.nodup_iff]
      exact List.nodup_cons.2 ⟨hout, hsplit ▸ h.nodup q⟩
    · rw [Function.update_of_ne hq]
      exact h.nodup q
  · have hmem := h.parent q m
    rw [parent_link]
    by_cases hq : q = p
    · subst hq
      rw [hsplit] at hmem
      rw [Function.update_self]
      split <;> simp_all
    · rw [Function.update_of_ne hq]
      split <;> simp_all [Ne.symm hq]
  · have hmn : m ≠ n := by
      rintro rfl
      rw [parent_link, if_pos rfl] at hm
      cases hm
    rw [parent_link, if_neg hmn] at hm
    rw [(beside_link hsplit (h.not_mem_of_parent_eq_none hm p) hmn).1,
      (beside_link hsplit (h.not_mem_of_parent_eq_none hm p) hmn).2]
    exact h.alone m hm

end Link

/-! ## Links and lists determine each other -/

theorem links_eq (h : Strung links lists) (h' : Strung links' lists) : links = links' := by
  funext n
  have hparent : (links n).parent = (links' n).parent :=
    Option.ext fun p => (h.parent p n).symm.trans (h'.parent p n)
  have hbeside : (links n).previous = (links' n).previous ∧ (links n).next = (links' n).next := by
    cases hp : (links n).parent with
    | none =>
      rw [(h.alone n hp).1, (h.alone n hp).2, (h'.alone n (hparent ▸ hp)).1, (h'.alone n (hparent ▸ hp)).2]
      exact ⟨rfl, rfl⟩
    | some p =>
      obtain ⟨l₁, l₂, hsplit⟩ := List.append_of_mem ((h.parent p n).2 hp)
      rw [h.previous hsplit, h.next hsplit, h'.previous hsplit, h'.next hsplit]
      exact ⟨rfl, rfl⟩
  have hfirst := (h.first n).trans (h'.first n).symm
  have hlast := (h.last n).trans (h'.last n).symm
  cases hlinks : links n
  cases hlinks' : links' n
  simp_all

end Strung

/-! ## Ways up -/

/-- Node `m` is node `n` or above it. -/
inductive Above (links : NodeId → Links) (m : NodeId) : (n : NodeId) → Prop
  | self : Above links m m
  | up {n p : NodeId} (hp : (links n).parent = some p) (h : Above links m p) : Above links m n

section Up

variable {links links' : NodeId → Links} {m n p : NodeId}

theorem above_of_mem {start : Option NodeId} {up : List NodeId}
    (h : Along (fun m => (links m).parent) start up) (hn : start = some n) (hm : m ∈ up) :
    Above links m n := by
  induction h generalizing n with
  | done => cases hn
  | @step k up h ih =>
    obtain rfl := Option.some.inj hn
    rcases List.mem_cons.1 hm with rfl | hm
    · exact .self
    · cases hp : (links k).parent with
      | none =>
        simp only [hp] at h
        cases h
        cases hm
      | some p => exact .up hp (ih hp hm)

theorem mem_of_above (h : Above links m n) {up : List NodeId}
    (hup : Along (fun m => (links m).parent) (some n) up) : m ∈ up := by
  induction h generalizing up with
  | self =>
    cases hup
    exact List.mem_cons_self
  | up hp _ ih =>
    cases hup with
    | step hup => exact List.mem_cons_of_mem _ (ih (hp ▸ hup))

/-- No node is above its parent. -/
theorem Grounded.not_above_parent (h : Grounded links) (hp : (links n).parent = some p) : ¬ Above links n p := by
  intro habove
  obtain ⟨up, hup⟩ := h n
  have hnodup := hup.nodup
  cases hup with
  | step hup => exact (List.nodup_cons.1 hnodup).1 (mem_of_above habove (hp ▸ hup))

/-- A node whose way up comes to an end may be hung anywhere. -/
theorem Grounded.of_parent (h : Grounded links) (hsame : ∀ m, m ≠ n → (links' m).parent = (links m).parent)
    (hn : ∃ up, Along (fun m => (links' m).parent) (links' n).parent up) : Grounded links' := by
  have hway : ∀ {start l}, Along (fun m => (links m).parent) start l →
      ∃ l', Along (fun m => (links' m).parent) start l' := by
    intro start l hl
    induction hl with
    | done => exact ⟨[], .done⟩
    | @step k l _ ih =>
      by_cases hk : k = n
      · subst hk
        obtain ⟨up, hup⟩ := hn
        exact ⟨k :: up, .step hup⟩
      · obtain ⟨l', hl'⟩ := ih
        exact ⟨k :: l', .step (by rwa [← hsame k hk] at hl')⟩
  intro m
  obtain ⟨l, hl⟩ := h m
  exact hway hl

theorem Grounded.unlink (h : Grounded links) : Grounded (unlink links p n) := by
  refine h.of_parent (n := n) (fun m hm => by rw [parent_unlink, if_neg hm]) ⟨[], ?_⟩
  rw [parent_unlink, if_pos rfl]
  exact .done

theorem Grounded.link (h : Grounded links) (hp : ¬ Above links n p) {x y : Option NodeId} :
    Grounded (link links p x n y) := by
  refine h.of_parent (n := n) (fun m hm => by rw [parent_link, if_neg hm]) ?_
  obtain ⟨up, hup⟩ := h p
  have hout : n ∉ up := fun hn => hp (above_of_mem hup rfl hn)
  refine ⟨up, ?_⟩
  rw [parent_link, if_pos rfl]
  refine hup.congr fun m hm => ?_
  rw [parent_link, if_neg]
  rintro rfl
  exact hout hm

end Up

end HtmlTemplate
