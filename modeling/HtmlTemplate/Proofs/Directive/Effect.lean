import HtmlTemplate.Proofs.Directive.Script
import HtmlTemplate.Proofs.Forest.Niche
import HtmlTemplate.Proofs.Markup.Content

/-! # The effects of directives

Every directive acts on its element alone or on the niche of the element, in one of a few ways
(`Handler.effect`); an import is put at the head of the document before that (`run_eq_perform`). What is
done to the niche is said here for forests with any labels (`Effect.move`), so that it can be compared
between documents with other numbers and with none (`move_map`). It does not depend on what stands in
front of the niche or behind it (`local_move`), and puts at most one node, and no element, behind the gap
(`grows_move`).
-/

namespace HtmlTemplate

open Forest

section Except

variable {ε α β : Type} {x : Except ε α} {f : α → β}

theorem exists_of_map_eq_ok {y : β} (h : x.map f = .ok y) : ∃ a, x = .ok a ∧ f a = y := by
  cases x with
  | error e => cases h
  | ok a => exact ⟨a, rfl, Except.ok.inj h⟩

theorem exists_of_bind_eq_ok {f : α → Except ε β} {y : β} (h : x.bind f = .ok y) :
    ∃ a, x = .ok a ∧ f a = .ok y := by
  cases x with
  | error e => cases h
  | ok a => exact ⟨a, rfl, h⟩

theorem eq_error_of_map {e : ε} (h : x.map f = .error e) : x = .error e := by
  cases x with
  | error e' => exact congrArg Except.error (Except.error.inj h)
  | ok a => cases h

end Except

/-! ## Labels -/

/-- Labels of nodes: what kind of node a label stands for and by what number it goes, the label of a node
whose kind changes, and the labels of new nodes, in the order in which they are made. -/
structure Labelling (α : Type) where
  kind : α → Kind
  id : α → NodeId
  alter : Kind → α → α
  make : Nat → Kind → α
  kind_alter : ∀ k a, kind (alter k a) = k
  id_alter : ∀ k a, id (alter k a) = id a
  kind_make : ∀ i k, kind (make i k) = k

namespace Labelling

variable {α β : Type}

/-- Nodes without numbers. -/
def plain : Labelling Kind where
  kind k := k
  id _ := Tree.root
  alter k _ := k
  make _ k := k
  kind_alter _ _ := rfl
  id_alter _ _ := rfl
  kind_make _ _ := rfl

/-- Nodes with numbers, those of new nodes from `next` on. -/
def numbered (next : NodeId) : Labelling Node where
  kind := Node.kind
  id := Node.id
  alter k a := ⟨a.id, k⟩
  make i k := ⟨next + i, k⟩
  kind_alter _ _ := rfl
  id_alter _ _ := rfl
  kind_make _ _ := rfl

/-- Nodes with the numbers that they had at first; new nodes all go by the number of the document. -/
def settled : Labelling Node where
  kind := Node.kind
  id := Node.id
  alter k a := ⟨a.id, k⟩
  make _ k := ⟨Tree.root, k⟩
  kind_alter _ _ := rfl
  id_alter _ _ := rfl
  kind_make _ _ := rfl

/-- Other labels for the same kinds of nodes, with other numbers. -/
structure Maps (lab : Labelling α) (lab' : Labelling β) (h : α → β) (rename : NodeId → NodeId) :
    Prop where
  kind : ∀ a, lab'.kind (h a) = lab.kind a
  id : ∀ a, lab'.id (h a) = rename (lab.id a)
  alter : ∀ k a, h (lab.alter k a) = lab'.alter k (h a)
  make : ∀ i k, h (lab.make i k) = lab'.make i k

end Labelling

namespace Forest

variable {α : Type} (kind : α → Kind)

/-- There is nothing at the top to go on with. -/
def Quiet (f : Forest α) : Prop :=
  ∀ a ∈ f.roots, (kind a).isLoop = false ∧ (kind a).isConditional = false

end Forest

namespace Niche

variable {α : Type}

/-- What is done to a niche does not depend on trees in front of it or behind it, unless there is something
to go on with in front where there was nothing before. -/
structure Local (kind : α → Kind) (op : Niche α → Except TemplateError (Niche α)) : Prop where
  ok : ∀ {x y : Niche α}, op x = .ok y → ∀ g r, op (x.embed g r) = .ok (y.embed g r)
  error : ∀ {x : Niche α} {e : TemplateError}, op x = .error e → ∀ {g : Forest α}, g.Quiet kind →
    ∀ r, op (x.embed g r) = .error e

/-! ## New nodes around the gap -/

/-- Trees right before the gap and right after it. -/
def flank (f g : Forest α) (x : Niche α) : Niche α :=
  x.plant (here (x.left ++ f) (g ++ x.right))

/-- A node around the gap. -/
def wrap (o : α) (x : Niche α) : Niche α :=
  x.plant (inside x.left o (here nil nil) x.right)

/-- A conditional around the gap, which is in its first branch. -/
def wrapTest (o b₁ b₂ : α) (x : Niche α) : Niche α :=
  x.plant (inside x.left o (inside nil b₁ (here nil nil) (tree b₂ nil)) x.right)

theorem local_plant {kind : α → Kind} {z : Forest α → Forest α → Niche α}
    (hz : ∀ g r b a, z (g ++ b) (a ++ r) = (z b a).embed g r) :
    Local kind fun x => .ok (x.plant (z x.left x.right)) where
  ok := by
    rintro x y h g r
    cases h
    cases x with
    | here b a => exact congrArg Except.ok (hz g r b a)
    | inside b o x a => rfl
  error := by
    rintro x e h
    cases h

theorem local_flank (kind : α → Kind) (f g : Forest α) : Local kind fun x => .ok (x.flank f g) :=
  local_plant (z := fun b a => here (b ++ f) (g ++ a)) fun _ _ _ _ => by
    simp [embed, set, before, after, append_assoc]

theorem local_wrap (kind : α → Kind) (o : α) : Local kind fun x => .ok (x.wrap o) :=
  local_plant (z := fun b a => inside b o (here nil nil) a) fun _ _ _ _ => rfl

theorem local_wrapTest (kind : α → Kind) (o b₁ b₂ : α) : Local kind fun x => .ok (x.wrapTest o b₁ b₂) :=
  local_plant (z := fun b a => inside b o (inside nil b₁ (here nil nil) (tree b₂ nil)) a)
    fun _ _ _ _ => rfl

/-! ## Going on with a tree before the gap -/

section Continue

variable (kind : α → Kind)

/-- The gap goes to the end of the loop right before it. -/
def again (x : Niche α) : Except TemplateError (Niche α) :=
  match x.left.cutLast fun a => (kind a).isLoop with
  | some ⟨b, o, c, .nil⟩ => .ok (x.plant (inside b o (here c nil) x.right))
  | _ => .error .foreachAlone

/-- Nothing is around the gap but loops, and nothing beside it. -/
def isBare : Niche α → Bool
  | here b a => b.isEmpty && a.isEmpty
  | inside b o x a => b.isEmpty && a.isEmpty && ((kind o).isLoop && x.isBare)

/-- The niche that `x` makes of the end of a branch, within the branches of a conditional. -/
def enter (alone : TemplateError) (x : Forest α → Niche α) :
    Handler.Side → Forest α → Except TemplateError (Niche α)
  | .holds, cons k₁ c₁ (cons k₂ c₂ nil) =>
    if kind k₂ = .branch then
      if c₂.isEmpty then .ok (inside nil k₁ (x c₁) (tree k₂ c₂)) else .error .ifAfterElse
    else .error alone
  | .fails, cons k₁ c₁ (cons k₂ c₂ nil) => .ok (inside (tree k₁ c₁) k₂ (x c₂) nil)
  | _, _ => .error alone

/-- The node at the top that the gap belongs to goes to a branch of the last conditional before it, with
all that stands in between. -/
def joinTop (side : Handler.Side) (alone : TemplateError) (x : Niche α) :
    Except TemplateError (Niche α) :=
  match x.before.cutLast fun a => (kind a).isConditional with
  | none => .error alone
  | some cut =>
    (enter kind alone (fun c => x.set (c ++ cut.after) nil) side cut.below).map
      (inside cut.before cut.label · x.after)

/-- The gap, with the loops around it alone, goes to a branch of the last conditional before it. -/
def join (side : Handler.Side) (alone : TemplateError) : Niche α → Except TemplateError (Niche α)
  | here b a => (here b a).joinTop kind side alone
  | inside b o x a =>
    if (kind o).isLoop && x.isBare kind then (inside b o x a).joinTop kind side alone
    else (x.join side alone).map (inside b o · a)

variable {kind} in
theorem enter_eq_ok {alone : TemplateError} {x : Forest α → Niche α} {side : Handler.Side} {f : Forest α}
    {y : Niche α} (h : enter kind alone x side f = .ok y) :
    ∃ k₁ c₁ k₂ c₂, f = cons k₁ c₁ (cons k₂ c₂ nil) ∧ (y = inside (tree k₁ c₁) k₂ (x c₂) nil ∨
      y = inside nil k₁ (x c₁) (tree k₂ nil) ∧ kind k₂ = .branch) := by
  match side, f with
  | .holds, cons k₁ c₁ (cons k₂ c₂ nil) =>
    rw [enter] at h
    split at h
    · split at h
      · rename_i hk hc
        cases h
        exact ⟨k₁, c₁, k₂, c₂, rfl, Or.inr ⟨by rw [isEmpty_eq_true.1 hc], hk⟩⟩
      · cases h
    · cases h
  | .fails, cons k₁ c₁ (cons k₂ c₂ nil) =>
    cases h
    exact ⟨k₁, c₁, k₂, c₂, rfl, Or.inl rfl⟩
  | .holds, nil | .fails, nil => cases h
  | .holds, cons k₁ c₁ nil | .fails, cons k₁ c₁ nil => cases h
  | .holds, cons k₁ c₁ (cons k₂ c₂ (cons k₃ c₃ r)) | .fails, cons k₁ c₁ (cons k₂ c₂ (cons k₃ c₃ r)) =>
    cases h

theorem local_again : Local kind (again kind) where
  ok := by
    intro x y h g r
    unfold again at h ⊢
    split at h
    · rename_i b o c hcut
      cases h
      cases x with
      | here l a =>
        rw [show ((here l a).embed g r).left = g ++ (here l a).left from rfl, cutLast_append hcut g]
        rfl
      | inside l o' x a =>
        rw [show ((inside l o' x a).embed g r).left = (inside l o' x a).left from rfl, hcut]
        rfl
    · cases h
  error := by
    intro x e h g hg r
    unfold again at h ⊢
    cases x with
    | here l a =>
      rw [show ((here l a).embed g r).left = g ++ (here l a).left from rfl]
      cases hcut : (here l a).left.cutLast fun a => (kind a).isLoop with
      | none =>
        rw [hcut] at h
        rw [cutLast_quiet hcut fun a ha => (hg a ha).1]
        exact h
      | some cut =>
        obtain ⟨b, o, c, m⟩ := cut
        rw [hcut] at h
        rw [cutLast_append hcut g]
        cases m with
        | nil => cases h
        | cons k d m => exact h
    | inside l o' x a =>
      rw [show ((inside l o' x a).embed g r).left = (inside l o' x a).left from rfl]
      split at h
      · cases h
      · exact h

theorem local_joinTop (side : Handler.Side) (alone : TemplateError) :
    Local kind (joinTop kind side alone) where
  ok := by
    intro x y h g r
    unfold joinTop at h ⊢
    cases hcut : x.before.cutLast fun a => (kind a).isConditional with
    | none =>
      rw [hcut] at h
      cases h
    | some cut =>
      rw [hcut] at h
      obtain ⟨z, hz, rfl⟩ := exists_of_map_eq_ok h
      rw [before_embed, cutLast_append hcut g]
      simp only [set_embed, after_embed, hz]
      rfl
  error := by
    intro x e h g hg r
    unfold joinTop at h ⊢
    rw [before_embed]
    cases hcut : x.before.cutLast fun a => (kind a).isConditional with
    | none =>
      rw [hcut] at h
      rw [cutLast_quiet hcut fun a ha => (hg a ha).2]
      exact h
    | some cut =>
      rw [hcut] at h
      rw [cutLast_append hcut g]
      simp only [set_embed, eq_error_of_map h]
      rfl

theorem local_join (side : Handler.Side) (alone : TemplateError) :
    Local kind (join kind side alone) where
  ok := by
    intro x y h g r
    cases x with
    | here b a => exact (local_joinTop kind side alone).ok h g r
    | inside b o x a =>
      rw [join] at h
      change (inside (g ++ b) o x (a ++ r)).join kind side alone = _
      rw [join]
      split at h
      · rw [if_pos ‹_›]
        exact (local_joinTop kind side alone).ok h g r
      · obtain ⟨z, hz, rfl⟩ := exists_of_map_eq_ok h
        rw [if_neg ‹_›, hz]
        rfl
  error := by
    intro x e h g hg r
    cases x with
    | here b a => exact (local_joinTop kind side alone).error h hg r
    | inside b o x a =>
      rw [join] at h
      change (inside (g ++ b) o x (a ++ r)).join kind side alone = _
      rw [join]
      split at h
      · rw [if_pos ‹_›]
        exact (local_joinTop kind side alone).error h hg r
      · rw [if_neg ‹_›, eq_error_of_map h]
        rfl

end Continue

/-! ## Other labels -/

section Map

variable {β : Type} (h : α → β) (kind : β → Kind)

theorem map_flank (f g : Forest α) (x : Niche α) :
    (x.flank f g).map h = (x.map h).flank (f.map h) (g.map h) := by
  simp [flank, map]

theorem map_wrap (o : α) (x : Niche α) : (x.wrap o).map h = (x.map h).wrap (h o) := by
  simp [wrap, map]

theorem map_wrapTest (o b₁ b₂ : α) (x : Niche α) :
    (x.wrapTest o b₁ b₂).map h = (x.map h).wrapTest (h o) (h b₁) (h b₂) := by
  simp [wrapTest, map]

theorem again_map (x : Niche α) :
    (x.map h).again kind = (x.again fun a => kind (h a)).map (map h) := by
  unfold again
  rw [left_map, cutLast_map h (fun a => (kind a).isLoop)]
  cases x.left.cutLast fun a => (kind (h a)).isLoop with
  | none => rfl
  | some cut =>
    obtain ⟨b, o, c, a⟩ := cut
    cases a with
    | nil => simp [Cut.map, Except.map, map]
    | cons k d r => rfl

theorem isBare_map (x : Niche α) : (x.map h).isBare kind = x.isBare fun a => kind (h a) := by
  induction x with
  | here b a => simp [isBare, map]
  | inside b o x a ih => simp [isBare, map, ih]

theorem enter_map (alone : TemplateError) {x : Forest α → Niche α} {y : Forest β → Niche β}
    (hxy : ∀ c, y (c.map h) = (x c).map h) (side : Handler.Side) (f : Forest α) :
    enter kind alone y side (f.map h) =
      (enter (fun a => kind (h a)) alone x side f).map (map h) := by
  match f with
  | nil => cases side <;> rfl
  | cons k₁ c₁ nil => cases side <;> rfl
  | cons k₁ c₁ (cons k₂ c₂ (cons k₃ c₃ r)) => cases side <;> rfl
  | cons k₁ c₁ (cons k₂ c₂ nil) =>
    cases side with
    | holds =>
      simp only [map_cons, map_nil, enter, isEmpty_map, hxy]
      split
      · split <;> rfl
      · rfl
    | fails =>
      simp only [map_cons, map_nil, enter, hxy]
      rfl

theorem joinTop_map (side : Handler.Side) (alone : TemplateError) (x : Niche α) :
    (x.map h).joinTop kind side alone =
      (x.joinTop (fun a => kind (h a)) side alone).map (map h) := by
  unfold joinTop
  rw [before_map, cutLast_map h (fun a => (kind a).isConditional)]
  cases x.before.cutLast fun a => (kind (h a)).isConditional with
  | none => rfl
  | some cut =>
    have hset : ∀ c : Forest α, (x.map h).set (c.map h ++ (cut.map h).after) nil =
        (x.set (c ++ cut.after) nil).map h := by
      intro c
      rw [map_set, map_append]
      rfl
    simp only [Option.map_some]
    rw [show (cut.map h).below = cut.below.map h from rfl,
      enter_map h kind alone (x := fun c => x.set (c ++ cut.after) nil) hset]
    cases enter (fun a => kind (h a)) alone (fun c => x.set (c ++ cut.after) nil) side cut.below with
    | error e => rfl
    | ok z => rw [after_map]; rfl

theorem join_map (side : Handler.Side) (alone : TemplateError) (x : Niche α) :
    (x.map h).join kind side alone = (x.join (fun a => kind (h a)) side alone).map (map h) := by
  induction x with
  | here b a => exact joinTop_map h kind side alone (here b a)
  | inside b o x a ih =>
    change (inside (b.map h) (h o) (x.map h) (a.map h)).join kind side alone = _
    rw [join, join, isBare_map]
    split
    · exact joinTop_map h kind side alone (inside b o x a)
    · rw [ih]
      cases x.join (fun a => kind (h a)) side alone <;> rfl

end Map

end Niche

/-! ## What comes behind the gap -/

/-- One list has at most one node more than the other, and no element. -/
def Grows (l l' : List Kind) : Prop :=
  ∃ p m q, l = p ++ q ∧ l' = p ++ (m ++ q) ∧ m.length ≤ 1 ∧ ∀ k ∈ m, k.isElement = false

theorem Grows.refl (l : List Kind) : Grows l l :=
  ⟨[], [], l, rfl, rfl, Nat.zero_le 1, List.forall_mem_nil _⟩

theorem Grows.append {l l' : List Kind} (h : Grows l l') (r : List Kind) : Grows (l ++ r) (l' ++ r) := by
  obtain ⟨p, m, q, rfl, rfl, hm⟩ := h
  exact ⟨p, m, q ++ r, by simp, by simp, hm⟩

namespace Niche

/-- At most `n` nodes are behind the gap, and none of them is an element. -/
structure Tidy (n : Nat) (x : Niche Kind) : Prop where
  length_le : x.ahead.preorder.length ≤ n
  not_isElement : ∀ k ∈ x.ahead.preorder, k.isElement = false

variable {x y : Niche Kind}

theorem Tidy.grows {n : Nat} (hx : x.Tidy n) (h : Grows x.ahead.preorder y.ahead.preorder) :
    y.Tidy (n + 1) := by
  obtain ⟨p, m, q, hpq, hpmq, hm, hk⟩ := h
  have hlength := hx.length_le
  have hnot := hx.not_isElement
  rw [hpq] at hlength hnot
  constructor
  · rw [hpmq]
    simp only [List.length_append] at hlength ⊢
    omega
  · rw [hpmq]
    simp only [List.mem_append] at hnot ⊢
    rintro k (hp | hm | hq)
    · exact hnot k (Or.inl hp)
    · exact hk k hm
    · exact hnot k (Or.inr hq)

theorem grows_plant {z : Niche Kind} (h : Grows x.right.preorder z.ahead.preorder) :
    Grows x.ahead.preorder (x.plant z).ahead.preorder := by
  rw [ahead_plant, ahead, preorder_append, preorder_append]
  exact h.append _

theorem grows_again (h : x.again id = .ok y) : Grows x.ahead.preorder y.ahead.preorder := by
  unfold again at h
  split at h
  · cases h
    exact grows_plant (by simpa using Grows.refl _)
  · cases h

theorem grows_joinTop {side : Handler.Side} {alone : TemplateError}
    (h : x.joinTop id side alone = .ok y) : Grows x.ahead.preorder y.ahead.preorder := by
  have hahead : x.ahead.preorder = (x.set nil nil).ahead.preorder ++ x.after.preorder := by
    rw [← preorder_append, ← ahead_set, set_self]
  unfold joinTop at h
  cases hcut : x.before.cutLast fun a => (id a).isConditional with
  | none =>
    rw [hcut] at h
    cases h
  | some cut =>
    rw [hcut] at h
    obtain ⟨z, hz, rfl⟩ := exists_of_map_eq_ok h
    rw [hahead, ahead_inside, preorder_append]
    refine Grows.append ?_ _
    obtain ⟨k₁, c₁, k₂, c₂, -, rfl | ⟨rfl, hk₂⟩⟩ := enter_eq_ok hz
    · rw [ahead_inside, ahead_set (c₂ ++ cut.after), append_nil, append_nil]
      exact Grows.refl _
    · refine ⟨_, [k₂], [], (List.append_nil _).symm, ?_, Nat.le_refl 1, ?_⟩
      · rw [ahead_inside, ahead_set (c₁ ++ cut.after), append_nil]
        simp [tree]
      · simp [show k₂ = .branch from hk₂, Kind.isElement]

theorem grows_join {side : Handler.Side} {alone : TemplateError} (h : x.join id side alone = .ok y) :
    Grows x.ahead.preorder y.ahead.preorder := by
  induction x generalizing y with
  | here b a => exact grows_joinTop h
  | inside b o x a ih =>
    rw [join] at h
    split at h
    · exact grows_joinTop h
    · obtain ⟨z, hz, rfl⟩ := exists_of_map_eq_ok h
      rw [ahead_inside, ahead_inside, preorder_append, preorder_append]
      exact (ih hz).append _

end Niche

/-! ## Effects -/

/-- What a directive writes: text or code. -/
structure Leaf where
  kind : Kind
  isLeaf : kind.isLeaf = true

namespace Leaf

def code (f : Fragment) : Leaf := ⟨.code f, rfl⟩

theorem isElement (p : Leaf) : p.kind.isElement = false := by
  have := p.isLeaf
  cases hk : p.kind <;> simp_all [Kind.isLeaf, Kind.isElement]

theorem isConditional (p : Leaf) : p.kind.isConditional = false := by
  have := p.isLeaf
  cases hk : p.kind <;> simp_all [Kind.isLeaf, Kind.isConditional]

end Leaf

/-- What a directive does to its element and to the niche of the element. -/
inductive Effect where
  | mark
  | remove (instead : Option Leaf)
  | flank (before : Leaf) (after : Option Leaf)
  | content (leaf : Leaf)
  | change (change : Element → Element)
  | loop
  | condition
  | otherwise
  | fail (error : TemplateError)

namespace Effect

open Handler

def capturing (helper : Helper) (s : Site) : Effect :=
  .flank (.code (Fragment.statement (call s helper)))
    (some (.code (Fragment.statement (s.dialect.call .endBlock []))))

def declaring (code : String) : Effect :=
  .flank (.code (Fragment.eager code)) none

def calling (code : String) : Effect :=
  .remove (some (.code (Fragment.expression code)))

def translating (helper : Helper) (count : List String) (s : Site) (content : Forest Kind) : Effect :=
  let m := message s.dialect 0 content
  .content (.code (Fragment.expression
    (s.dialect.call helper (s.dialect.literal (trimmed m.1) :: (count ++ m.2)))))

end Effect

/-- An element that only refers to a resource. -/
def Kind.isResource (k : Kind) : Bool :=
  k.element?.any fun e => Handler.resourceTags.contains e.tag

namespace Handler

theorem isLeaf_markup (s : Site) : (markup s).isLeaf = true := by
  unfold markup
  split <;> rfl

theorem isLeaf_plainText (s : Site) : (plainText s).isLeaf = true := by
  unfold plainText
  split <;> rfl

/-- The effect of the directive of the given name on an element of the given kind, if it does not read the
content. What an import puts at the head of the document is not part of it. -/
def bareEffect (s : Site) (k : Kind) : (name : String) → Effect
  | "ignore" => .remove none
  | "import" => if k.isResource then .remove none else .change id
  | "imports" => if k.isResource then .calling (s.dialect.call .resourceBlock []) else .change id
  | "extend" => if s.parameter.isSome then .declaring (call s .extend) else .fail .extendAlone
  | "layout" => .declaring (call s .layout)
  | "nolayout" => .declaring (s.dialect.call .disableLayout [])
  | "foreach" => .loop
  | "if" => .condition
  | "else" => .otherwise
  | "assign" => .capturing .beginBlock s
  | "append" => .capturing .appendBlock s
  | "prepend" => .capturing .prependBlock s
  | "embed" => .calling (call s .embed)
  | "block" => .calling (call s .block)
  | "outerhtml" => .remove (some ⟨markup s, isLeaf_markup s⟩)
  | "outertext" => .remove (some ⟨plainText s, isLeaf_plainText s⟩)
  | "innerhtml" | "html" => .content ⟨markup s, isLeaf_markup s⟩
  | "innertext" | "text" => .content ⟨plainText s, isLeaf_plainText s⟩
  | "datetime" => .change (setChange "datetime" .formatDate s)
  | "src" => .change (setChange "src" .link s)
  | "class" => .change (classChange s)
  | "file" => .change (assetChange s)
  | "href" => .change (hrefChange s)
  | _ => .mark

/-- The effect of the directive of the given name on an element of the given kind with the given
content. -/
def effect (s : Site) (k : Kind) (content : Forest Kind) : (name : String) → Effect
  | "tr" => .translating .translate [] s content
  | "tn" => .translating .translatePlural [s.code] s content
  | name => bareEffect s k name

/-- The directives that import a resource. -/
def importNames : List String := ["import", "imports"]

end Handler

/-- Does what an effect says at the site. -/
def Effect.perform (s : Site) (t : Tree) : Effect → Outcome
  | mark => Handler.mark s t
  | remove none => { tree := t.detach s.node }
  | remove (some p) => { tree := Handler.putInstead s p.kind t }
  | flank p none => { tree := Handler.putBefore s p.kind t }
  | flank p (some q) => { tree := Handler.putAfter s q.kind (Handler.putBefore s p.kind t) }
  | content p => { tree := Handler.putBelow s p.kind t }
  | change f => { tree := t.mapElement s.node f }
  | loop => Handler.loop s t
  | condition => Handler.condition s t
  | otherwise => Handler.otherwise s t
  | fail e => { tree := t, error := some e }

namespace Handler

theorem extend_eq_perform (s : Site) (k : Kind) (content : Forest Kind) (t : Tree) :
    extend s t = (effect s k content "extend").perform s t := by
  have heffect : effect s k content "extend" =
      if s.parameter.isSome then .declaring (call s .extend) else .fail .extendAlone := rfl
  rw [extend, heffect]
  cases s.parameter <;> rfl

theorem standard_eq_perform : ∀ d ∈ Registry.standardDirectives, d.name ∉ importNames →
    ∀ (s : Site) (k : Kind) (t : Tree),
      d.run s t = (effect s k (t.below s.node).kinds d.name).perform s t := by
  intro d hd hname s k t
  cases d, hd using Registry.standard_cases with
  | extend => exact extend_eq_perform s k _ t
  | «import» | imports => exact absurd (by decide) hname
  | _ => rfl

/-- The tree once an import is at its head, if the directive is one. -/
def heading (s : Site) (name : String) (t : Tree) : Tree :=
  if name ∈ importNames then declareImport s t else t

theorem mapElement_id (t : Tree) (n : NodeId) : t.mapElement n id = t := by
  have hkind : ∀ k : Kind, k.mapElement id = k := fun k => by cases k <;> rfl
  have hforest : ∀ f : Forest Node, f.mapKind n (Kind.mapElement id) = f := by
    intro f
    induction f with
    | nil => rfl
    | cons a c r ihc ihr => simp [mapKind, hkind, ihc, ihr]
  rw [Tree.mapElement, hforest]

theorem kind?_declareImport {s : Site} {t : Tree} (ht : t.Numbered) {n : NodeId} {k : Kind}
    (hk : t.kind? n = some k) : (declareImport s t).kind? n = some k := by
  unfold declareImport
  split
  · rw [Tree.kind?_eq_some_iff ((ht.create _).prepend _ _).nodup]
    refine (Tree.prepend_perm (ht.create _).nodup _ _).mem_iff.2 ?_
    obtain ⟨made, hmade, -⟩ := Tree.create_preorder t
      (.code (Fragment.eager (call s .importResource)))
    rw [hmade]
    exact List.mem_append_left _ ((Tree.kind?_eq_some_iff ht.nodup).1 hk)
  · exact hk

theorem isResource_declareImport {s : Site} {t : Tree} (ht : t.Numbered) {k : Kind}
    (hk : t.kind? s.node = some k) : isResource (declareImport s t) s.node = k.isResource := by
  rw [isResource, Tree.element?, kind?_declareImport ht hk]
  rfl

theorem import_eq_perform {s : Site} {t : Tree} (ht : t.Numbered) {k : Kind}
    (hk : t.kind? s.node = some k) (content : Forest Kind) :
    importResource s t = (effect s k content "import").perform s (declareImport s t) := by
  have heffect : effect s k content "import" = if k.isResource then .remove none else .change id := rfl
  rw [importResource, isResource_declareImport ht hk, heffect]
  cases k.isResource <;> simp [Effect.perform, mapElement_id]

theorem imports_eq_perform {s : Site} {t : Tree} (ht : t.Numbered) {k : Kind}
    (hk : t.kind? s.node = some k) (content : Forest Kind) :
    importList s t = (effect s k content "imports").perform s (declareImport s t) := by
  have heffect : effect s k content "imports" =
      if k.isResource then .calling (s.dialect.call .resourceBlock []) else .change id := rfl
  rw [importList, isResource_declareImport ht hk, heffect]
  cases k.isResource <;> simp [Effect.perform, Effect.calling, Leaf.code, mapElement_id]

theorem run_of_mem_importNames : ∀ d ∈ Registry.standardDirectives, d.name ∈ importNames →
    d.name = "import" ∧ d.run = importResource ∨ d.name = "imports" ∧ d.run = importList := by
  intro d hd hname
  cases d, hd using Registry.standard_cases with
  | «import» => exact Or.inl ⟨rfl, rfl⟩
  | imports => exact Or.inr ⟨rfl, rfl⟩
  | _ => exact absurd hname (by decide)

/-- A standard directive does what its effect says, once an import is at the head of the document. -/
theorem run_eq_perform {d : Directive} (hd : d.IsStandard) {s : Site} {t : Tree} (ht : t.Numbered)
    {k : Kind} (hk : t.kind? s.node = some k) :
    d.run s t = (effect s k (t.below s.node).kinds d.name).perform s (heading s d.name t) := by
  obtain ⟨d₀, hd₀, hname, hrun⟩ := hd
  rw [hrun, hname, heading]
  by_cases himport : d₀.name ∈ importNames
  · rw [if_pos himport]
    rcases run_of_mem_importNames d₀ hd₀ himport with ⟨hname, hrun⟩ | ⟨hname, hrun⟩
    · rw [hname, hrun]
      exact import_eq_perform ht hk _
    · rw [hname, hrun]
      exact imports_eq_perform ht hk _
  · rw [if_neg himport]
    exact standard_eq_perform d₀ hd₀ himport s k t

end Handler

/-! ## Effects on niches -/

namespace Effect

open Niche

variable {α β : Type} (lab : Labelling α) (s : Site)

/-- Whether an effect leaves the element itself alone. -/
def onNiche : Effect → Bool
  | remove _ | content _ | change _ => false
  | _ => true

/-- What an effect makes of the niche of its element. -/
def move : Effect → Niche α → Except TemplateError (Niche α)
  | flank p q => fun x => .ok (x.flank (tree (lab.make 0 p.kind) nil)
      ((q.map fun q => tree (lab.make 1 q.kind) nil).getD nil))
  | loop =>
    if s.parameter.isSome then fun x => .ok (x.wrap (lab.make 0 (.loop s.code))) else again lab.kind
  | condition =>
    if s.parameter.isSome then fun x =>
      .ok (x.wrapTest (lab.make 0 (.conditional s.code)) (lab.make 1 .branch) (lab.make 2 .branch))
    else join lab.kind .holds .ifAlone
  | otherwise => join lab.kind .fails .elseAlone
  | fail e => fun _ => .error e
  | _ => .ok

theorem local_move (e : Effect) : Local lab.kind (e.move lab s) := by
  have hrefl : Local lab.kind (.ok : Niche α → Except TemplateError (Niche α)) := by
    refine ⟨fun h _ _ => ?_, fun h => ?_⟩ <;> cases h
    rfl
  cases e with
  | mark | remove | content | change => exact hrefl
  | flank p q => exact local_flank _ _ _
  | loop =>
    rw [move]
    split
    · exact local_wrap _ _
    · exact local_again lab.kind
  | condition =>
    rw [move]
    split
    · exact local_wrapTest _ _ _ _
    · exact local_join lab.kind .holds .ifAlone
  | otherwise => exact local_join lab.kind .fails .elseAlone
  | fail e =>
    refine ⟨fun h => ?_, fun h _ _ _ => h⟩
    cases h

/-- What becomes of a niche does not depend on its labels. -/
theorem move_map {lab : Labelling α} {lab' : Labelling β} {h : α → β} {rename : NodeId → NodeId}
    (hmaps : lab.Maps lab' h rename) {s s' : Site} (hparam : s'.parameter = s.parameter)
    (hcode : s'.code = s.code) (e : Effect) (x : Niche α) :
    e.move lab' s' (x.map h) = (e.move lab s x).map (Niche.map h) := by
  have hkind : (fun a => lab'.kind (h a)) = lab.kind := funext hmaps.kind
  cases e with
  | mark | remove | content | change | fail => rfl
  | flank p q =>
    have hq : (q.map fun q => tree (lab'.make 1 q.kind) nil).getD nil =
        ((q.map fun q => tree (lab.make 1 q.kind) nil).getD nil).map h := by
      cases q <;> simp [hmaps.make]
    simp only [move, Except.map, map_flank, map_tree, hmaps.make, map_nil, hq]
  | loop =>
    simp only [move, hparam, hcode]
    split
    · simp only [Except.map, map_wrap, hmaps.make]
    · rw [again_map, hkind]
  | condition =>
    simp only [move, hparam, hcode]
    split
    · simp only [Except.map, map_wrapTest, hmaps.make]
    · rw [join_map, hkind]
  | otherwise =>
    simp only [move]
    rw [join_map, hkind]

theorem grows_move {e : Effect} {x y : Niche Kind} (h : e.move .plain s x = .ok y) :
    Grows x.ahead.preorder y.ahead.preorder := by
  cases e with
  | mark | remove | content | change =>
    cases h
    exact Grows.refl _
  | flank p q =>
    cases h
    refine grows_plant ?_
    rw [ahead_here, preorder_append]
    refine ⟨[], _, _, rfl, rfl, ?_⟩
    cases q with
    | none => simp
    | some q => simp [tree, Labelling.plain, q.isElement]
  | loop =>
    simp only [move] at h
    split at h
    · cases h
      exact grows_plant (by simpa using Grows.refl _)
    · exact grows_again h
  | condition =>
    simp only [move] at h
    split at h
    · cases h
      refine grows_plant ⟨[], [.branch], _, rfl, ?_, Nat.le_refl 1, ?_⟩
      · rw [ahead_inside, ahead_inside, ahead_here, nil_append, preorder_append]
        rfl
      · simp [Kind.isElement]
    · exact grows_join h
  | otherwise => exact grows_join h
  | fail e => cases h

end Effect

end HtmlTemplate
