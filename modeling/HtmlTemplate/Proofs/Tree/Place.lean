import HtmlTemplate.Proofs.Tree.Document
import HtmlTemplate.Proofs.Tree.Shape

/-! # Places that a walk comes through

A walk through a document has what is behind it and what is ahead of it. Behind a bound, only old
numbers count; what was made since then and has nothing below it is inert. `After` says that ahead
of a place there is, level by level, nothing but inert nodes and then the trees that were ahead
before.
-/

namespace HtmlTemplate

open Forest Context

/-- The numbers below a bound. -/
def older (bound : NodeId) (l : List NodeId) : List NodeId :=
  l.filter (· < bound)

section Older

variable {bound n : NodeId} {l m : List NodeId}

@[simp] theorem older_nil : older bound [] = [] := rfl

@[simp] theorem older_append : older bound (l ++ m) = older bound l ++ older bound m :=
  List.filter_append ..

theorem older_cons_new (h : bound ≤ n) : older bound (n :: l) = older bound l :=
  List.filter_cons_of_neg (by simpa using h)

theorem older_cons : older bound (n :: l) = older bound [n] ++ older bound l := by
  rw [← older_append, List.singleton_append]

end Older

namespace Forest

/-- New nodes other than elements, with nothing below them. -/
def Inert (bound : NodeId) : Forest Node → Prop
  | nil => True
  | cons a c r => bound ≤ a.id ∧ a.kind.isElement = false ∧ c = nil ∧ Inert bound r

/-- Nothing stands below a node that is not an element. -/
def Leafy : Forest Node → Prop
  | nil => True
  | cons a c r => (a.kind.isElement = true ∨ c = nil) ∧ Leafy c ∧ Leafy r

variable {bound : NodeId} {f g : Forest Node}

theorem inert_append : (f ++ g).Inert bound ↔ f.Inert bound ∧ g.Inert bound := by
  induction f with
  | nil => simp [Inert]
  | cons a c r _ ih => simp [Inert, ih, and_assoc]

theorem inert_tree {a : Node} (hid : bound ≤ a.id) (hk : a.kind.isElement = false) :
    (tree a nil).Inert bound :=
  ⟨hid, hk, rfl, trivial⟩

theorem leafy_append : (f ++ g).Leafy ↔ f.Leafy ∧ g.Leafy := by
  induction f with
  | nil => simp [Leafy]
  | cons a c r _ ih => simp [Leafy, ih, and_assoc]

theorem Inert.leafy (h : f.Inert bound) : f.Leafy := by
  induction f with
  | nil => exact trivial
  | cons a c r _ ih =>
    obtain ⟨-, -, rfl, hr⟩ := h
    exact ⟨Or.inr rfl, trivial, ih hr⟩

theorem Inert.older_ids (h : f.Inert bound) : older bound f.ids = [] := by
  induction f with
  | nil => rfl
  | cons a c r _ ih =>
    obtain ⟨ha, -, rfl, hr⟩ := h
    rw [ids_cons, older_cons_new ha, ids_nil, List.nil_append, ih hr]

theorem Inert.not_isElement (h : f.Inert bound) {x : Node} (hx : x ∈ f.roots) :
    x.kind.isElement = false := by
  induction f with
  | nil => exact absurd hx List.not_mem_nil
  | cons a c r _ ih =>
    obtain ⟨-, ha, -, hr⟩ := h
    rcases List.mem_cons.1 hx with rfl | hx
    · exact ha
    · exact ih hr hx

end Forest

namespace Context

/-! ## Contexts that differ in what is behind -/

/-- Contexts with the same nodes above the gap and the same trees ahead. -/
def Alike (ks ks' : Context) : Prop :=
  ks.map (fun k => (k.node, k.after)) = ks'.map (fun k => (k.node, k.after))

variable {bound : NodeId} {js ks ks' : Context} {l r r₀ made : Forest Node}

theorem Alike.refl (ks : Context) : Alike ks ks := rfl

theorem Alike.cons {k k' : Frame} (h : Alike ks ks') (hn : k.node = k'.node)
    (ha : k.after = k'.after) : Alike (k :: ks) (k' :: ks') := by
  rw [Alike, List.map_cons, List.map_cons, hn, ha, h]

theorem Alike.rest (h : Alike ks ks') : rest ks = rest ks' := by
  induction ks generalizing ks' with
  | nil =>
    rw [List.map_eq_nil_iff.1 h.symm]
  | cons k ks ih =>
    cases ks' with
    | nil => cases h
    | cons k' ks' =>
      obtain ⟨hk, hks⟩ := List.cons.inj h
      rw [rest_cons, rest_cons, (Prod.mk.inj hk).2, ih hks]

theorem Alike.forall_head {P : Node → Prop} (h : Alike ks ks') (hP : ∀ k ∈ ks.head?, P k.node) :
    ∀ k ∈ ks'.head?, P k.node := by
  cases ks with
  | nil =>
    rw [List.map_eq_nil_iff.1 h.symm]
    exact fun k hk => absurd hk (by simp)
  | cons k ks =>
    cases ks' with
    | nil => cases h
    | cons k' ks' =>
      have hk := (Prod.mk.inj (List.cons.inj h).1).1
      intro j hj
      cases hj
      exact hk ▸ hP k rfl

theorem Alike.exists_append (h : Alike (js ++ ks) ks') :
    ∃ js₁ ks₁, ks' = js₁ ++ ks₁ ∧ Alike js js₁ ∧ Alike ks ks₁ := by
  rw [Alike, List.map_append] at h
  obtain ⟨js₁, ks₁, rfl, h₁, h₂⟩ := List.map_eq_append_iff.1 h.symm
  exact ⟨js₁, ks₁, rfl, h₁.symm, h₂.symm⟩

/-- A tree is put at the head of the document, with nothing else changed around the gap. -/
theorem exists_cons_close (x : Node) (ks : Context) (l r : Forest Node) :
    ∃ ks' l', tree x nil ++ close ks (l ++ r) = close ks' (l' ++ r) ∧ Alike ks ks' ∧
      leading ks' ++ l'.ids = x.id :: (leading ks ++ l.ids) := by
  induction ks generalizing l r with
  | nil => exact ⟨[], tree x nil ++ l, (Forest.append_assoc ..).symm, rfl, by simp⟩
  | cons k ks ih =>
    obtain ⟨ks', b, hclose, halike, hlead⟩ := ih k.before (cons k.node (l ++ r) k.after)
    refine ⟨⟨b, k.node, k.after⟩ :: ks', l, hclose, halike.cons rfl rfl, ?_⟩
    rw [leading_cons, leading_cons, ← List.append_assoc, hlead]
    simp

/-! ## What is ahead of a place -/

/-- Ahead of a place within `js`, level by level, there are inert nodes and then `r₀`. -/
def After (bound : NodeId) (r₀ : Forest Node) : Context → Forest Node → Prop
  | [], r => ∃ made, made.Inert bound ∧ r = made ++ r₀
  | k :: js, r => r.Inert bound ∧ After bound r₀ js k.after

theorem After.self (bound : NodeId) (r₀ : Forest Node) : After bound r₀ [] r₀ :=
  ⟨nil, trivial, rfl⟩

theorem After.prepend (h : After bound r₀ js r) (hmade : made.Inert bound) :
    After bound r₀ js (made ++ r) := by
  cases js with
  | nil =>
    obtain ⟨made', hmade', rfl⟩ := h
    exact ⟨made ++ made', inert_append.2 ⟨hmade, hmade'⟩, (Forest.append_assoc ..).symm⟩
  | cons k js => exact ⟨inert_append.2 ⟨hmade, h.1⟩, h.2⟩

theorem After.of_alike {js' : Context} (h : After bound r₀ js r) (halike : Alike js js') :
    After bound r₀ js' r := by
  induction js generalizing js' r with
  | nil =>
    rw [List.map_eq_nil_iff.1 halike.symm]
    exact h
  | cons k js ih =>
    cases js' with
    | nil => cases halike
    | cons k' js' =>
      obtain ⟨hk, hjs⟩ := List.cons.inj halike
      refine ⟨h.1, ih ?_ hjs⟩
      rw [← (Prod.mk.inj hk).2]
      exact h.2

/-- Within a frame, what was ahead of the frame is ahead once the level is done. -/
theorem After.within {k : Frame} (h : After bound nil js r) (hks : After bound r₀ ks k.after) :
    After bound r₀ (js ++ k :: ks) r := by
  induction js generalizing r with
  | nil =>
    obtain ⟨made, hmade, rfl⟩ := h
    exact ⟨by rwa [Forest.append_nil], hks⟩
  | cons j js ih => exact ⟨h.1, ih h.2⟩

theorem After.rest (h : After bound r₀ js r) :
    ∃ made, made.Inert bound ∧ r ++ rest js = made ++ r₀ := by
  induction js generalizing r with
  | nil =>
    obtain ⟨made, hmade, rfl⟩ := h
    exact ⟨made, hmade, by rw [rest_nil, Forest.append_nil]⟩
  | cons k js ih =>
    obtain ⟨made, hmade, hrest⟩ := ih h.2
    exact ⟨r ++ made, inert_append.2 ⟨h.1, hmade⟩, by
      rw [rest_cons, hrest, Forest.append_assoc]⟩

/-- The frames of `js` can be seen as trees that are behind. -/
theorem After.exists_close (h : After bound r₀ js r) (l : Forest Node) :
    ∃ l', close js (l ++ r) = l' ++ r₀ ∧ older bound l'.ids = older bound (leading js ++ l.ids) := by
  induction js generalizing l r with
  | nil =>
    obtain ⟨made, hmade, rfl⟩ := h
    refine ⟨l ++ made, (Forest.append_assoc ..).symm, ?_⟩
    simp [hmade.older_ids]
  | cons k js ih =>
    obtain ⟨l', hclose, hold⟩ := ih h.2 (k.before ++ tree k.node (l ++ r))
    refine ⟨l', ?_, ?_⟩
    · rw [close_cons, ← hclose, Forest.append_assoc, tree_append]
    · rw [hold, leading_cons]
      simp only [ids_append, ids_tree, older_append, List.append_assoc]
      rw [older_cons, older_append, h.1.older_ids, List.append_nil]

/-! ## Elements ahead -/

/-- Where an element is ahead, an element or the document is above it. -/
def Calm : Context → Forest Node → Prop
  | [], _ => True
  | k :: ks, f => (k.node.kind.isElement = true ∨ ∀ x ∈ f.roots, x.kind.isElement = false) ∧
      Calm ks k.after

theorem Calm.inert_append (h : Calm ks r) (hmade : made.Inert bound) : Calm ks (made ++ r) := by
  cases ks with
  | nil => exact trivial
  | cons k ks =>
    refine ⟨h.1.imp_right fun hno x hx => ?_, h.2⟩
    rcases List.mem_append.1 (roots_append .. ▸ hx) with hx | hx
    · exact hmade.not_isElement hx
    · exact hno x hx

theorem Calm.of_alike (h : Calm ks r) (halike : Alike ks ks') : Calm ks' r := by
  induction ks generalizing ks' r with
  | nil =>
    rw [List.map_eq_nil_iff.1 halike.symm]
    exact trivial
  | cons k ks ih =>
    cases ks' with
    | nil => cases halike
    | cons k' ks' =>
      obtain ⟨hk, hks⟩ := List.cons.inj halike
      obtain ⟨hn, ha⟩ := Prod.mk.inj hk
      refine ⟨?_, ih ?_ hks⟩
      · rw [← hn]
        exact h.1
      · rw [← ha]
        exact h.2

theorem Calm.tail {a : Node} {c : Forest Node} (h : Calm ks (cons a c r)) : Calm ks r := by
  cases ks with
  | nil => exact trivial
  | cons k ks => exact ⟨h.1.imp_right fun hno x hx => hno x (List.mem_cons_of_mem _ hx), h.2⟩

/-- Above an element that is reached there is no loop. -/
theorem Calm.not_isLoop {a : Node} {c : Forest Node} (h : Calm ks (cons a c r))
    (ha : a.kind.isElement = true) : ∀ k ∈ ks.head?, k.node.kind.isLoop = false := by
  intro k hk
  cases ks with
  | nil => cases hk
  | cons k' ks =>
    cases hk
    rcases h.1 with hk | hno
    · obtain ⟨e, he⟩ := Kind.exists_element hk
      rw [he]
      rfl
    · rw [hno a List.mem_cons_self] at ha
      cases ha

theorem After.calm (h : After bound r₀ js r) (hks : Calm ks r₀) : Calm (js ++ ks) r := by
  induction js generalizing r with
  | nil =>
    obtain ⟨made, hmade, rfl⟩ := h
    exact hks.inert_append hmade
  | cons k js ih => exact ⟨Or.inr fun x hx => h.1.not_isElement hx, ih h.2⟩

end Context

end HtmlTemplate
