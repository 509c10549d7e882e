import HtmlTemplate.Proofs.Directive.Effect

/-! # What a pass makes of markup

The pass is described here without a cursor: `Registry.report` goes through the trees of a level from left
to right, with what came of the trees before, and through the content of each element that is kept. It
tells of the handlers that are run and of what they leave behind, for nodes with any labels (`report_map`).
What comes of a level does not depend on what came before it, if it succeeds without that
(`sweep_behind`).
-/

namespace HtmlTemplate

open Forest

namespace Kind

theorem isElement_mapElement (k : Kind) (f : Element → Element) :
    (k.mapElement f).isElement = k.isElement := by
  cases k <;> rfl

theorem isLoop_mapElement (k : Kind) (f : Element → Element) : (k.mapElement f).isLoop = k.isLoop := by
  cases k <;> rfl

end Kind

variable {α β γ : Type}

/-! ## Reports -/

/-- What a part of a pass comes to: the handlers that it runs, and what it leaves behind or what was
wrong. -/
structure Report (α : Type) where
  calls : List Call
  result : Except TemplateError α

namespace Report

/-- A part that runs no handlers. -/
def silent (a : α) : Report α :=
  ⟨[], .ok a⟩

/-- A part behind others that ran the given handlers. -/
def after (calls : List Call) (x : Report α) : Report α :=
  { x with calls := calls ++ x.calls }

/-- One part and then another, unless something was wrong with the first. -/
def bind (x : Report α) (f : α → Report β) : Report β :=
  match x.result with
  | .ok a => (f a).after x.calls
  | .error e => ⟨x.calls, .error e⟩

def map (f : α → β) (x : Report α) : Report β :=
  ⟨x.calls, x.result.map f⟩

theorem result_bind (x : Report α) (f : α → Report β) :
    (x.bind f).result = x.result.bind fun a => (f a).result := by
  unfold bind
  cases x.result <;> rfl

theorem result_map (f : α → β) (x : Report α) : (x.map f).result = x.result.map f := rfl

end Report

/-! ## Elements and their directives -/

/-- An element while its directives run: its niche, what it is by now, and what has taken the place of
its content. -/
structure Stance (α : Type) where
  niche : Niche α
  label : α
  content : Option Leaf

/-- What becomes of an element. -/
inductive Turnout (α : Type) where
  | kept (x : Stance α)
  | gone (f : Forest α)

section Semantics

variable (lab : Labelling α)

/-- What a directive writes, as a forest. -/
def Leaf.planted (p : Leaf) : Forest α :=
  tree (lab.make 0 p.kind) nil

namespace Stance

/-- What is below the element, if `c` was there at first. -/
def below (c : Forest α) (x : Stance α) : Forest α :=
  (x.content.map (Leaf.planted lab)).getD c

def mapLabel (f : Element → Element) (x : Stance α) : Stance α :=
  { x with label := lab.alter ((lab.kind x.label).mapElement f) x.label }

end Stance

/-- What an effect does to an element. -/
def Effect.act (s : Site) (x : Stance α) : Effect → Except TemplateError (Turnout α)
  | remove p => .ok (.gone (x.niche.fill ((p.map (Leaf.planted lab)).getD nil)))
  | content p => .ok (.kept { x with content := some p })
  | change f => .ok (.kept (x.mapLabel lab f))
  | e => (e.move lab s x.niche).map fun y => .kept { x with niche := y }

namespace Stance

/-- Where a directive runs. -/
def site (d : Dialect) (attr : String) (x : Stance α) : Site :=
  ⟨d, lab.id x.label, Registry.parameter? ((lab.kind x.label).element?.bind (·.get? attr))⟩

/-- What a directive does to an element with `c` below it. -/
def step (d : Dialect) (c : Forest α) (z : String × Directive) (x : Stance α) : Report (Turnout α) :=
  let s := x.site lab d z.1
  let y := x.mapLabel lab (·.erase z.1)
  ⟨[⟨s.node, z.2.name, s.parameter⟩],
    (Handler.effect s (lab.kind y.label) ((y.below lab c).map lab.kind) z.2.name).act lab s y⟩

/-- What directives do to an element with `c` below it, one after the other. -/
def run (d : Dialect) (c : Forest α) : List (String × Directive) → Stance α → Report (Turnout α)
  | [], x => .silent (.kept x)
  | z :: rest, x => (x.step lab d c z).bind fun
    | .gone f => .silent (.gone f)
    | .kept y => y.run d c rest

end Stance

/-- The trees up to an element once all is done with it, if `below` is what comes of its content. -/
def Turnout.level (below : Report (Forest α)) : Turnout α → Report (Forest α)
  | gone f => .silent f
  | kept x => ((x.content.map fun p => .silent (p.planted lab)).getD below).map fun g =>
      x.niche.fill (tree x.label g)

/-- The directives of a node in the order in which they run. -/
def Registry.orderedOf (r : Registry) (k : Kind) : List (String × Directive) :=
  (k.element?.map r.ordered).getD []

/-- What becomes of a forest behind `left`. -/
def Registry.report (r : Registry) (d : Dialect) : (left f : Forest α) → Report (Forest α)
  | left, nil => .silent left
  | left, cons a c rest =>
    ((Stance.run lab d c (r.orderedOf (lab.kind a)) ⟨.here left nil, a, none⟩).bind
      (·.level lab (r.report d nil c))).bind (r.report d · rest)

end Semantics

/-- What becomes of markup without numbers behind `left`. -/
def Registry.sweep (r : Registry) (d : Dialect) (left f : Forest Kind) :
    Except TemplateError (Forest Kind) :=
  (r.report .plain d left f).result

section Act

variable {lab : Labelling α} {s : Site} {d : Dialect} {c : Forest α} {x y : Stance α}

theorem Effect.act_eq_move {e : Effect} (he : e.onNiche = true) (s : Site) (x : Stance α) :
    e.act lab s x = (e.move lab s x.niche).map fun y => .kept { x with niche := y } := by
  cases e with
  | remove | content | change => cases he
  | mark | flank | loop | condition | otherwise | fail => rfl

/-- An element that is kept has got another niche, other content or other attributes. -/
theorem Stance.kept_act {e : Effect} (h : e.act lab s x = .ok (.kept y)) :
    (∃ z, e.move lab s x.niche = .ok z ∧ y = { x with niche := z }) ∨
      (∃ p, y = { x with content := some p }) ∨ ∃ f, y = x.mapLabel lab f := by
  cases e with
  | remove p => cases h
  | content p =>
    cases h
    exact Or.inr (Or.inl ⟨p, rfl⟩)
  | change f =>
    cases h
    exact Or.inr (Or.inr ⟨f, rfl⟩)
  | mark | flank | loop | condition | otherwise | fail =>
    rw [Effect.act_eq_move rfl] at h
    obtain ⟨z, hz, hy⟩ := exists_of_map_eq_ok h
    cases hy
    exact Or.inl ⟨z, hz, rfl⟩

/-- The directives of an element have run: the first of them, and then the others if it was kept. -/
theorem Stance.run_cons_eq_ok {z : String × Directive} {ds : List (String × Directive)}
    {out : Turnout α} (h : (x.run lab d c (z :: ds)).result = .ok out) :
    (∃ f, (x.step lab d c z).result = .ok (.gone f) ∧ out = .gone f) ∨
      ∃ y : Stance α, (x.step lab d c z).result = .ok (.kept y) ∧ (y.run lab d c ds).result = .ok out := by
  rw [run, Report.result_bind] at h
  obtain ⟨next, hz, h⟩ := exists_of_bind_eq_ok h
  cases next with
  | gone f =>
    cases h
    exact Or.inl ⟨f, hz, rfl⟩
  | kept y => exact Or.inr ⟨y, hz, h⟩

end Act

/-! ## Calls -/

section Calls

variable {lab : Labelling α} {d : Dialect} {P : Call → Prop}

theorem Report.forall_calls_bind {x : Report α} {next : α → Report β} (hx : ∀ c ∈ x.calls, P c)
    (hnext : ∀ a, x.result = .ok a → ∀ c ∈ (next a).calls, P c) : ∀ c ∈ (x.bind next).calls, P c := by
  rw [bind]
  cases hresult : x.result with
  | error e => exact hx
  | ok a => exact List.forall_mem_append.2 ⟨hx, hnext a hresult⟩

/-- An element keeps its number. -/
theorem Stance.id_step {x y : Stance α} {c : Forest α} {z : String × Directive}
    (h : (x.step lab d c z).result = .ok (.kept y)) : lab.id y.label = lab.id x.label := by
  have hmap (f : Element → Element) (x : Stance α) : lab.id (x.mapLabel lab f).label = lab.id x.label :=
    lab.id_alter _ _
  rcases kept_act h with ⟨z, -, rfl⟩ | ⟨q, rfl⟩ | ⟨f, rfl⟩
  · exact hmap _ _
  · exact hmap _ _
  · exact (hmap _ _).trans (hmap _ _)

theorem Stance.forall_calls_run {c : Forest α} {ds : List (String × Directive)} {x : Stance α}
    (hds : ∀ z ∈ ds, ∀ parameter, P ⟨lab.id x.label, z.2.name, parameter⟩) :
    ∀ call ∈ (x.run lab d c ds).calls, P call := by
  induction ds generalizing x with
  | nil => exact List.forall_mem_nil _
  | cons z ds ih =>
    obtain ⟨hz, hds⟩ := List.forall_mem_cons.1 hds
    refine Report.forall_calls_bind (List.forall_mem_singleton.2 (hz _)) fun out hout => ?_
    cases out with
    | gone f => exact List.forall_mem_nil _
    | kept y =>
      rw [← id_step hout] at hds
      exact ih hds

/-- A handler is run only for a directive that is written on a node. -/
theorem Registry.forall_calls_report {reg : Registry} {f : Forest α}
    (hf : ∀ a ∈ f.preorder, ∀ z ∈ reg.orderedOf (lab.kind a), ∀ parameter,
      P ⟨lab.id a, z.2.name, parameter⟩) (left : Forest α) :
    ∀ call ∈ (reg.report lab d left f).calls, P call := by
  induction f generalizing left with
  | nil => exact List.forall_mem_nil _
  | cons a c r ihc ihr =>
    rw [preorder_cons, List.forall_mem_cons, List.forall_mem_append] at hf
    refine Report.forall_calls_bind (Report.forall_calls_bind ?_ ?_) fun l _ => ihr hf.2.2 l
    · exact Stance.forall_calls_run hf.1
    · rintro (⟨y, b, none | p⟩ | g) -
      · exact ihc hf.2.1 nil
      · exact List.forall_mem_nil _
      · exact List.forall_mem_nil _

end Calls

/-! ## Other labels -/

def Call.rename (rename : NodeId → NodeId) (c : Call) : Call :=
  { c with node := rename c.node }

def Report.relabel (f : α → β) (rename : NodeId → NodeId) (x : Report α) : Report β :=
  ⟨x.calls.map (Call.rename rename), x.result.map f⟩

def Stance.map (h : α → β) (x : Stance α) : Stance β :=
  ⟨x.niche.map h, h x.label, x.content⟩

def Turnout.map (h : α → β) : Turnout α → Turnout β
  | kept x => kept (x.map h)
  | gone f => gone (f.map h)

section Relabel

variable {rename : NodeId → NodeId} {lab : Labelling α} {lab' : Labelling β} {h : α → β}
  {s s' : Site} {d : Dialect}

theorem Report.relabel_bind {γ' : Type} {f : α → β} {g : γ → γ'} {x : Report α} {k : α → Report γ}
    {k' : β → Report γ'} (hk : ∀ a, k' (f a) = (k a).relabel g rename) :
    (x.relabel f rename).bind k' = (x.bind k).relabel g rename := by
  unfold bind relabel
  cases x.result with
  | error e => rfl
  | ok a => simp [Except.map, hk, relabel, after]

theorem Report.relabel_map {γ' : Type} {f : α → β} {g : γ → γ'} {m : α → γ} {m' : β → γ'}
    (hm : ∀ a, m' (f a) = g (m a)) (x : Report α) :
    (x.relabel f rename).map m' = (x.map m).relabel g rename := by
  unfold map relabel
  cases x.result with
  | error e => rfl
  | ok a => simp [Except.map, hm]

variable (hmaps : lab.Maps lab' h rename)
include hmaps

theorem Leaf.planted_map (p : Leaf) : p.planted lab' = (p.planted lab).map h := by
  simp [planted, hmaps.make]

theorem Stance.below_map (c : Forest α) (x : Stance α) :
    (x.map h).below lab' (c.map h) = (x.below lab c).map h := by
  unfold below
  cases hcontent : x.content <;> simp [map, hcontent, Leaf.planted_map hmaps]

theorem Stance.mapLabel_map (f : Element → Element) (x : Stance α) :
    (x.map h).mapLabel lab' f = (x.mapLabel lab f).map h := by
  simp [mapLabel, map, hmaps.alter, hmaps.kind]

theorem Effect.act_map (hparam : s'.parameter = s.parameter) (hcode : s'.code = s.code) (e : Effect)
    (x : Stance α) : e.act lab' s' (x.map h) = (e.act lab s x).map (Turnout.map h) := by
  cases e with
  | remove p =>
    have hfill : (x.niche.map h).fill ((p.map (Leaf.planted lab')).getD nil) =
        (x.niche.fill ((p.map (Leaf.planted lab)).getD nil)).map h := by
      rw [Niche.map_fill]
      cases p <;> simp [Leaf.planted_map hmaps]
    exact congrArg (fun f => Except.ok (Turnout.gone f)) hfill
  | content p => rfl
  | change f => exact congrArg (fun y => Except.ok (Turnout.kept y)) (Stance.mapLabel_map hmaps f x)
  | mark | flank | loop | condition | otherwise | fail =>
    rw [act_eq_move rfl, act_eq_move rfl, show (x.map h).niche = x.niche.map h from rfl,
      move_map hmaps hparam hcode]
    cases Effect.move lab s _ x.niche <;> rfl

theorem Stance.step_map (c : Forest α) (z : String × Directive) (x : Stance α) :
    (x.map h).step lab' d (c.map h) z = (x.step lab d c z).relabel (Turnout.map h) rename := by
  have hkind : lab'.kind (x.map h).label = lab.kind x.label := hmaps.kind _
  have hid : lab'.id (x.map h).label = rename (lab.id x.label) := hmaps.id _
  have hcontent : (((x.mapLabel lab (·.erase z.1)).map h).below lab' (c.map h)).map lab'.kind =
      ((x.mapLabel lab (·.erase z.1)).below lab c).map lab.kind := by
    rw [below_map hmaps]
    generalize (x.mapLabel lab (·.erase z.1)).below lab c = f
    induction f with
    | nil => rfl
    | cons a c r ihc ihr => simp [ihc, ihr, hmaps.kind]
  have hlabel : lab'.kind ((x.mapLabel lab (·.erase z.1)).map h).label =
      lab.kind (x.mapLabel lab (·.erase z.1)).label := hmaps.kind _
  unfold step site Report.relabel
  rw [hkind, hid, mapLabel_map hmaps]
  dsimp only
  rw [hcontent, hlabel]
  refine congrArg (Report.mk _) ?_
  exact Effect.act_map hmaps (s := ⟨d, lab.id x.label, _⟩) rfl rfl _ _

theorem Stance.run_map (c : Forest α) (ds : List (String × Directive)) (x : Stance α) :
    (x.map h).run lab' d (c.map h) ds = (x.run lab d c ds).relabel (Turnout.map h) rename := by
  induction ds generalizing x with
  | nil => rfl
  | cons z ds ih =>
    rw [run, run, step_map hmaps]
    refine Report.relabel_bind fun out => ?_
    cases out with
    | gone f => rfl
    | kept y => exact ih y

theorem Turnout.level_map (below : Report (Forest α)) (out : Turnout α) :
    (out.map h).level lab' (below.relabel (Forest.map h) rename) =
      (out.level lab below).relabel (Forest.map h) rename := by
  cases out with
  | gone f => rfl
  | kept x =>
    have hbelow : ((x.content.map fun p => Report.silent (p.planted lab')).getD
        (below.relabel (Forest.map h) rename)) =
        ((x.content.map fun p => Report.silent (p.planted lab)).getD below).relabel (Forest.map h)
          rename := by
      cases x.content with
      | none => rfl
      | some p => simp [Leaf.planted_map hmaps, Report.silent, Report.relabel, Except.map]
    rw [map, level, show (x.map h).content = x.content from rfl, hbelow]
    exact Report.relabel_map (fun g => by rw [Niche.map_fill]; rfl) _

/-- The report about nodes with other labels is the same report, with those labels in it. -/
theorem Registry.report_map (r : Registry) (left f : Forest α) :
    r.report lab' d (left.map h) (f.map h) = (r.report lab d left f).relabel (Forest.map h) rename := by
  induction f generalizing left with
  | nil => rfl
  | cons a c rest ihc ihr =>
    have hrun := Stance.run_map (d := d) hmaps c (r.orderedOf (lab.kind a)) ⟨.here left nil, a, none⟩
    have hnil : r.report lab' d nil (c.map h) = (r.report lab d nil c).relabel (Forest.map h) rename :=
      ihc nil
    rw [map_cons, report, report, hnil, hmaps.kind]
    rw [show (⟨.here (left.map h) nil, h a, none⟩ : Stance β) =
      Stance.map h ⟨.here left nil, a, none⟩ from rfl, hrun]
    rw [Report.relabel_bind (k := (·.level lab (r.report lab d nil c)))
      fun out => Turnout.level_map hmaps _ out]
    exact Report.relabel_bind fun l => ihr l

end Relabel

/-! ## Elements behind other trees -/

def Stance.embed (g r : Forest α) (x : Stance α) : Stance α :=
  { x with niche := x.niche.embed g r }

def Turnout.embed (g r : Forest α) : Turnout α → Turnout α
  | kept x => kept (x.embed g r)
  | gone f => gone (g ++ (f ++ r))

section Embed

variable {lab : Labelling α} {s : Site} {d : Dialect} {c : Forest α} {x : Stance α} {out : Turnout α}

theorem Effect.act_embed {e : Effect} (h : e.act lab s x = .ok out) (g r : Forest α) :
    e.act lab s (x.embed g r) = .ok (out.embed g r) := by
  cases e with
  | remove p =>
    cases h
    exact congrArg (fun f => Except.ok (Turnout.gone f)) (Niche.fill_embed g r _ x.niche)
  | content p | change f =>
    cases h
    rfl
  | mark | flank | loop | condition | otherwise | fail =>
    rw [act_eq_move rfl] at h ⊢
    obtain ⟨y, hy, rfl⟩ := exists_of_map_eq_ok h
    rw [show (x.embed g r).niche = x.niche.embed g r from rfl, (local_move lab s _).ok hy g r]
    rfl

theorem Stance.run_embed {ds : List (String × Directive)} (h : (x.run lab d c ds).result = .ok out)
    (g r : Forest α) : ((x.embed g r).run lab d c ds).result = .ok (out.embed g r) := by
  induction ds generalizing x with
  | nil =>
    cases h
    rfl
  | cons z ds ih =>
    rw [run, Report.result_bind]
    rcases run_cons_eq_ok h with ⟨f, hz, rfl⟩ | ⟨y, hz, hy⟩
    · rw [show ((x.embed g r).step lab d c z).result = _ from Effect.act_embed hz g r]
      rfl
    · rw [show ((x.embed g r).step lab d c z).result = _ from Effect.act_embed hz g r]
      exact ih hy

theorem Turnout.level_embed {below : Report (Forest α)} {l : Forest α}
    (h : (out.level lab below).result = .ok l) (g : Forest α) :
    ((out.embed g nil).level lab below).result = .ok (g ++ l) := by
  cases out with
  | gone f =>
    cases h
    rw [embed, append_nil]
    rfl
  | kept x =>
    rw [level, Report.result_map] at h
    obtain ⟨c, hc, rfl⟩ := exists_of_map_eq_ok h
    rw [embed, level, Report.result_map, show (x.embed g nil).content = x.content from rfl, hc]
    have hfill := Niche.fill_embed g nil (tree x.label c) x.niche
    rw [append_nil] at hfill
    exact congrArg Except.ok hfill

namespace Registry

variable {r : Registry}

theorem sweep_cons {left c rest : Forest Kind} {k : Kind} :
    r.sweep d left (cons k c rest) =
      ((Stance.run .plain d c (r.orderedOf k) ⟨.here left nil, k, none⟩).result.bind fun out =>
        (out.level .plain (r.report .plain d nil c)).result).bind (r.sweep d · rest) := by
  rw [sweep, report, Report.result_bind, Report.result_bind]
  rfl

/-- A forest is swept part by part. -/
theorem sweep_append {left f l : Forest Kind} (hf : r.sweep d left f = .ok l) (g : Forest Kind) :
    r.sweep d left (f ++ g) = r.sweep d l g := by
  induction f generalizing left with
  | nil =>
    cases hf
    rfl
  | cons k c rest _ ih =>
    rw [sweep_cons] at hf
    obtain ⟨l', hl', hf⟩ := exists_of_bind_eq_ok hf
    rw [cons_append, sweep_cons, hl']
    exact ih hf

/-- What comes of a forest that is swept by itself is the same behind other trees. -/
theorem sweep_behind {left f l : Forest Kind} (hf : r.sweep d left f = .ok l) (g : Forest Kind) :
    r.sweep d (g ++ left) f = .ok (g ++ l) := by
  induction f generalizing left with
  | nil =>
    cases hf
    rfl
  | cons k c rest _ ih =>
    rw [sweep_cons] at hf
    obtain ⟨l', hl', hf⟩ := exists_of_bind_eq_ok hf
    obtain ⟨out, hout, hl'⟩ := exists_of_bind_eq_ok hl'
    have hembed := Stance.run_embed hout g nil
    rw [Stance.embed, Niche.embed, Niche.set, Niche.before, Niche.after, append_nil] at hembed
    have hlevel := Turnout.level_embed hl' g
    rw [sweep_cons, hembed, Except.bind, hlevel]
    exact ih hf

end Registry

end Embed

/-! ## How much is put behind an element -/

namespace Stance

variable {lab : Labelling α} {s : Site} {d : Dialect} {c : Forest α} {x y : Stance α} {n : Nat}

/-- At most `n` nodes have been put behind an element and below it, and no elements. -/
def Tidy (lab : Labelling α) (n : Nat) (x : Stance α) : Prop :=
  ∃ m, (x.niche.map lab.kind).Tidy m ∧ m + x.content.toList.length ≤ n

theorem Tidy.act {e : Effect} (hx : x.Tidy lab n) (h : e.act lab s x = .ok (.kept y)) :
    y.Tidy lab (n + 1) := by
  obtain ⟨m, hm, hle⟩ := hx
  rcases kept_act h with ⟨z, hz, rfl⟩ | ⟨p, rfl⟩ | ⟨f, rfl⟩
  · have hplain : lab.Maps .plain lab.kind fun _ => Tree.root :=
      ⟨fun _ => rfl, fun _ => rfl, lab.kind_alter, lab.kind_make⟩
    have hmove := Effect.move_map hplain (s := s) rfl rfl e x.niche
    rw [hz] at hmove
    refine ⟨m + 1, hm.grows (e.grows_move s hmove), ?_⟩
    dsimp only
    omega
  · refine ⟨m, hm, ?_⟩
    simp only [Option.toList_some, List.length_singleton]
    omega
  · exact ⟨m, hm, Nat.le_succ_of_le hle⟩

theorem Tidy.run {ds : List (String × Directive)} (hx : x.Tidy lab n)
    (h : (x.run lab d c ds).result = .ok (.kept y)) : y.Tidy lab (n + ds.length) := by
  induction ds generalizing x n with
  | nil =>
    cases h
    exact hx
  | cons z ds ih =>
    rcases run_cons_eq_ok h with ⟨f, -, hout⟩ | ⟨w, hz, hw⟩
    · cases hout
    · have htidy : w.Tidy lab (n + 1) := Tidy.act (x := x.mapLabel lab _) hx hz
      have := ih htidy hw
      rwa [List.length_cons, Nat.add_comm ds.length 1, ← Nat.add_assoc]

theorem kind_step {p : Kind → Bool} (hp : ∀ k f, p (Kind.mapElement f k) = p k) {z : String × Directive}
    (h : (x.step lab d c z).result = .ok (.kept y)) : p (lab.kind y.label) = p (lab.kind x.label) := by
  have hmap (f : Element → Element) (x : Stance α) :
      p (lab.kind (x.mapLabel lab f).label) = p (lab.kind x.label) := by
    rw [mapLabel, lab.kind_alter, hp]
  rcases kept_act h with ⟨z, -, rfl⟩ | ⟨q, rfl⟩ | ⟨f, rfl⟩
  · exact hmap _ _
  · exact hmap _ _
  · exact (hmap _ _).trans (hmap _ _)

/-- Directives change nothing about an element that does not depend on its attributes. -/
theorem kind_run {p : Kind → Bool} (hp : ∀ k f, p (Kind.mapElement f k) = p k)
    {ds : List (String × Directive)} (h : (x.run lab d c ds).result = .ok (.kept y)) :
    p (lab.kind y.label) = p (lab.kind x.label) := by
  induction ds generalizing x with
  | nil =>
    cases h
    rfl
  | cons z ds ih =>
    rcases run_cons_eq_ok h with ⟨f, -, hout⟩ | ⟨w, hz, hw⟩
    · cases hout
    · rw [ih hw, kind_step hp hz]

end Stance

end HtmlTemplate
