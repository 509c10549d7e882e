import HtmlTemplate.Proofs.Directive.Standing

/-! # What becomes of an element

A directive keeps its element with all below it, keeps the element and clears what is below, or
removes it (`fate`). What the directives of an element do together (`fateOf`) does not depend on their
order (`post_runAt`): the element is removed if one of them removes it, and cleared if one clears it.
-/

namespace HtmlTemplate

open Forest Context HtmlTemplate.Tree

inductive Fate where
  | keeps
  | empties
  | removes
  deriving DecidableEq, Repr

/-- What a directive does to an element with the given tag. -/
def fate (tag : String) : (name : String) → Fate
  | "ignore" | "embed" | "block" | "outerhtml" | "outertext" => .removes
  | "import" | "imports" => if tag ∈ Handler.resourceTags then .removes else .keeps
  | "innerhtml" | "innertext" | "html" | "text" | "tr" | "tn" => .empties
  | _ => .keeps

namespace Fate

/-- What several directives do together. -/
def all (fates : List Fate) : Fate :=
  if removes ∈ fates then removes else if empties ∈ fates then empties else keeps

/-- The tree after a directive has run. -/
def Post (p : Spot) (n : NodeId) (tag : String) (c : Forest Node) (t : Tree) : Fate → Prop
  | keeps => Standing p n tag c t
  | empties => ∃ c', c'.Inert p.bound ∧ Standing p n tag c' t
  | removes => Departed p n t

end Fate

/-- A tree in which the directives of an element may run. -/
structure Ready (p : Spot) (t : Tree) : Prop where
  shaped : t.Shaped
  old : t.Old p.bound
  calm : ∀ k ∈ p.above.head?, k.node.kind.isLoop = false

variable {p : Spot} {n : NodeId} {tag : String} {c : Forest Node} {t : Tree}

theorem Standing.isAttached (h : Standing p n tag c t) (ht : t.Numbered) :
    t.isAttached n = true := by
  obtain ⟨js, ks, l, e, r, loose, next, marked, rfl, -⟩ := h
  exact isAttached_of_mem ht.nodup (by simp [ids_close])

theorem Standing.kind? (h : Standing p n tag c t) (ht : t.Numbered) :
    ∃ e, t.kind? n = some (.element e) ∧ e.tag = tag := by
  obtain ⟨js, ks, l, e, r, loose, next, marked, rfl, htag, -⟩ := h
  exact ⟨e, kind?_at ht.nodup (around_forest ..), htag⟩

theorem Departed.isAttached (h : Departed p n t) (ht : t.Numbered) : t.isAttached n = false := by
  obtain ⟨ks, l, loose, next, marked, rfl, -, -, hn⟩ := h
  exact isAttached_loose ht.nodup hn

namespace Handler

variable {s : Site}

theorem placed_of_standing (h : Standing p s.node tag c t) (ht : t.Shaped) : Placed s t := by
  obtain ⟨e, he, -⟩ := h.kind? ht.numbered
  exact ⟨ht, h.isAttached ht.numbered, _, he, rfl⟩

theorem isResource_of_standing (h : Standing p n tag c t) (ht : t.Numbered) :
    isResource t n = true ↔ tag ∈ resourceTags := by
  obtain ⟨e, he, rfl⟩ := h.kind? ht
  rw [isResource, element?, he]
  exact List.contains_iff_mem

/-! ## The standard directives -/

section Directives

variable (h : Standing p s.node tag c t) (hr : Ready p t)

include h hr

theorem standing_capture (helper : Helper) : Standing p s.node tag c (capture helper s t).tree := by
  have hnum := hr.shaped.numbered
  have hbefore : Standing p s.node tag c (putBefore s (.code (Fragment.statement (call s helper))) t) :=
    standing_putBefore h rfl hnum hr.old.le_next rfl
  refine standing_putAfter hbefore rfl ((hnum.create _).insertBefore _ _) ?_ rfl rfl
  rw [putBefore, next_insertBefore]
  exact Nat.le_trans hr.old.le_next (next_le_create ..)

theorem ready_declareImport : Ready p (declareImport s t) := by
  have hplaced := placed_of_standing h hr.shaped
  have hold := hr.old.follow hr.shaped.numbered (importSteps s t)
  rw [follow_importSteps] at hold
  have hshaped := (sound_importSteps hplaced).2.shaped
  rw [follow_importSteps] at hshaped
  exact ⟨hshaped, hold, hr.calm⟩

/-- Once its import is declared, an element that only refers to the resource is removed. -/
theorem post_resource {gone : Tree → Tree}
    (hgone : ∀ t', Standing p s.node tag c t' → Ready p t' → Departed p s.node (gone t')) :
    (if tag ∈ resourceTags then Fate.removes else .keeps).Post p s.node tag c
      (if isResource (declareImport s t) s.node then gone (declareImport s t)
        else declareImport s t) := by
  have hready := ready_declareImport h hr
  have hstand := standing_declareImport (s := s) h hr.shaped.numbered hr.old.le_next
  have hres := isResource_of_standing hstand hready.shaped.numbered
  by_cases htag : tag ∈ resourceTags
  · rw [if_pos htag, if_pos (hres.2 htag)]
    exact hgone _ hstand hready
  · rw [if_neg htag, if_neg fun h => htag (hres.1 h)]
    exact hstand

theorem post_extend (herror : (extend s t).error = none) :
    Standing p s.node tag c (extend s t).tree := by
  cases hv : s.parameter with
  | none =>
    rw [extend, hv] at herror
    cases herror
  | some v =>
    rw [extend, hv]
    exact standing_putBefore h rfl hr.shaped.numbered hr.old.le_next rfl

theorem departed_outer {kind : Kind} (hk : kind.isConditional = false)
    (he : kind.isElement = false) : Departed p s.node (putInstead s kind t) :=
  departed_putInstead h rfl hr.shaped.numbered hr.old.le_next hk he

theorem standing_inner {kind : Kind} (hk : kind.isConditional = false)
    (he : kind.isElement = false) :
    ∃ c', c'.Inert p.bound ∧ Standing p s.node tag c' (putBelow s kind t) :=
  ⟨_, inert_tree hr.old.le_next he, standing_putBelow h rfl hr.shaped.numbered hk⟩

end Directives

theorem markup_kind (s : Site) : (markup s).isConditional = false ∧ (markup s).isElement = false := by
  unfold markup
  split <;> exact ⟨rfl, rfl⟩

theorem plainText_kind (s : Site) :
    (plainText s).isConditional = false ∧ (plainText s).isElement = false := by
  unfold plainText
  split <;> exact ⟨rfl, rfl⟩

theorem tag_hrefChange (s : Site) (e : Element) : (hrefChange s e).tag = e.tag := by
  unfold hrefChange
  cases e.has "class" <;> rfl

theorem tag_assetChange (s : Site) (e : Element) : (assetChange s e).tag = e.tag := by
  unfold assetChange
  cases s.parameter <|> e.get? (resourceAttribute e) <;> rfl

theorem post_standard : ∀ d ∈ Registry.standardDirectives, ∀ {p : Spot} {tag : String} {c : Forest Node}
    {s : Site} {t : Tree}, Standing p s.node tag c t → Ready p t → (d.run s t).error = none →
      (fate tag d.name).Post p s.node tag c (d.run s t).tree := by
  have hdetach : ∀ {p : Spot} {tag : String} {c : Forest Node} {s : Site} {t : Tree},
      Standing p s.node tag c t → Ready p t → Departed p s.node (t.detach s.node) :=
    fun h hr => departed_detach h rfl hr.shaped.numbered
  intro d hd p tag c s t h hr he
  have hchange {f : Element → Element} (hf : ∀ e, (f e).tag = e.tag) :
      Standing p s.node tag c (t.mapElement s.node f) := standing_mapElement h hr.shaped.numbered hf
  have hbefore {kind : Kind} (hk : kind.isConditional = false) :
      Standing p s.node tag c (putBefore s kind t) :=
    standing_putBefore h rfl hr.shaped.numbered hr.old.le_next hk
  cases d, hd using Registry.standard_cases with
  | ignore => exact hdetach h hr
  | main => exact standing_mark h _
  | extend => exact post_extend h hr he
  | layout | nolayout => exact hbefore rfl
  | «import» => exact post_resource h hr fun _ => hdetach
  | imports => exact post_resource h hr fun _ h' hr' => departed_outer h' hr' rfl rfl
  | foreach => exact standing_loop h rfl hr.shaped.numbered hr.old.le_next he
  | «if» => exact standing_condition h rfl hr.shaped hr.old hr.calm he
  | «else» => exact standing_join h hr.shaped hr.old hr.calm he
  | assign | append | prepend => exact standing_capture h hr _
  | embed | block => exact departed_outer h hr rfl rfl
  | outerhtml => exact departed_outer h hr (markup_kind _).1 (markup_kind _).2
  | outertext => exact departed_outer h hr (plainText_kind _).1 (plainText_kind _).2
  | innerhtml | html => exact standing_inner h hr (markup_kind _).1 (markup_kind _).2
  | innertext | text => exact standing_inner h hr (plainText_kind _).1 (plainText_kind _).2
  | tr | tn => exact standing_inner h hr rfl rfl
  | datetime | src | «class» => exact hchange fun _ => rfl
  | file => exact hchange (tag_assetChange _)
  | href => exact hchange (tag_hrefChange _)

end Handler

/-! ## All directives of an element -/

theorem Ready.follow (hr : Ready p t) {steps : List Step} (h : t.Sound steps) :
    Ready p (t.follow steps) :=
  ⟨hr.shaped.follow h, hr.old.follow hr.shaped.numbered steps, hr.calm⟩

theorem Fate.Post.all_empties {fates : List Fate} {c' : Forest Node} (hc' : c'.Inert p.bound)
    (h : (Fate.all fates).Post p n tag c' t) : (Fate.all (.empties :: fates)).Post p n tag c t := by
  by_cases hremoves : Fate.removes ∈ fates
  · have hall : Fate.all (.empties :: fates) = Fate.all fates := by
      simp [Fate.all, hremoves]
    rw [hall]
    rw [Fate.all, if_pos hremoves] at h ⊢
    exact h
  · have hall : Fate.all (.empties :: fates) = .empties := by
      simp [Fate.all, hremoves]
    rw [hall]
    rw [Fate.all, if_neg hremoves] at h
    split at h
    · exact h
    · exact ⟨c', hc', h⟩

namespace Registry

theorem runAt_gone {d : Dialect} {ds : List (String × Directive)} (h : t.isAttached n = false) :
    runAt d n ds t = ⟨t, [], none⟩ := by
  cases ds with
  | nil => rfl
  | cons x ds =>
    obtain ⟨attr, directive⟩ := x
    rw [runAt, h]
    rfl

/-- The first of several directives runs on an attached element, and then the others do. -/
theorem runAt_cons {d : Dialect} {attr : String} {x : Directive} {ds : List (String × Directive)}
    (hatt : t.isAttached n = true)
    (herror : (runAt d n ((attr, x) :: ds) t).error = none) :
    let out := x.run ⟨d, n, parameter? (t.attribute? n attr)⟩ (t.eraseAttribute n attr)
    out.error = none ∧ (runAt d n ds out.tree).error = none ∧
      (runAt d n ((attr, x) :: ds) t).tree = (runAt d n ds out.tree).tree := by
  intro out
  rw [runAt, if_pos hatt] at herror ⊢
  cases herr : out.error with
  | some e =>
    simp only [out] at herr
    simp only [herr] at herror
    cases herror
  | none =>
    simp only [out] at herr
    simp only [herr] at herror ⊢
    exact ⟨trivial, herror, rfl⟩

theorem standing_eraseAttribute (h : Standing p n tag c t) (hr : Ready p t) (attr : String) :
    Standing p n tag c (t.eraseAttribute n attr) ∧ Ready p (t.eraseAttribute n attr) := by
  have hsound : t.Sound [.element n (·.erase attr)] := ⟨trivial, trivial⟩
  exact ⟨Handler.standing_mapElement h hr.shaped.numbered fun _ => rfl, hr.follow hsound⟩

theorem ready_run {x : Directive} (hx : x.IsStandard) {s : Site} (h : Standing p s.node tag c t)
    (hr : Ready p t) : Ready p (x.run s t).tree := by
  rw [Handler.run_eq_follow hx]
  exact hr.follow (Handler.sound_script hx (Handler.placed_of_standing h hr.shaped))

/-- A standard directive that does not fail does to its element what `fate` says. -/
theorem post_run {x : Directive} (hx : x.IsStandard) {s : Site} (h : Standing p s.node tag c t)
    (hr : Ready p t) (herror : (x.run s t).error = none) :
    (fate tag x.name).Post p s.node tag c (x.run s t).tree := by
  obtain ⟨x₀, hx₀, hname, hrun⟩ := hx
  rw [hrun] at herror ⊢
  rw [hname]
  exact Handler.post_standard x₀ hx₀ h hr herror

/-- Directives that do not fail do to their element what they do together, in whatever order. -/
theorem post_runAt {d : Dialect} {ds : List (String × Directive)} (hds : ∀ x ∈ ds, x.2.IsStandard)
    (h : Standing p n tag c t) (hr : Ready p t) (herror : (runAt d n ds t).error = none) :
    (Fate.all (ds.map fun x => fate tag x.2.name)).Post p n tag c (runAt d n ds t).tree ∧
      Ready p (runAt d n ds t).tree := by
  induction ds generalizing c t with
  | nil => exact ⟨h, hr⟩
  | cons x ds ih =>
    obtain ⟨attr, directive⟩ := x
    rw [List.forall_mem_cons] at hds
    rw [runAt, if_pos (h.isAttached hr.shaped.numbered)] at herror ⊢
    have herase := standing_eraseAttribute h hr attr
    cases he : (directive.run ⟨d, n, parameter? (t.attribute? n attr)⟩
        (t.eraseAttribute n attr)).error with
    | some e =>
      simp only [he] at herror
      cases herror
    | none =>
      simp only [he] at herror ⊢
      have hpost := post_run (s := ⟨d, n, parameter? (t.attribute? n attr)⟩) hds.1 herase.1 herase.2 he
      have hready := ready_run (s := ⟨d, n, parameter? (t.attribute? n attr)⟩) hds.1 herase.1 herase.2
      rw [List.map_cons]
      cases hfate : fate tag directive.name with
      | keeps =>
        rw [hfate] at hpost
        have hall : ∀ fates, Fate.all (.keeps :: fates) = Fate.all fates := fun fates => by
          simp [Fate.all]
        rw [hall]
        exact ih hds.2 hpost hready herror
      | empties =>
        rw [hfate] at hpost
        obtain ⟨c', hc', hstand⟩ := hpost
        obtain ⟨hpost', hready'⟩ := ih hds.2 hstand hready herror
        exact ⟨hpost'.all_empties hc', hready'⟩
      | removes =>
        rw [hfate] at hpost
        rw [runAt_gone (Departed.isAttached hpost hready.shaped.numbered), Fate.all,
          if_pos List.mem_cons_self]
        exact ⟨hpost, hready⟩

/-- What the directives of a node do to it. -/
def fateOf (r : Registry) : Kind → Fate
  | .element e => Fate.all ((r.ordered e).map fun x => fate e.tag x.2.name)
  | _ => .keeps

theorem fateOf_of_not_element (r : Registry) {k : Kind} (h : k.isElement = false) :
    r.fateOf k = .keeps := by
  cases k with
  | element e => cases h
  | document | text _ | code _ | conditional _ | branch | loop _ => rfl

end Registry

end HtmlTemplate
