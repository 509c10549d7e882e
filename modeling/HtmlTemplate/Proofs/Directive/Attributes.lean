import HtmlTemplate.Proofs.Directive.Fate
import HtmlTemplate.Proofs.Directive.Trace
import HtmlTemplate.Proofs.Tree.Nodes

/-! # What directives leave on their element

The handlers of the standard directives write four attributes, and make no elements (`keeps_script`).
Whoever the handlers are, if none of them puts a directive on its element, then an element that is
still there when all its directives have run has none left (`carries_runAt`).
-/

namespace HtmlTemplate

open Forest Context HtmlTemplate.Tree

namespace Element

variable {e : Element} {name attr : String}

theorem has_erase : (e.erase name).has attr = true ↔ e.has attr = true ∧ attr ≠ name := by
  simp only [has, erase, List.any_eq_true, List.mem_filter, beq_iff_eq, bne_iff_ne]
  constructor
  · rintro ⟨x, ⟨hx, hne⟩, rfl⟩
    exact ⟨⟨x, hx, rfl⟩, hne⟩
  · rintro ⟨⟨x, hx, rfl⟩, hne⟩
    exact ⟨x, ⟨hx, hne⟩, rfl⟩

theorem eq_of_mem_setIn {value : AttrValue} {l : List (String × AttrValue)} {x : String × AttrValue}
    (hx : x ∈ setIn name value l) : x ∈ l ∨ x = (name, value) := by
  induction l with
  | nil => exact Or.inr (List.mem_singleton.1 hx)
  | cons y l ih =>
    rw [setIn] at hx
    split at hx
    · rcases List.mem_cons.1 hx with rfl | hx
      · exact Or.inr rfl
      · exact Or.inl (List.mem_cons_of_mem y hx)
    · rcases List.mem_cons.1 hx with rfl | hx
      · exact Or.inl List.mem_cons_self
      · exact (ih hx).imp_left (List.mem_cons_of_mem y)

theorem mem_setIn {value : AttrValue} {l : List (String × AttrValue)} {x : String × AttrValue}
    (hx : x ∈ setIn name value l) : x ∈ l ∨ x.1 = name :=
  (eq_of_mem_setIn hx).imp_right (congrArg Prod.fst)

theorem has_set {value : AttrValue} (h : (e.set name value).has attr = true) :
    e.has attr = true ∨ attr = name := by
  simp only [has, List.any_eq_true, beq_iff_eq] at h ⊢
  obtain ⟨x, hx, rfl⟩ := h
  exact (mem_setIn hx).imp_left fun hx => ⟨x, hx, rfl⟩

theorem lookup_cons_eq (name : String) (a : String × AttrValue) (l : List (String × AttrValue)) :
    (a :: l).lookup name = if name = a.1 then some a.2 else l.lookup name := by
  rw [List.lookup_cons]
  by_cases h : name = a.1
  · rw [if_pos h, beq_iff_eq.2 h]
  · rw [if_neg h, beq_eq_false_iff_ne.2 h]

theorem get?_set_self (e : Element) (name : String) (value : AttrValue) :
    (e.set name value).get? name = some value := by
  obtain ⟨tag, l⟩ := e
  unfold get? set
  dsimp only
  induction l with
  | nil => rw [setIn, lookup_cons_eq, if_pos rfl]
  | cons a l ih =>
    rw [setIn]
    split
    · rw [lookup_cons_eq, if_pos rfl]
    · rename_i ha
      rw [lookup_cons_eq, if_neg fun h => ha h.symm, ih]

end Element

namespace Handler

/-- The attributes that the standard directives write. -/
def written : List String := ["datetime", "src", "href", "class"]

/-- The directives that put statements around their element. -/
def capturing : List String := ["assign", "append", "prepend"]

/-- A directive of the given name may make nodes of this kind. -/
def Makes (name : String) (k : Kind) : Prop :=
  k.isElement = false ∧ (k.isStatement = true → name ∈ capturing)

/-! ## Scripts -/

section Scripts

variable {s : Site} {t : Tree} {kind : Kind} {made : Kind → Prop}

theorem keeps_insteadSteps (hk : made kind) :
    ∀ step ∈ insteadSteps s kind t, step.Keeps written s.node made :=
  List.forall_mem_cons.2 ⟨hk, List.forall_mem_singleton.2 trivial⟩

theorem keeps_beforeSteps (hk : made kind) :
    ∀ step ∈ beforeSteps s kind t, step.Keeps written s.node made :=
  List.forall_mem_cons.2 ⟨hk, List.forall_mem_singleton.2 trivial⟩

theorem keeps_afterSteps (hk : made kind) :
    ∀ step ∈ afterSteps s kind t, step.Keeps written s.node made :=
  List.forall_mem_cons.2 ⟨hk, List.forall_mem_singleton.2 trivial⟩

theorem keeps_belowSteps (hk : made kind) :
    ∀ step ∈ belowSteps s kind t, step.Keeps written s.node made :=
  List.forall_mem_cons.2 ⟨hk, List.forall_mem_cons.2 ⟨trivial, List.forall_mem_singleton.2 trivial⟩⟩

theorem keeps_captureSteps (helper : Helper) (hmade : ∀ code, made (.code (Fragment.statement code))) :
    ∀ step ∈ captureSteps helper s t, step.Keeps written s.node made :=
  List.forall_mem_append.2 ⟨keeps_beforeSteps (hmade _), keeps_afterSteps (hmade _)⟩

theorem keeps_resourceSteps {rest : Tree → List Step}
    (hmade : ∀ code, made (.code (Fragment.eager code)))
    (hrest : ∀ t', ∀ step ∈ rest t', step.Keeps written s.node made) :
    ∀ step ∈ resourceSteps rest s t, step.Keeps written s.node made := by
  refine List.forall_mem_append.2 ⟨?_, ?_⟩
  · unfold importSteps
    split
    · exact List.forall_mem_cons.2 ⟨hmade _, List.forall_mem_singleton.2 trivial⟩
    · exact List.forall_mem_nil _
  · split
    · exact hrest _
    · exact List.forall_mem_nil _

theorem keeps_loopSteps (hmade : ∀ code, made (.loop code)) :
    ∀ step ∈ loopSteps s t, step.Keeps written s.node made := by
  unfold loopSteps
  split
  · split
    · exact List.forall_mem_singleton.2 trivial
    · exact List.forall_mem_nil _
  · refine List.forall_mem_append.2 ⟨keeps_insteadSteps (hmade _), ?_⟩
    exact List.forall_mem_singleton.2 trivial

theorem keeps_joinSteps {n : NodeId} (side : Side) (alone : TemplateError) :
    ∀ step ∈ joinSteps side alone n t, step.Keeps written s.node made := by
  unfold joinSteps
  dsimp only
  split
  · exact List.forall_mem_nil _
  · split
    · exact List.forall_mem_nil _
    · exact List.forall_mem_map.2 fun _ _ => trivial

theorem keeps_conditionSteps (hmade : ∀ code, made (.conditional code)) :
    ∀ step ∈ conditionSteps s t, step.Keeps written s.node made := by
  unfold conditionSteps
  split
  · exact keeps_joinSteps _ _
  · refine List.forall_mem_append.2 ⟨keeps_insteadSteps (hmade _), ?_⟩
    split
    · exact List.forall_mem_singleton.2 trivial
    · exact List.forall_mem_nil _

theorem keeps_extend (hmade : ∀ code, made (.code (Fragment.eager code))) :
    ∀ step ∈ script "extend" s t, step.Keeps written s.node made := by
  unfold script
  cases s.parameter with
  | none => exact List.forall_mem_nil _
  | some v => exact keeps_beforeSteps (hmade _)

theorem keeps_element {f : Element → Element}
    (hf : ∀ e attr, (f e).has attr = true → e.has attr = true ∨ attr ∈ written) :
    ∀ step ∈ [Step.element s.node f], step.Keeps written s.node made :=
  List.forall_mem_singleton.2 ⟨rfl, hf⟩

end Scripts

section Changes

variable {e : Element} {attr : String}

theorem has_set_written {name : String} {value : AttrValue} (hname : name ∈ written)
    (h : (e.set name value).has attr = true) : e.has attr = true ∨ attr ∈ written := by
  rcases Element.has_set h with h | rfl
  · exact Or.inl h
  · exact Or.inr hname

theorem resourceAttribute_mem (e : Element) : resourceAttribute e ∈ written := by
  unfold resourceAttribute
  split
  · decide
  · decide

theorem has_assetChange {s : Site} (h : (assetChange s e).has attr = true) :
    e.has attr = true ∨ attr ∈ written := by
  unfold assetChange at h
  split at h
  · exact has_set_written (resourceAttribute_mem e) h
  · exact Or.inl h

theorem has_hrefChange {s : Site} (h : (hrefChange s e).has attr = true) :
    e.has attr = true ∨ attr ∈ written := by
  unfold hrefChange at h
  dsimp only at h
  split at h
  · exact has_set_written (by decide) h
  · rcases has_set_written (by decide) h with h | h
    · exact has_set_written (by decide) h
    · exact Or.inr h

end Changes

theorem makes_markup (name : String) (s : Site) : Makes name (markup s) := by
  refine ⟨(markup_kind s).2, fun h => ?_⟩
  unfold markup at h
  split at h <;> cases h

theorem makes_plainText (name : String) (s : Site) : Makes name (plainText s) := by
  refine ⟨(plainText_kind s).2, fun h => ?_⟩
  unfold plainText at h
  split at h <;> cases h

theorem keeps_standard : ∀ d ∈ Registry.standardDirectives, ∀ (s : Site) (t : Tree),
    ∀ step ∈ script d.name s t, step.Keeps written s.node (Makes d.name) := by
  have hedit : ∀ {n m : NodeId} {made : Kind → Prop},
      ∀ step ∈ [Step.edit (.detach m)], step.Keeps written n made :=
    List.forall_mem_singleton.2 trivial
  have hplain : ∀ {name : String} {k : Kind}, k.isElement = false → k.isStatement = false →
      Makes name k := fun he hk => ⟨he, fun h => absurd h (by rw [hk]; exact Bool.false_ne_true)⟩
  have hset : ∀ {name : String} {value : Element → AttrValue}, name ∈ written → ∀ e attr,
      (Element.set e name (value e)).has attr = true → e.has attr = true ∨ attr ∈ written :=
    fun hname _ _ h => has_set_written hname h
  intro d hd s t
  cases d, hd using Registry.standard_cases with
  | ignore => exact hedit
  | main => exact List.forall_mem_singleton.2 trivial
  | extend => exact keeps_extend fun _ => hplain rfl rfl
  | layout | nolayout => exact keeps_beforeSteps (hplain rfl rfl)
  | «import» => exact keeps_resourceSteps (fun _ => hplain rfl rfl) fun _ => hedit
  | imports => exact keeps_resourceSteps (fun _ => hplain rfl rfl) fun _ => keeps_insteadSteps (hplain rfl rfl)
  | foreach => exact keeps_loopSteps fun _ => hplain rfl rfl
  | «if» => exact keeps_conditionSteps fun _ => hplain rfl rfl
  | «else» => exact keeps_joinSteps _ _
  | assign | append | prepend => exact keeps_captureSteps _ fun _ => ⟨rfl, fun _ => by decide⟩
  | embed | block => exact keeps_insteadSteps (hplain rfl rfl)
  | outerhtml => exact keeps_insteadSteps (makes_markup _ _)
  | outertext => exact keeps_insteadSteps (makes_plainText _ _)
  | innerhtml | html => exact keeps_belowSteps (makes_markup _ _)
  | innertext | text => exact keeps_belowSteps (makes_plainText _ _)
  | tr | tn => exact keeps_belowSteps (hplain rfl rfl)
  | datetime | src | «class» => exact keeps_element (hset (by decide))
  | file => exact keeps_element fun _ _ => has_assetChange
  | href => exact keeps_element fun _ _ => has_hrefChange

theorem keeps_script {d : Directive} (hd : d.IsStandard) (s : Site) (t : Tree) :
    ∀ step ∈ script d.name s t, step.Keeps written s.node (Makes d.name) := by
  obtain ⟨d₀, hd₀, hname, -⟩ := hd
  rw [hname]
  exact keeps_standard d₀ hd₀ s t

end Handler

theorem Step.Keeps.imp {names : List String} {n : NodeId} {made made' : Kind → Prop} {s : Step}
    (h : s.Keeps names n made) (himp : ∀ k, made k → made' k) : s.Keeps names n made' := by
  cases s with
  | element m f => exact h
  | edit e =>
    cases e with
    | create k => exact himp k h
    | append | prepend | insertBefore | insertAfter | replace | detach | clear | mark => exact trivial

namespace Registry

variable {r : Registry} {d : Dialect} {n : NodeId} {t t' : Tree} {ds : List (String × Directive)}
  {names : List String} {attr : String}

theorem keeps_scenesAt (hds : ∀ x ∈ ds, x.2.IsStandard) (t : Tree) :
    ∀ step ∈ (scenesAt d n ds t).flatMap (Scene.steps d),
      step.Keeps Handler.written n fun k => k.isElement = false := by
  intro step hstep
  obtain ⟨x, hx, hown⟩ := List.mem_flatMap.1 hstep
  obtain ⟨rfl, -, -, directive, hmem, hname⟩ := (plays_runAt hds t).1.forall_mem x hx
  rw [Scene.steps, ← hname, List.mem_cons] at hown
  rcases hown with rfl | hscript
  · exact ⟨rfl, fun e attr h => Or.inl (Element.has_erase.1 h).1⟩
  · exact (Handler.keeps_script (hds _ hmem) (x.site d) x.tree step hscript).imp fun _ hmakes => hmakes.1

/-- The nodes there are when the directives of element `n` have run. -/
theorem exists_of_mem_runAt (hds : ∀ x ∈ ds, x.2.IsStandard) (ht : t.Numbered) {x : Node}
    (hx : x ∈ (runAt d n ds t).tree.forest.preorder) :
    (∃ y ∈ t.forest.preorder, Node.Revised Handler.written n y x) ∨
      t.next ≤ x.id ∧ x.kind.isElement = false := by
  rw [runAt_eq_follow d n hds] at hx
  exact exists_of_mem_follow ht (fun _ => id) rfl (keeps_scenesAt hds t) hx

/-- Directives make no elements. -/
theorem elements_runAt (hds : ∀ x ∈ ds, x.2.IsStandard) (ht : t.Numbered) {bound : NodeId}
    (h : ∀ x ∈ t.forest.preorder, x.kind.isElement = true → x.id < bound) :
    ∀ x ∈ (runAt d n ds t).tree.forest.preorder, x.kind.isElement = true → x.id < bound := by
  intro x hx helement
  rcases exists_of_mem_runAt hds ht hx with ⟨y, hy, hrevised⟩ | ⟨-, hkind⟩
  · rw [hrevised.id_eq]
    exact h y hy (hrevised.isElement helement)
  · rw [hkind] at helement
    cases helement

/-! ## Directives are taken off -/

/-- The attributes of `n` that stand for directives are among `names`. -/
def Carries (r : Registry) (n : NodeId) (names : List String) (t : Tree) : Prop :=
  ∀ e, t.element? n = some e → ∀ attr, e.has attr = true → attr ∈ names ∨ r.directive? attr = none

/-- No attribute that stands for a directive was put on `n`. -/
def Spares (r : Registry) (n : NodeId) (t t' : Tree) : Prop :=
  ∀ e', t'.element? n = some e' → ∃ e, t.element? n = some e ∧
    ∀ attr, e'.has attr = true → e.has attr = true ∨ r.directive? attr = none

theorem Carries.spared (h : r.Carries n names t) (hs : r.Spares n t t') : r.Carries n names t' := by
  intro e' he' attr hattr
  obtain ⟨e, he, hadds⟩ := hs e' he'
  exact (hadds attr hattr).elim (h e he attr) Or.inr

theorem element?_mapElement (ht : t.forest.ids.Nodup) (n : NodeId) (f : Element → Element) :
    (t.mapElement n f).element? n = (t.element? n).map f := by
  rw [element?, element?, kind?_mapElement ht, if_pos rfl]
  cases t.kind? n with
  | none => rfl
  | some k => cases k <;> rfl

theorem Carries.erase (h : r.Carries n (attr :: names) t) (ht : t.forest.ids.Nodup) :
    r.Carries n names (t.eraseAttribute n attr) := by
  intro e' he' name hname
  rw [eraseAttribute, element?_mapElement ht, Option.map_eq_some_iff] at he'
  obtain ⟨e, he, rfl⟩ := he'
  obtain ⟨hhas, hne⟩ := Element.has_erase.1 hname
  exact (h e he name hhas).imp_left fun hmem => (List.mem_cons.1 hmem).resolve_left hne

theorem carries_orderedAt (r : Registry) (t : Tree) (n : NodeId) :
    r.Carries n ((r.orderedAt t n).map Prod.fst) t := by
  intro e he attr hattr
  rw [orderedAt, he]
  cases hd : r.directive? attr with
  | none => exact Or.inr rfl
  | some x =>
    refine Or.inl (List.mem_map.2 ⟨(attr, x), (r.ordered_perm e).mem_iff.2 ?_, rfl⟩)
    rw [Element.has, List.any_eq_true] at hattr
    obtain ⟨a, ha, heq⟩ := hattr
    rw [beq_iff_eq] at heq
    exact List.mem_filterMap.2 ⟨a, ha, by rw [heq, hd]; rfl⟩

/-- An element that is still in the document when its directives have run carries none. -/
theorem carries_runAt (ht : t.Numbered) (h : r.Carries n (ds.map Prod.fst) t)
    (hds : ∀ x ∈ ds, ∀ (s : Site) (t : Tree), s.node = n → t.Numbered →
      (x.2.run s t).tree.Numbered ∧ r.Spares n t (x.2.run s t).tree)
    (herror : (runAt d n ds t).error = none)
    (hatt : (runAt d n ds t).tree.isAttached n = true) :
    r.Carries n [] (runAt d n ds t).tree := by
  induction ds generalizing t with
  | nil => exact h
  | cons x ds ih =>
    obtain ⟨attr, directive⟩ := x
    rw [List.forall_mem_cons] at hds
    cases hin : t.isAttached n with
    | false =>
      rw [runAt_gone hin, hin] at hatt
      cases hatt
    | true =>
      obtain ⟨-, hrest, htree⟩ := runAt_cons hin herror
      have hnum := ht.mapElement n (·.erase attr)
      have hout := hds.1 ⟨d, n, parameter? (t.attribute? n attr)⟩ (t.eraseAttribute n attr) rfl hnum
      rw [htree] at hatt ⊢
      exact ih hout.1 ((h.erase ht.nodup).spared hout.2) hds.2 hrest hatt

/-- Steps that write no directive put none on any element. -/
theorem spares_follow (hnames : ∀ attr ∈ names, r.directive? attr = none) {made : Kind → Prop}
    (hmade : ∀ k, made k → k.isElement = false) (hbranch : made .branch) (ht : t.Numbered)
    {steps : List Step} (hsteps : ∀ s ∈ steps, s.Keeps names n made) (m : NodeId) :
    r.Spares m t (t.follow steps) := by
  intro e' he'
  rw [element?, Option.bind_eq_some_iff] at he'
  obtain ⟨k, hk, hke⟩ := he'
  have hmem := (kind?_eq_some_iff (ht.follow steps).nodup).1 hk
  rcases exists_of_mem_follow ht hmade hbranch hsteps hmem with ⟨y, hy, hrevised⟩ | ⟨-, hnew⟩
  · have hid : y.id = m := hrevised.id_eq.symm
    have hykind : t.kind? m = some y.kind := (kind?_eq_some_iff ht.nodup).2 (hid ▸ hy)
    rcases hrevised with heq | ⟨-, -, e, e₁, hye, hxe, hadds⟩
    · refine ⟨e', ?_, fun attr hattr => Or.inl hattr⟩
      rw [element?, hykind, ← heq]
      exact hke
    · dsimp only at hxe
      rw [hxe] at hke
      cases hke
      refine ⟨e, ?_, fun attr hattr => (hadds attr hattr).imp_right (hnames attr)⟩
      rw [element?, hykind, hye]
      rfl
  · rw [Kind.element?_eq_none (hmade k hnew)] at hke
    cases hke

theorem spares_run (hwritten : ∀ attr ∈ Handler.written, r.directive? attr = none) {x : Directive}
    (hx : x.IsStandard) {s : Site} (ht : t.Numbered) : r.Spares s.node t (x.run s t).tree := by
  rw [Handler.run_eq_follow hx]
  exact spares_follow hwritten (fun _ hmakes => hmakes.1) ⟨rfl, fun h => by cases h⟩ ht
    (Handler.keeps_script hx s t) s.node

theorem carries_visited (hwritten : ∀ attr ∈ Handler.written, r.directive? attr = none)
    (hr : ∀ x ∈ r.directives, x.IsStandard) (ht : t.Numbered)
    (herror : (runAt d n (r.orderedAt t n) t).error = none)
    (hatt : (runAt d n (r.orderedAt t n) t).tree.isAttached n = true) :
    r.Carries n [] (runAt d n (r.orderedAt t n) t).tree := by
  refine carries_runAt ht (r.carries_orderedAt t n) ?_ herror hatt
  rintro x hx s t rfl ht
  have hstandard := isStandard_orderedAt hr _ _ x hx
  refine ⟨?_, spares_run hwritten hstandard ht⟩
  rw [Handler.run_eq_follow hstandard]
  exact ht.follow _

end Registry

end HtmlTemplate
