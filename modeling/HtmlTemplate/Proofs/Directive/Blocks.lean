import HtmlTemplate.Dialect.Php
import HtmlTemplate.Proofs.Directive.Attributes
import HtmlTemplate.Proofs.Directive.Levels
import HtmlTemplate.Proofs.Directive.Reach

/-! # Captured blocks are nested

The statements of a document come from captures, two from each. As long as an element is ahead of the
pass it stands in no block, and with the standard priorities the captures of an element run after
all that may move it. So the blocks stay in order through the whole pass (`bracketed_visit`), and what
is written is nested (`nested_run`).
-/

namespace HtmlTemplate

open Forest Context HtmlTemplate.Tree

/-- The helpers that begin a captured block. -/
def Handler.beginners : List Helper := [.beginBlock, .appendBlock, .prependBlock]

namespace Tree

/-- All statements of a tree come from captures: each made two, one after the other, which begin and
end its block. -/
structure Captured (d : Dialect) (cs : Captures) (t : Tree) : Prop where
  paired : ∀ p ∈ cs, p.2 = p.1 + 1 ∧
    (∃ helper ∈ Handler.beginners, ∃ code,
      t.kind? p.1 = some (.code (Fragment.statement (d.call helper [code])))) ∧
    t.kind? p.2 = some (.code (Fragment.statement (d.call .endBlock [])))
  complete : ∀ x ∈ t.forest.preorder, x.kind.isStatement = true → ∃ p ∈ cs, x.id = p.1 ∨ x.id = p.2
  distinct : (cs.flatMap fun p => [p.1, p.2]).Nodup

variable {d : Dialect} {cs : Captures} {t : Tree} {free : List NodeId} {s : Site}

theorem lt_next_of_kind? (ht : t.Numbered) {n : NodeId} {k : Kind} (h : t.kind? n = some k) :
    n < t.next :=
  ht.bound n (List.mem_map_of_mem ((kind?_eq_some_iff ht.nodup).1 h))

theorem kind?_follow_code (ht : t.Numbered) {n : NodeId} {fragment : Fragment}
    (h : t.kind? n = some (.code fragment)) (steps : List Step) :
    (t.follow steps).kind? n = some (.code fragment) := by
  have hkind : t.IsKind (fun k => decide (k = .code fragment)) n := ⟨_, h, decide_eq_true rfl⟩
  obtain ⟨k, hk, heq⟩ := hkind.follow (fun k f => by cases k <;> rfl) ht steps
  rw [hk, of_decide_eq_true heq]

theorem Captured.lt_next (h : t.Captured d cs) (ht : t.Numbered) :
    ∀ p ∈ cs, p.1 < t.next ∧ p.2 < t.next := by
  intro p hp
  obtain ⟨-, ⟨helper, -, code, hbegin⟩, hend⟩ := h.paired p hp
  exact ⟨lt_next_of_kind? ht hbegin, lt_next_of_kind? ht hend⟩

/-- Steps that make no statements leave the captures as they are. -/
theorem Captured.follow (h : t.Captured d cs) (ht : t.Numbered) {names : List String} {n : NodeId}
    {made : Kind → Prop} (hmade : ∀ k, made k → k.isElement = false ∧ k.isStatement = false)
    (hbranch : made .branch) {steps : List Step} (hsteps : ∀ s ∈ steps, s.Keeps names n made) :
    (t.follow steps).Captured d cs where
  paired p hp := by
    obtain ⟨hnext, ⟨helper, hhelper, code, hbegin⟩, hend⟩ := h.paired p hp
    exact ⟨hnext, ⟨helper, hhelper, code, kind?_follow_code ht hbegin steps⟩,
      kind?_follow_code ht hend steps⟩
  complete x hx hstatement := by
    rcases exists_of_mem_follow ht (fun k hk => (hmade k hk).1) hbranch hsteps hx with
      ⟨y, hy, rfl | ⟨-, -, e, e', -, hxe, -⟩⟩ | ⟨-, hnew⟩
    · exact h.complete x hy hstatement
    · rw [hxe] at hstatement
      cases hstatement
    · rw [(hmade _ hnew).2] at hstatement
      cases hstatement
  distinct := h.distinct

theorem Captured.capture (h : t.Captured s.dialect cs) (hp : Handler.Placed s t) {helper : Helper}
    (hhelper : helper ∈ Handler.beginners) :
    (Handler.capture helper s t).tree.Captured s.dialect (cs ++ [(t.next, t.next + 1)]) := by
  have hnum := hp.shaped.numbered
  have hlt := h.lt_next hnum
  have hfollow : (Handler.capture helper s t).tree = t.follow (Handler.captureSteps helper s t) := rfl
  have hnum' := hnum.follow (Handler.captureSteps helper s t)
  rw [← hfollow] at hnum'
  have hmem : ∀ x, x ∈ (Handler.capture helper s t).tree.forest.preorder ↔
      x = ⟨t.next, .code (Fragment.statement (Handler.call s helper))⟩ ∨
      x = ⟨t.next + 1, .code (Fragment.statement (s.dialect.call .endBlock []))⟩ ∨
      x ∈ t.forest.preorder := by
    intro x
    obtain ⟨ks, l, a, c, r, loose, next, marked, hs, -, rfl⟩ := hp.exists_place
    rw [Handler.capture_around helper hs hnum, around_forest, around_forest,
      (preorder_close_perm _ l _ r).mem_iff, ← tree_append, (preorder_close_perm _ l _ r).mem_iff]
    simp only [tree, preorder_append, preorder_cons, preorder_nil, List.mem_append, List.mem_cons,
      List.not_mem_nil, or_false, List.append_nil]
    tauto
  have hkind {n : NodeId} {k : Kind} (hnew : (⟨n, k⟩ : Node) ∈
      (Handler.capture helper s t).tree.forest.preorder) :
      (Handler.capture helper s t).tree.kind? n = some k := (kind?_eq_some_iff hnum'.nodup).2 hnew
  refine ⟨List.forall_mem_append.2 ⟨fun p hp => ?_, List.forall_mem_singleton.2 ⟨rfl, ?_, ?_⟩⟩, ?_, ?_⟩
  · obtain ⟨hnext, ⟨helper, hhelper, code, hbegin⟩, hend⟩ := h.paired p hp
    rw [hfollow]
    exact ⟨hnext, ⟨helper, hhelper, code, kind?_follow_code hnum hbegin _⟩,
      kind?_follow_code hnum hend _⟩
  · exact ⟨helper, hhelper, s.code, hkind ((hmem _).2 (Or.inl rfl))⟩
  · exact hkind ((hmem _).2 (Or.inr (Or.inl rfl)))
  · intro x hx hstatement
    rcases (hmem x).1 hx with rfl | rfl | hx
    · exact ⟨_, List.mem_append_right _ List.mem_cons_self, Or.inl rfl⟩
    · exact ⟨_, List.mem_append_right _ List.mem_cons_self, Or.inr rfl⟩
    · obtain ⟨p, hp, hx⟩ := h.complete x hx hstatement
      exact ⟨p, List.mem_append_left _ hp, hx⟩
  · rw [List.flatMap_append, List.nodup_append]
    refine ⟨h.distinct, by simp, fun n hn m hm => ?_⟩
    obtain ⟨p, hp, hn⟩ := List.mem_flatMap.1 hn
    have hold : n < t.next := by
      rcases List.mem_pair.1 hn with rfl | rfl
      · exact (hlt p hp).1
      · exact (hlt p hp).2
    rcases List.mem_pair.1 hm with rfl | rfl
    · exact Nat.ne_of_lt hold
    · exact Nat.ne_of_lt (Nat.lt_succ_of_lt hold)

/-- All blocks are in order, and none of the given nodes stands in one. -/
def Bracketed (d : Dialect) (free : List NodeId) (t : Tree) : Prop :=
  (∀ n ∈ free, n < t.next) ∧ ∃ cs, t.Captured d cs ∧ (t.below root).Level free cs

theorem Bracketed.mono {free' : List NodeId} (h : t.Bracketed d free) (hfree : free' ⊆ free) :
    t.Bracketed d free' := by
  obtain ⟨hlt, cs, hcs, hlevel⟩ := h
  exact ⟨fun n hn => hlt n (hfree hn), cs, hcs, hlevel.congr hfree fun _ _ => rfl⟩

end Tree

/-! ## One directive -/

namespace Handler

variable {free : List NodeId} {cs : Captures} {s : Site} {t : Tree}

theorem isPlain_markup (s : Site) : (markup s).isPlain = true := by
  unfold markup
  split <;> rfl

theorem isPlain_plainText (s : Site) : (plainText s).isPlain = true := by
  unfold plainText
  split <;> rfl

theorem level_extend (hp : Placed s t) (h : (t.below root).Level free cs)
    (hfree : ∀ n ∈ free, n < t.next) : ((extend s t).tree.below root).Level free cs := by
  unfold extend
  cases s.parameter with
  | none => exact h
  | some v => exact level_putBefore hp h hfree rfl

theorem level_href (hp : Placed s t) (h : (t.below root).Level free cs) :
    ((href s t).tree.below root).Level free cs :=
  level_mapElement hp h (hrefChange s)

/-- What keeps the blocks in order, whatever they are: a directive of low priority needs its element
to stand in no block. -/
def KeepsLevels (x : Directive) : Prop :=
  ∀ {free : List NodeId} {cs : Captures} {s : Site} {t : Tree}, Placed s t →
    (t.below root).Level free cs → (∀ n ∈ free, n < t.next) → (x.priority < 40 → s.node ∈ free) →
      ((x.run s t).tree.below root).Level free cs

theorem keepsLevels_standard :
    ∀ x ∈ Registry.standardDirectives, x.name ∉ capturing → KeepsLevels x := by
  intro x hx hname free cs s t hp h hlt hmem
  cases x, hx using Registry.standard_cases with
  | ignore => exact level_detach hp h
  | main => exact h
  | extend => exact level_extend hp h hlt
  | layout | nolayout => exact level_putBefore hp h hlt rfl
  | «import» => exact level_resource hp h hlt fun _ hp h _ => level_detach hp h
  | imports => exact level_resource hp h hlt fun _ hp h hlt => level_putInstead hp h hlt rfl
  | foreach => exact level_loop hp h (hmem (by decide))
  | «if» => exact level_condition hp h (hmem (by decide))
  | «else» => exact level_join hp h (hmem (by decide)) _ _
  | assign | append | prepend => exact absurd (by decide) hname
  | embed | block => exact level_putInstead hp h hlt rfl
  | outerhtml => exact level_putInstead hp h hlt (isPlain_markup _)
  | outertext => exact level_putInstead hp h hlt (isPlain_plainText _)
  | innerhtml | html => exact level_putBelow hp h hlt (isPlain_markup _)
  | innertext | text => exact level_putBelow hp h hlt (isPlain_plainText _)
  | tr | tn => exact level_putBelow hp h hlt rfl
  | datetime | src | «class» | file => exact level_mapElement hp h _
  | href => exact level_href hp h

theorem exists_capture : ∀ x ∈ Registry.standardDirectives, x.name ∈ capturing →
    x.priority = 40 ∧ ∃ helper ∈ beginners, x.run = capture helper := by
  intro x hx hname
  cases x, hx using Registry.standard_cases with
  | assign => exact ⟨rfl, .beginBlock, by decide, rfl⟩
  | append => exact ⟨rfl, .appendBlock, by decide, rfl⟩
  | prepend => exact ⟨rfl, .prependBlock, by decide, rfl⟩
  | _ => exact absurd hname (by decide)

theorem bracketed_eraseAttribute (hp : Placed s t) (attr : String)
    (h : t.Bracketed s.dialect free) : (t.eraseAttribute s.node attr).Bracketed s.dialect free := by
  obtain ⟨hlt, cs, hcs, hlevel⟩ := h
  have hkeeps : ∀ step ∈ [Step.element s.node (·.erase attr)], step.Keeps [] s.node (· = .branch) :=
    List.forall_mem_singleton.2 ⟨rfl, fun e name hname => Or.inl (Element.has_erase.1 hname).1⟩
  refine ⟨hlt, cs, ?_, level_mapElement hp hlevel _⟩
  refine hcs.follow hp.shaped.numbered ?_ ?_ hkeeps
  · rintro k rfl
    exact ⟨rfl, rfl⟩
  · rfl

theorem bracketed_run {x : Directive} (hx : x ∈ Registry.standardDirectives) (hname : x.name ∉ capturing)
    (hp : Placed s t) (hmem : x.priority < 40 → s.node ∈ free) (h : t.Bracketed s.dialect free) :
    (x.run s t).tree.Bracketed s.dialect free := by
  obtain ⟨hlt, cs, hcs, hlevel⟩ := h
  have hstandard : x.IsStandard := ⟨x, hx, rfl, rfl⟩
  refine ⟨?_, cs, ?_, keepsLevels_standard x hx hname hp hlevel hlt hmem⟩
  · rw [run_eq_follow hstandard]
    exact fun n hn => Nat.lt_of_lt_of_le (hlt n hn) (next_le_follow t _)
  · rw [run_eq_follow hstandard]
    exact hcs.follow hp.shaped.numbered (fun k hk => ⟨hk.1, Bool.eq_false_iff.2 fun hs => hname (hk.2 hs)⟩)
      ⟨rfl, fun h => by cases h⟩ (keeps_script hstandard s t)

theorem bracketed_capture {helper : Helper} (hhelper : helper ∈ beginners) (hp : Placed s t)
    (h : t.Bracketed s.dialect free) :
    (capture helper s t).tree.Bracketed s.dialect (free.filter (· ≠ s.node)) := by
  obtain ⟨hlt, cs, hcs, hlevel⟩ := h
  refine ⟨fun n hn => ?_, _, hcs.capture hp hhelper,
    level_capture helper hp hlevel (hcs.lt_next hp.shaped.numbered)⟩
  exact Nat.lt_of_lt_of_le (hlt n (List.mem_of_mem_filter hn))
    (next_le_follow t (captureSteps helper s t))

end Handler

namespace Registry

variable {d : Dialect} {n bound : NodeId} {free : List NodeId} {t : Tree}

/-! ## The directives of an element -/

/-- The captures of an element run after all directives that need it to stand in no block. -/
theorem bracketed_runAt {ds : List (String × Directive)} (hds : ∀ x ∈ ds, x.2 ∈ standardDirectives)
    (hsorted : ds.Pairwise fun x y => x.2.priority ≤ y.2.priority) (ht : t.Shaped)
    (hn : t.IsKind Kind.isElement n) (h : t.Bracketed d free)
    (hmem : n ∈ free ∨ ∀ x ∈ ds, 40 ≤ x.2.priority) (herror : (runAt d n ds t).error = none) :
    (runAt d n ds t).tree.Bracketed d (free.filter (· ≠ n)) := by
  induction ds generalizing t free with
  | nil => exact h.mono (List.filter_subset_self free)
  | cons x ds ih =>
    obtain ⟨attr, directive⟩ := x
    rw [List.forall_mem_cons] at hds
    rw [List.pairwise_cons] at hsorted
    cases hatt : t.isAttached n with
    | false =>
      rw [runAt_gone hatt]
      exact h.mono (List.filter_subset_self free)
    | true =>
      obtain ⟨-, hrest, htree⟩ := runAt_cons hatt herror
      rw [htree]
      let s : Site := ⟨d, n, parameter? (t.attribute? n attr)⟩
      have hplaced : Handler.Placed s t := ⟨ht, hatt, hn⟩
      have hplaced' := hplaced.eraseAttribute attr
      have herased := Handler.bracketed_eraseAttribute hplaced attr h
      have hstandard : directive.IsStandard := ⟨directive, hds.1, rfl, rfl⟩
      have hshaped := hplaced'.shaped.follow (Handler.sound_script hstandard hplaced')
      have hn' := hplaced'.element.follow (fun k f => by cases k <;> rfl) hplaced'.shaped.numbered
        (Handler.script directive.name s (t.eraseAttribute n attr))
      rw [← Handler.run_eq_follow hstandard] at hshaped hn'
      by_cases hname : directive.name ∈ Handler.capturing
      · -- From here on the element may stand in a block, and no directive of low priority is left.
        obtain ⟨hpriority, helper, hhelper, hrun⟩ := Handler.exists_capture directive hds.1 hname
        have hcaptured := Handler.bracketed_capture hhelper hplaced' herased
        rw [← hrun] at hcaptured
        have hlate : ∀ y ∈ ds, 40 ≤ y.2.priority := fun y hy => hpriority ▸ hsorted.1 y hy
        have hout := ih hds.2 hsorted.2 hshaped hn' hcaptured (Or.inr hlate) hrest
        exact hout.mono fun m hm => by simpa [s] using hm
      · have hfree : directive.priority < 40 → s.node ∈ free := fun hlow =>
          hmem.resolve_right fun hlate => absurd (hlate _ List.mem_cons_self) (Int.not_le.2 hlow)
        refine ih hds.2 hsorted.2 hshaped hn' ?_ ?_ hrest
        · exact Handler.bracketed_run hds.1 hname hplaced' hfree herased
        · exact hmem.imp_right fun hlate y hy => hlate y (List.mem_cons_of_mem _ hy)

/-! ## The whole pass -/

/-- The elements ahead of the pass stand in no block, and only old nodes are elements. -/
def Clear (d : Dialect) (bound : NodeId) (ahead : Forest Node) (t : Tree) : Prop :=
  t.Bracketed d (older bound ahead.ids) ∧
    ∀ x ∈ t.forest.preorder, x.kind.isElement = true → x.id < bound

theorem clear_step {r : Registry} (hr : ∀ x ∈ r.directives, x ∈ standardDirectives)
    {behind behind' : List NodeId} {a : Node} {c g ahead' : Forest Node}
    (hreached : Reached bound behind (cons a c g) t) (h : Clear d bound (cons a c g) t)
    (herror : (runAt d a.id (r.orderedAt t a.id) t).error = none)
    (hturn : Turn bound a c g behind behind' ahead') :
    Clear d bound ahead' (runAt d a.id (r.orderedAt t a.id) t).tree := by
  have hshaped := hreached.shaped
  have hkind := hreached.kind?
  have hds : ∀ x ∈ r.orderedAt t a.id, x.2 ∈ standardDirectives :=
    fun x hx => hr x.2 (mem_orderedAt r t a.id x hx)
  refine ⟨?_, elements_runAt (fun x hx => ⟨x.2, hds x hx, rfl, rfl⟩) hshaped.numbered h.2⟩
  have hahead : older bound ahead'.ids ⊆ (older bound (cons a c g).ids).filter (· ≠ a.id) := by
    -- The node that was visited has its number alone.
    have hnodup := hreached.nodup
    rw [ids_cons, List.nodup_cons] at hnodup
    intro m hm
    have hm' := hturn.ahead_subset hm
    have hold := List.mem_of_mem_filter hm'
    rw [ids_cons, older, List.filter_filter]
    refine List.mem_filter.2 ⟨List.mem_cons_of_mem _ hold, ?_⟩
    have hne : m ≠ a.id := fun e => hnodup.1 (e ▸ hold)
    have hlt := (List.mem_filter.1 hm').2
    simp [hne, hlt]
  refine Bracketed.mono ?_ hahead
  cases helement : a.kind.isElement with
  | false =>
    have hnone : r.orderedAt t a.id = [] := by
      rw [orderedAt, element?, hkind, Option.bind_some, Kind.element?_eq_none helement]
    rw [hnone]
    exact h.1.mono (List.filter_subset_self _)
  | true =>
    have hold : a.id < bound :=
      h.2 a ((kind?_eq_some_iff hshaped.numbered.nodup).1 hkind) helement
    refine bracketed_runAt hds ?_ hshaped ⟨_, hkind, helement⟩ h.1 (Or.inl ?_) herror
    · unfold orderedAt
      split
      · exact ordered_pairwise r _
      · exact List.Pairwise.nil
    · exact List.mem_filter.2 ⟨List.mem_cons_self, decide_eq_true hold⟩

theorem captured_ofContent (d : Dialect) {f : Forest Kind}
    (hcode : ∀ fragment, Kind.code fragment ∈ f.preorder → fragment.isStatement = false) :
    (ofContent f).Captured d [] := by
  refine ⟨List.forall_mem_nil _, fun x hx hstatement => ?_, List.nodup_nil⟩
  rw [ofContent, tree, preorder_cons, preorder_nil, List.append_nil] at hx
  rcases List.mem_cons.1 hx with rfl | hx
  · cases hstatement
  · have hkind : x.kind ∈ f.preorder := by
      rw [← kinds_numberFrom 1 f, preorder_kinds]
      exact List.mem_map_of_mem hx
    cases hk : x.kind with
    | code fragment =>
      rw [hk] at hkind hstatement
      rw [Kind.isStatement, hcode fragment hkind] at hstatement
      cases hstatement
    | document | text _ | element _ | conditional _ | branch | loop _ =>
      rw [hk] at hstatement
      cases hstatement

theorem bracketed_visit {r : Registry} (hr : ∀ x ∈ r.directives, x ∈ standardDirectives) {f : Forest Kind}
    (hf : f.IsMarkup) (hcode : ∀ fragment, Kind.code fragment ∈ f.preorder → fragment.isStatement = false)
    {visits : Nat}
    (herror : (r.visit d visits ((ofContent f).firstChild? root) (ofContent f)).error = none) :
    let t := (r.visit d visits ((ofContent f).firstChild? root) (ofContent f)).tree
    t.Shaped ∧ t.Bracketed d [] := by
  have hshaped := shaped_ofContent hf
  have hcaptured := captured_ofContent d hcode
  have hstart : Clear d (ofContent f).next (f.numberFrom 1).1 (ofContent f) := by
    refine ⟨⟨fun n hn => ?_, [], hcaptured, level_of_nil _ _⟩, fun x hx _ => ?_⟩
    · exact of_decide_eq_true (List.mem_filter.1 hn).2
    · exact hshaped.numbered.bound _ (List.mem_map_of_mem hx)
  have hcursor : (ofContent f).firstChild? root = (f.numberFrom 1).1.front? := rfl
  rw [hcursor] at herror ⊢
  obtain ⟨behind, hend, hclear⟩ := (reached_ofContent hf).visit
    (fun x hx => ⟨x, hr x hx, rfl, rfl⟩)
    (P := fun _ ahead t => Clear d (ofContent f).next ahead t)
    (fun hreached h herror hturn _ => clear_step hr hreached h herror hturn) hstart herror
  exact ⟨hend.shaped, hclear.1⟩

theorem nested_run_ofContent {r : Registry} (hr : ∀ x ∈ r.directives, x ∈ standardDirectives)
    {f : Forest Kind} (hf : f.IsMarkup)
    (hcode : ∀ fragment, Kind.code fragment ∈ f.preorder → fragment.isStatement = false)
    (herror : (r.run d (ofContent f)).error = none) :
    ∃ cs, (r.run d (ofContent f)).tree.Captured d cs ∧
      ∀ n ∈ (r.run d (ofContent f)).tree.descendants root,
        Bracket.Nested (((r.run d (ofContent f)).tree.below n).roots.filterMap (Node.sign cs)) ∧
        Chunk.join (((r.run d (ofContent f)).tree.signed d cs n).map Prod.snd) =
          (r.run d (ofContent f)).tree.chunks d n ∧
        ∀ k, (r.run d (ofContent f)).tree.kind? n = some k → k.isLeaf = false →
          Bracket.Nested (((r.run d (ofContent f)).tree.signed d cs n).filterMap Prod.fst) := by
  unfold run at herror ⊢
  generalize r.visitLimit (ofContent f) = visits at herror ⊢
  obtain ⟨hshaped, -, cs, hcs, hlevel⟩ := bracketed_visit hr hf hcode herror
  refine ⟨cs, hcs, fun n hn => ?_⟩
  obtain ⟨hchildren, hwritten⟩ := hshaped.nested_signed (d := d) hlevel hn
  exact ⟨hchildren, join_signed _ n, hwritten⟩

/-- After a pass over the standard directives without an error the statements of the tree are those of
captures. Among the children of each node they are nested; and of the document and each node in it
that is not text or code, what is written is nested with the conditions and loops. -/
theorem nested_run (lead source : String) (d : Dialect) :
    let out := (standard lead).run d (Markup.parse lead d source)
    out.error = none →
      ∃ cs, out.tree.Captured d cs ∧ ∀ n ∈ out.tree.descendants root,
        Bracket.Nested ((out.tree.below n).roots.filterMap (Node.sign cs)) ∧
        Chunk.join ((out.tree.signed d cs n).map Prod.snd) = out.tree.chunks d n ∧
        ∀ k, out.tree.kind? n = some k → k.isLeaf = false →
          Bracket.Nested ((out.tree.signed d cs n).filterMap Prod.fst) :=
  nested_run_ofContent (fun _ hx => hx) (Markup.isMarkup_content lead d source)
    (Markup.expressions_content lead d source)

/-- A block in the branch of a condition. -/
theorem nested_run_branch :
    let out := (standard "j:").run .php (Markup.parse "j:" .php "<br j:if=a j:append=b>")
    out.error = none ∧ out.tree.children 3 = [5, 1, 6] ∧
      ∃ cs, cs ≠ [] ∧ out.tree.Captured .php cs ∧
        Bracket.Nested ((out.tree.below 3).roots.filterMap (Node.sign cs)) ∧
        Bracket.Nested ((out.tree.signed .php cs root).filterMap Prod.fst) := by
  have hout : ((standard "j:").run .php (Markup.parse "j:" .php "<br j:if=a j:append=b>")).tree.forest =
      .tree ⟨0, .document⟩ (.tree ⟨2, .conditional "a"⟩ (.cons ⟨3, .branch⟩
        (.cons ⟨5, .code (Fragment.statement (Dialect.php.call .appendBlock ["b"]))⟩ .nil
          (.cons ⟨1, .element ⟨"br", []⟩⟩ .nil
            (.tree ⟨6, .code (Fragment.statement (Dialect.php.call .endBlock []))⟩ .nil)))
        (.tree ⟨4, .branch⟩ .nil))) := by
    decide +kernel
  have herror : ((standard "j:").run .php (Markup.parse "j:" .php "<br j:if=a j:append=b>")).error =
      none := by
    decide +kernel
  obtain ⟨cs, hcs, hnested⟩ := nested_run "j:" "<br j:if=a j:append=b>" .php herror
  generalize (standard "j:").run .php (Markup.parse "j:" .php "<br j:if=a j:append=b>") = out at *
  have hbegin : (⟨5, .code (Fragment.statement (Dialect.php.call .appendBlock ["b"]))⟩ : Node) ∈
      out.tree.forest.preorder := by
    rw [hout]
    simp [tree]
  obtain ⟨p, hp, -⟩ := hcs.complete _ hbegin rfl
  have hroot : out.tree.kind? root = some .document := by
    rw [kind?, Tree.find?, hout]
    rfl
  have hmem : root ∈ out.tree.descendants root ∧ 3 ∈ out.tree.descendants root := by
    rw [descendants, Tree.find?, hout]
    decide
  refine ⟨herror, ?_, cs, List.ne_nil_of_mem hp, hcs, (hnested 3 hmem.2).1,
    (hnested root hmem.1).2.2 .document hroot rfl⟩
  rw [children, below, Tree.find?, hout]
  rfl

end Registry

end HtmlTemplate
