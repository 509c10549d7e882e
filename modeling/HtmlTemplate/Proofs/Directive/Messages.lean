import HtmlTemplate.Compiler
import HtmlTemplate.Dialect.Php
import HtmlTemplate.Proofs.Chunk.Hoisted
import HtmlTemplate.Proofs.Directive.Effect
import HtmlTemplate.Proofs.Directive.Reach
import HtmlTemplate.Proofs.Directive.Trace

/-! # What translations are given

A translation makes a literal of the markup of each child that is neither text nor code. In every scene of a
pass, what is below the element is what was read, if it is not a leaf that another directive has put there
(`Scene.Fresh`, `fresh_scenes`). So the literals hold the code that stands in the source, and none that the
pass has made.
-/

namespace HtmlTemplate

open Forest

/-! ## What stands below the element of a scene -/

/-- Node `n` has `c` below it in `f`, or `c` is a leaf that was put below it. -/
def Forest.Offers (f : Forest Node) (n : NodeId) (c : Forest Node) : Prop :=
  (∃ k, f.find? n = some (k, c)) ∨ ∃ a : Node, a.kind.isLeaf = true ∧ c = tree a nil

/-- Below the node of a scene is what was there in `f`, or a leaf that was put there. -/
def Scene.Fresh (f : Forest Node) (x : Scene) : Prop :=
  x.tree.Numbered ∧ ∃ k c, x.tree.find? x.call.node = some (k, c) ∧ f.Offers x.call.node c

namespace Handler

variable {p : Spot} {tag : String} {c : Forest Node} {s : Site} {t : Tree}

/-- A directive that empties its element puts a leaf below it. -/
theorem run_of_empties : ∀ x ∈ Registry.standardDirectives, fate tag x.name = .empties →
    ∃ k : Kind, k.isLeaf = true ∧ (x.run s t).tree = putBelow s k t := by
  have hresource : (if tag ∈ resourceTags then Fate.removes else .keeps) ≠ .empties := by
    split <;> exact fun h => Fate.noConfusion h
  intro x hx hfate
  cases x, hx using Registry.standard_cases with
  | «import» | imports => exact absurd hfate hresource
  | innerhtml | html => exact ⟨_, isLeaf_markup s, rfl⟩
  | innertext | text => exact ⟨_, isLeaf_plainText s, rfl⟩
  | tr | tn => exact ⟨.code _, rfl, rfl⟩
  -- the fate of every other directive is another one, whatever the tag
  | _ => exact Fate.noConfusion hfate

theorem standing_of_empties {x : Directive} (hx : x.IsStandard) (h : Standing p s.node tag c t)
    (ht : t.Numbered) (hfate : fate tag x.name = .empties) :
    ∃ a : Node, a.kind.isLeaf = true ∧ Standing p s.node tag (tree a nil) (x.run s t).tree := by
  obtain ⟨x₀, hx₀, hname, hrun⟩ := hx
  obtain ⟨k, hk, htree⟩ := run_of_empties (s := s) (t := t) x₀ hx₀ (hname ▸ hfate)
  have hconditional : k.isConditional = false := Leaf.isConditional ⟨k, hk⟩
  rw [hrun, htree]
  exact ⟨⟨t.next, k⟩, hk, standing_putBelow h rfl ht hconditional⟩

end Handler

section At

variable {p : Spot} {n : NodeId} {tag : String} {c f : Forest Node} {t : Tree}

theorem Standing.find? (h : Standing p n tag c t) (ht : t.Numbered) :
    ∃ e, t.find? n = some (.element e, c) := by
  obtain ⟨js, ks, l, e, r, loose, next, marked, rfl, -⟩ := h
  exact ⟨e, Tree.find?_at ht.nodup (Tree.around_forest ..)⟩

/-- Whatever the directives of an element do around it and to its attributes, what is below it stays until
one of them puts a leaf there. -/
theorem Registry.fresh_scenesAt {d : Dialect} {ds : List (String × Directive)}
    (hds : ∀ x ∈ ds, x.2.IsStandard) (h : Standing p n tag c t) (hr : Ready p t) (hc : f.Offers n c) :
    ∀ x ∈ scenesAt d n ds t, x.Fresh f := by
  induction ds generalizing c t with
  | nil => exact List.forall_mem_nil _
  | cons x ds ih =>
    obtain ⟨attr, directive⟩ := x
    rw [List.forall_mem_cons] at hds
    obtain ⟨hgiven, hready⟩ := standing_eraseAttribute h hr attr
    obtain ⟨e, hfind⟩ := hgiven.find? hready.shaped.numbered
    rw [scenesAt, if_pos (h.isAttached hr.shaped.numbered), List.forall_mem_cons]
    refine ⟨⟨hready.shaped.numbered, _, c, hfind, hc⟩, ?_⟩
    cases herror : (directive.run ⟨d, n, parameter? (t.attribute? n attr)⟩
        (t.eraseAttribute n attr)).error with
    | some e => exact List.forall_mem_nil _
    | none =>
      have hafter := ready_run (s := ⟨d, n, parameter? (t.attribute? n attr)⟩) hds.1 hgiven hready
      have hpost := post_run (s := ⟨d, n, parameter? (t.attribute? n attr)⟩) hds.1 hgiven hready herror
      cases hfate : fate tag directive.name with
      | keeps =>
        rw [hfate] at hpost
        exact ih hds.2 hpost hafter hc
      | empties =>
        obtain ⟨a, ha, hstand⟩ := Handler.standing_of_empties
          (s := ⟨d, n, parameter? (t.attribute? n attr)⟩) hds.1 hgiven hready.shaped.numbered hfate
        exact ih hds.2 hstand hafter (Or.inr ⟨a, ha, rfl⟩)
      | removes =>
        rw [hfate] at hpost
        cases ds with
        | nil => exact List.forall_mem_nil _
        | cons y ds =>
          rw [scenesAt, if_neg (Bool.eq_false_iff.1 (Departed.isAttached hpost hafter.shaped.numbered))]
          exact List.forall_mem_nil _

end At

/-! ## The elements ahead of a pass -/

/-- The elements of `g` are in `f` as well, with the same below them. -/
def Forest.Keeps (f g : Forest Node) : Prop :=
  ∀ n e c, g.find? n = some (.element e, c) → f.find? n = some (.element e, c)

section Ahead

variable {bound : NodeId} {behind behind' : List NodeId} {a : Node} {c f g h ahead : Forest Node}

theorem Forest.Keeps.append (hg : f.Keeps g) (hh : f.Keeps h) : f.Keeps (g ++ h) := by
  intro n e c hfind
  rw [find?_append] at hfind
  cases hfirst : g.find? n with
  | some x =>
    rw [hfirst] at hfind
    exact hg n e c (hfirst.trans hfind)
  | none =>
    rw [hfirst] at hfind
    exact hh n e c hfind

theorem Forest.Inert.keeps (hg : g.Inert bound) : f.Keeps g := by
  intro n e c hfind
  induction g with
  | nil => cases hfind
  | cons a c' r _ ih =>
    obtain ⟨-, hkind, rfl, hr⟩ := hg
    rw [find?] at hfind
    split at hfind
    · have ha : a.kind = .element e := congrArg Prod.fst (Option.some.inj hfind)
      rw [ha] at hkind
      cases hkind
    · exact ih hr hfind

/-- A visit takes no element to the trees ahead that was not there, and changes none. -/
theorem Turn.keeps (hturn : Turn bound a c g behind behind' ahead) (hnodup : (cons a c g).ids.Nodup)
    (hkeeps : f.Keeps (cons a c g)) : f.Keeps ahead := by
  have hrest : f.Keeps g := fun n e c hfind => hkeeps n e c (find?_rest hnodup hfind)
  cases hturn with
  | passed hc hmade =>
    refine Keeps.append ?_ (hmade.keeps.append hrest)
    rcases hc with rfl | hc
    · exact fun n e c hfind => hkeeps n e c (find?_child hnodup hfind)
    · exact hc.keeps
  | lost => exact hrest

/-- In all scenes of a pass, the element has below it what it had at the start, if no leaf was put there. -/
theorem Reached.fresh_scenes {r : Registry} (hr : ∀ x ∈ r.directives, x.IsStandard) {d : Dialect} {t : Tree}
    (hreached : Reached bound behind ahead t) (hkeeps : f.Keeps ahead) (visits : Nat) :
    ∀ x ∈ r.scenesFrom d visits ahead.front? t, x.Fresh f := by
  induction visits generalizing behind ahead t with
  | zero => cases ahead <;> exact List.forall_mem_nil _
  | succ visits ih =>
    cases ahead with
    | nil => exact List.forall_mem_nil _
    | cons a c g =>
      have hfront : (cons a c g).front? = some a.id := rfl
      rw [hfront, Registry.scenesFrom, List.forall_mem_append]
      constructor
      · cases hk : a.kind.isElement with
        | false =>
          have hnone : r.orderedAt t a.id = [] := by
            rw [Registry.orderedAt, Tree.element?, hreached.kind?, Option.bind_some, Kind.element?_eq_none hk]
          rw [hnone]
          exact List.forall_mem_nil _
        | true =>
          obtain ⟨e, he⟩ := Kind.exists_element hk
          obtain ⟨ks, l, g', loose, next, marked, ht, hshaped, hold, hcalm, -, -, hbehind⟩ :=
            hreached.exists_place
          obtain ⟨hstand, hready⟩ := standing_place ht hshaped hold hcalm hbehind he
          refine Registry.fresh_scenesAt (Registry.isStandard_orderedAt hr t a.id) hstand hready
            (Or.inl ⟨.element e, hkeeps a.id e c ?_⟩)
          rw [find?, if_pos rfl, he]
      · cases herror : (Registry.runAt d a.id (r.orderedAt t a.id) t).error with
        | some e => exact List.forall_mem_nil _
        | none =>
          obtain ⟨behind', ahead', hcourse, hnext, hresume, -⟩ := hreached.step hr herror
          simp only [hresume]
          exact ih hnext (hcourse.turn.keeps hreached.nodup hkeeps)

end Ahead

/-! ## Code in markup -/

section Markup

variable {d : Dialect} {f : Forest Kind}

theorem filter_isCode_chunks {k : Kind} {c : Forest Kind} (hk : k.isElement = true ∨ k.isLeaf = true)
    (hwrites : k.Writes c.roots) :
    (k.chunks d (c.blocks d)).filter Chunk.isCode =
      (k.held ++ k.own) ++ (Block.sequence (c.blocks d)).filter Chunk.isCode := by
  cases k with
  | text s =>
    rw [eq_nil_of_roots hwrites]
    rfl
  | code x =>
    rw [eq_nil_of_roots hwrites]
    rfl
  | element e =>
    have hheld : (Kind.element e).held.filter Chunk.isCode = (Kind.element e).held ++ (Kind.element e).own := by
      refine (List.filter_eq_self.2 fun x hx => ?_).trans (List.append_nil _).symm
      obtain ⟨⟨name, value⟩, -, hvalue⟩ := List.mem_filterMap.1 hx
      cases value with
      | text s => cases hvalue
      | code y =>
        cases hvalue
        rfl
    rw [filter_element (fun _ => rfl) hwrites, hheld]
  | document | branch | conditional | loop => simp [Kind.isElement, Kind.isLeaf] at hk

/-- The code in markup is that of its nodes, in document order. -/
theorem filter_isCode_sequence (hf : f.IsMarkup) (hwritten : f.Written) :
    (Block.sequence (f.blocks d)).filter Chunk.isCode = f.preorder.flatMap fun k => k.held ++ k.own := by
  induction f with
  | nil => rfl
  | cons k c r ihc ihr =>
    obtain ⟨hk, hc, hr⟩ := hf
    obtain ⟨hwrites, hwc, hwr⟩ := hwritten
    rw [blocks, Block.sequence, List.flatMap_cons, List.filter_append,
      filter_isCode_chunks (hk.imp_right And.left) hwrites, ihc hc hwc, preorder_cons, List.flatMap_cons,
      List.flatMap_append, List.append_assoc]
    exact congrArg _ (congrArg _ (ihr hr hwr))

/-- All that is read is written again. -/
theorem Markup.written_content (lead : String) (d : Dialect) (source : String) :
    (content lead d source).Written := by
  refine Inherited.content (P := Written) ⟨trivial, fun {tag c r} _ hvoid hc hr => ⟨fun h => ?_, hc, hr⟩,
    fun hr => ⟨rfl, trivial, hr⟩, fun hr => ⟨rfl, trivial, hr⟩, fun h => h.2.2⟩
  rw [hvoid (Element.tag_ofMarkup lead d tag ▸ h)]
  rfl

end Markup

/-! ## Messages -/

/-- What a translation is given for a child: nothing for text, which goes to the message. -/
def Tree.argument? (d : Dialect) (t : Tree) (n : NodeId) : Option String :=
  match t.kind? n with
  | some (.text _) => none
  | _ => some (t.expressionAt d n).code

theorem Tree.argument?_of_find? {d : Dialect} {t : Tree} {n : NodeId} {k : Kind} {c : Forest Node}
    (h : t.find? n = some (k, c)) (hk : ∀ s, k ≠ .text s) :
    t.argument? d n = some (Handler.messageArgument d k c.kinds) := by
  have hkind : t.kind? n = some k := congrArg (Option.map Prod.fst) h
  rw [argument?, hkind]
  cases k with
  | text s => exact absurd rfl (hk s)
  | _ => simp only [expressionAt, hkind, render, kindsAt, h, Handler.messageArgument]

/-- The arguments of a message are those of the children. -/
theorem Handler.arguments_message (d : Dialect) (used : Nat) {t : Tree} {f : Forest Node}
    (hf : f.ids.Nodup) (hfind : ∀ n x, f.find? n = some x → t.find? n = some x) :
    (message d used f.kinds).2 = f.rootIds.filterMap (t.argument? d) := by
  induction f generalizing used with
  | nil => rfl
  | cons a c r _ ih =>
    have hhere : t.find? a.id = some (a.kind, c) := hfind a.id _ (if_pos rfl)
    have hrest (used : Nat) := ih used (nodup_parts hf).2 fun n x h => hfind n x (find?_rest hf h)
    rw [rootIds_cons, List.filterMap_cons, kinds_cons]
    cases hk : a.kind with
    | text s =>
      have hnone : t.argument? d a.id = none := by
        rw [Tree.argument?, Tree.kind?, hhere, hk]
        rfl
      rw [hnone]
      exact hrest used
    | _ =>
      rw [hk] at hhere
      rw [Tree.argument?_of_find? hhere fun _ h => Kind.noConfusion h]
      exact congrArg _ (hrest (used + 1))

/-! ## Documents that were read -/

namespace Tree

variable {f : Forest Kind} {n : NodeId} {k : Kind} {c : Forest Node}

theorem find?_ofContent (hf : f.IsMarkup) (h : (f.numberFrom 1).1.find? n = some (k, c)) :
    (ofContent f).find? n = some (k, c) := by
  have hroot : (ofContent f).forest.find? root = some (.document, (f.numberFrom 1).1) := rfl
  exact find?_of_find? (shaped_ofContent hf).numbered.nodup hroot h

/-- The code in the markup of a node that was read is what it holds and what the nodes below it hold. -/
theorem filter_isCode_ofContent (d : Dialect) (hf : f.IsMarkup) (hwritten : f.Written)
    (h : (f.numberFrom 1).1.find? n = some (k, c)) :
    ((ofContent f).chunks d n).filter Chunk.isCode =
      ((ofContent f).kindsAt n).preorder.flatMap fun k => k.held ++ k.own := by
  obtain ⟨r, hmarkup, hwrites⟩ := exists_cons_of_find? (P := fun g => g.kinds.IsMarkup ∧ g.kinds.Written)
    (fun h => ⟨⟨h.1.2.1, h.2.2.1⟩, ⟨h.1.2.2, h.2.2.2⟩⟩) ((kinds_numberFrom 1 f).symm ▸ ⟨hf, hwritten⟩) h
  rw [chunks, kindsAt, find?_ofContent hf h, Forest.chunks, Chunk.filter_join fun _ => rfl]
  exact filter_isCode_sequence ⟨hmarkup.1, hmarkup.2.1, trivial⟩ ⟨hwrites.1, hwrites.2.1, trivial⟩

end Tree

theorem Registry.fresh_scenes {r : Registry} (hr : ∀ x ∈ r.directives, x.IsStandard) (d : Dialect)
    {f : Forest Kind} (hf : f.IsMarkup) : ∀ x ∈ r.scenes d (.ofContent f), x.Fresh (f.numberFrom 1).1 :=
  (reached_ofContent hf).fresh_scenes hr (fun _ _ _ h => h) _

namespace Scene.Fresh

variable {x : Scene} {f : Forest Node}

theorem arguments (h : x.Fresh f) (d : Dialect) :
    (Handler.message d 0 (x.tree.below x.call.node).kinds).2 =
      (x.tree.children x.call.node).filterMap (x.tree.argument? d) := by
  obtain ⟨hnumbered, k, c, hfind, -⟩ := h
  have hbelow : x.tree.below x.call.node = c := by
    rw [Tree.below, hfind]
  obtain ⟨r, hr⟩ := exists_cons_of_find? (P := fun g => g.ids.Nodup) nodup_parts hnumbered.nodup hfind
  rw [Tree.children, hbelow]
  exact Handler.arguments_message d 0 (nodup_parts hr).1 fun m y => find?_of_find? hnumbered.nodup hfind

/-- A child that is no leaf is as it was. -/
theorem child (h : x.Fresh f) (hf : f.ids.Nodup) {m : NodeId} (hm : m ∈ x.tree.children x.call.node)
    (hleaf : (x.tree.kind? m).any Kind.isLeaf = false) :
    ∃ k c, k.isLeaf = false ∧ x.tree.find? m = some (k, c) ∧ f.find? m = some (k, c) := by
  obtain ⟨hnumbered, k, c, hfind, hoffers⟩ := h
  rw [Tree.children, Tree.below, hfind] at hm
  obtain ⟨⟨k', c'⟩, hin⟩ := exists_find? (mem_ids_of_mem_rootIds hm)
  have hthere : x.tree.find? m = some (k', c') := find?_of_find? hnumbered.nodup hfind hin
  rw [Tree.kind?, hthere] at hleaf
  rcases hoffers with ⟨k, hn⟩ | ⟨a, ha, rfl⟩
  · exact ⟨k', c', hleaf, hthere, find?_of_find? hf hn hin⟩
  · obtain rfl := List.mem_singleton.1 hm
    have hself : (Forest.tree a nil).find? a.id = some (a.kind, nil) := if_pos rfl
    obtain ⟨rfl, -⟩ := Prod.mk.inj (Option.some.inj (hself.symm.trans hin))
    exact absurd ha (Bool.eq_false_iff.1 hleaf)

/-- A child that is no leaf becomes a literal of the markup that was read, with the code in it. -/
theorem literal {f : Forest Kind} (h : x.Fresh (f.numberFrom 1).1) (hf : f.IsMarkup) (hwritten : f.Written)
    (d : Dialect) {m : NodeId} (hm : m ∈ x.tree.children x.call.node)
    (hleaf : (x.tree.kind? m).any Kind.isLeaf = false) :
    x.tree.argument? d m = some (Fragment.expression (d.literal (x.tree.render d m))).code ∧
      x.tree.kindsAt m = (Tree.ofContent f).kindsAt m ∧
      (x.tree.chunks d m).filter Chunk.isCode =
        ((Tree.ofContent f).kindsAt m).preorder.flatMap fun k => k.held ++ k.own := by
  have hnodup : (f.numberFrom 1).1.ids.Nodup := by
    rw [ids_numberFrom]
    exact List.nodup_range'
  obtain ⟨k, c, hk, hgiven, hread⟩ := h.child hnodup hm hleaf
  have hkinds : x.tree.kindsAt m = (Tree.ofContent f).kindsAt m := by
    rw [Tree.kindsAt, Tree.kindsAt, hgiven, Tree.find?_ofContent hf hread]
  have hrender : x.tree.render d m = (Forest.tree k c.kinds).render d := by
    rw [Tree.render, Tree.kindsAt, hgiven]
  refine ⟨?_, hkinds, ?_⟩
  · rw [hrender]
    cases k with
    | text | code => cases hk
    | _ => simp only [Tree.argument?_of_find? hgiven fun _ h => Kind.noConfusion h, Handler.messageArgument]
  · rw [Tree.chunks, hkinds]
    exact Tree.filter_isCode_ofContent d hf hwritten hread

end Scene.Fresh

namespace Compiler

/-- Translations are given children as they were read. Whenever one is run, whether the pass ends well or
not, its arguments are those of the children of the element, and each child that is neither text nor code is
a literal of its markup, in which the code is exactly what its nodes held when they were read, in document
order: expressions, values of attributes, and the parameters of directives that have not run. -/
theorem literals_as_read (d d₀ : Dialect) (lead lead₀ source : String) :
    let c := standard d lead
    let t := Markup.parse lead₀ d₀ source
    (c.registry.scenes d t).map Scene.call = (c.transform t).calls ∧
    ∀ x ∈ c.registry.scenes d t, x.call.directive ∈ ["tr", "tn"] →
      (Handler.message d 0 (x.tree.below x.call.node).kinds).2 =
        (x.tree.children x.call.node).filterMap (x.tree.argument? d) ∧
      ∀ m ∈ x.tree.children x.call.node, (x.tree.kind? m).any Kind.isLeaf = false →
        x.tree.argument? d m = some (Fragment.expression (d.literal (x.tree.render d m))).code ∧
        x.tree.kindsAt m = t.kindsAt m ∧
        (x.tree.chunks d m).filter Chunk.isCode =
          (t.kindsAt m).preorder.flatMap fun k => k.held ++ k.own := by
  intro c t
  have hr : ∀ x ∈ c.registry.directives, x.IsStandard := fun x hx => ⟨x, hx, rfl, rfl⟩
  have hf := Markup.isMarkup_content lead₀ d₀ source
  refine ⟨(Registry.plays_run hr d (Markup.shaped_parse lead₀ d₀ source).numbered).2, fun x hx _ => ?_⟩
  have hfresh := Registry.fresh_scenes hr d hf x hx
  exact ⟨hfresh.arguments d,
    fun m hm hleaf => hfresh.literal hf (Markup.written_content lead₀ d₀ source) d hm hleaf⟩

/-- The text of a name and a directive that would replace it, within a paragraph that is translated. -/
theorem literals_as_read_name :
    let c := standard .php "j:"
    let t := Markup.parse "j:" .php "<p j:if=a j:tr>Hi <b j:text=b>\x7b\x7b $x \x7d\x7d</b></p>"
    ∃ x ∈ c.registry.scenes .php t, x.call.directive ∈ ["tr", "tn"] ∧
      ∃ m ∈ x.tree.children x.call.node, (x.tree.kind? m).any Kind.isLeaf = false ∧
        x.tree.argument? .php m =
          some (Fragment.expression (Dialect.php.literal (x.tree.render .php m))).code ∧
        x.tree.kindsAt m = t.kindsAt m ∧
        (x.tree.chunks .php m).filter Chunk.isCode =
          [.code (Fragment.expression "b"), .code (Fragment.expression "$this->h($x)")] := by
  intro c t
  obtain ⟨x, hx, hdirective, m, hm, hleaf, hcodes⟩ : ∃ x ∈ c.registry.scenes .php t,
      x.call.directive ∈ ["tr", "tn"] ∧ ∃ m ∈ x.tree.children x.call.node,
        (x.tree.kind? m).any Kind.isLeaf = false ∧
        ((t.kindsAt m).preorder.flatMap fun k => k.held ++ k.own) =
          [.code (Fragment.expression "b"), .code (Fragment.expression "$this->h($x)")] := by
    decide +kernel
  obtain ⟨hargument, hkinds, hcode⟩ :=
    ((literals_as_read .php .php "j:" "j:" _).2 x hx hdirective).2 m hm hleaf
  exact ⟨x, hx, hdirective, m, hm, hleaf, hargument, hkinds, hcode.trans hcodes⟩

/-- An expression within a child goes to the literal of its markup. -/
theorem translate_freezes_expression :
    let c := standard .php "j:"
    let source := "<p j:tr>Hi <b>\x7b\x7b $x \x7d\x7d</b></p>"
    (∃ x ∈ c.registry.scenes .php (c.parse source), x.call.directive = "tr" ∧
      ∃ m ∈ x.tree.children x.call.node, (x.tree.kind? m).any Kind.isLeaf = false ∧
        x.tree.chunks .php m =
          [.text "<b>", .code (Fragment.expression "$this->h($x)"), .text "</b>"]) ∧
      c.compile source =
        .ok "<p><?php echo $this->tr('Hi %1', '<b><?php echo $this->h($x); ?></b>'); ?></p>" := by
  decide +kernel

end Compiler

end HtmlTemplate
