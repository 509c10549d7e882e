import HtmlTemplate.Proofs.Directive.Meaning
import HtmlTemplate.Proofs.Directive.Moves
import HtmlTemplate.Proofs.Directive.Termination
import HtmlTemplate.Proofs.Directive.Walk

/-! # A pass does what its report says

The calls of a pass over a document, its error and the content that it leaves are those of
`Registry.report` (`accords_run`). It is shown of the directives of one element first (`agrees_runAt`),
and then of the walk through a forest, wherever that stands (`traversed`). What directives do away from
their elements is in the margin: imports at the head of the document, and the mark.
-/

namespace HtmlTemplate

open Forest Context HtmlTemplate.Tree

/-! ## Trees at the head of the document -/

namespace Context

/-- Frames with more trees at the head of the outermost. -/
def pushed (p : Forest Node) : Context → Context
  | [] => []
  | [k] => [⟨p ++ k.before, k.node, k.after⟩]
  | k :: k' :: ks => k :: pushed p (k' :: ks)

/-- The trees that there is no frame for. -/
def spill (p : Forest Node) : Context → Forest Node
  | [] => p
  | _ :: _ => nil

theorem close_pushed (p : Forest Node) (ks : Context) (f : Forest Node) :
    close (pushed p ks) (spill p ks ++ f) = p ++ close ks f := by
  induction ks generalizing f with
  | nil => rfl
  | cons k ks ih =>
    cases ks with
    | nil => exact Forest.append_assoc ..
    | cons k' ks => exact ih (k.before ++ cons k.node f k.after)

theorem alike_pushed (p : Forest Node) (ks : Context) : Alike ks (pushed p ks) := by
  induction ks with
  | nil => exact Alike.refl _
  | cons k ks ih =>
    cases ks with
    | nil => exact (Alike.refl []).cons rfl rfl
    | cons k' ks => exact ih.cons rfl rfl

end Context

/-- The document with `p` at its head, and behind that `f` at the place `ks`. -/
def Tree.headed (p : Forest Node) (ks : Context) (f loose : Forest Node) (next : NodeId)
    (marked : Option NodeId) : Tree :=
  around [] (p ++ close ks f) loose next marked

section Headed

variable {p f loose : Forest Node} {ks : Context} {next : NodeId} {marked : Option NodeId}

theorem Tree.headed_eq :
    headed p ks f loose next marked = around (pushed p ks) (spill p ks ++ f) loose next marked := by
  rw [headed, around, around, close_pushed]
  rfl

theorem Tree.headed_fill (y : Niche Node) (r : Forest Node) :
    headed p ks (y.fill f ++ r) loose next marked =
      around (pushed p ks) ((y.embed (spill p ks) r).fill f) loose next marked := by
  rw [headed_eq, Niche.fill_embed]

theorem Tree.headed_inner (y : Niche Node) (a : Node) (b r : Forest Node) :
    headed p ks (y.fill (tree a b) ++ r) loose next marked =
      headed p ((y.embed nil r).inner a ++ ks) b loose next marked := by
  rw [headed, headed, close_append, Niche.inner, close_cons, ← tree_append a b, ← Niche.fill_eq_close,
    Niche.fill_embed]
  rfl

theorem Forest.quiet_spill (hp : p.Quiet Node.kind) (ks : Context) : (spill p ks).Quiet Node.kind := by
  cases ks with
  | nil => exact hp
  | cons k ks => exact List.forall_mem_nil _

end Headed

/-! ## Settled numbers -/

/-- A node by its number, or by that of the document if it is new. -/
def Node.settle (bound : NodeId) (a : Node) : Node :=
  if a.id < bound then a else ⟨Tree.root, a.kind⟩

section Settle

variable {bound : NodeId} {a : Node}

@[simp] theorem Node.kind_settle (bound : NodeId) (a : Node) : (a.settle bound).kind = a.kind := by
  unfold settle
  split <;> rfl

theorem Node.settle_old (h : a.id < bound) : a.settle bound = a := if_pos h

theorem Node.settle_new {n : NodeId} (h : bound ≤ n) (k : Kind) :
    (⟨n, k⟩ : Node).settle bound = ⟨Tree.root, k⟩ :=
  if_neg (Nat.not_lt.2 h)

theorem Labelling.maps_settle {next : NodeId} (h : bound ≤ next) :
    (numbered next).Maps settled (Node.settle bound) fun n => if n < bound then n else Tree.root where
  kind := Node.kind_settle bound
  id a := by
    show (a.settle bound).id = if a.id < bound then a.id else Tree.root
    unfold Node.settle
    split <;> rfl
  alter k a := by
    show (⟨a.id, k⟩ : Node).settle bound = ⟨(a.settle bound).id, k⟩
    unfold Node.settle
    split <;> rfl
  make i k := Node.settle_new (Nat.le_trans h (Nat.le_add_right next i)) k

theorem Forest.kinds_settle (bound : NodeId) (f : Forest Node) :
    (f.map (Node.settle bound)).kinds = f.kinds := by
  induction f with
  | nil => rfl
  | cons a c r ihc ihr => rw [map_cons, kinds_cons, kinds_cons, ihc, ihr, Node.kind_settle]

theorem Niche.kinds_settle (bound : NodeId) (x : Niche Node) :
    (x.map (Node.settle bound)).map Node.kind = x.map Node.kind := by
  induction x with
  | here b a => exact congrArg₂ here (Forest.kinds_settle bound b) (Forest.kinds_settle bound a)
  | inside b o x a ih =>
    rw [map, map, ih, Node.kind_settle]
    exact congrArg₂ (inside · _ _ ·) (Forest.kinds_settle bound b) (Forest.kinds_settle bound a)

/-- Old numbers stay. -/
theorem Forest.map_settle {f : Forest Node} (hf : ∀ a ∈ f.preorder, a.id < bound) :
    f.map (Node.settle bound) = f := by
  induction f with
  | nil => rfl
  | cons a c r ihc ihr =>
    rw [preorder_cons, List.forall_mem_cons, List.forall_mem_append] at hf
    rw [map_cons, ihc hf.2.1, ihr hf.2.2, Node.settle_old hf.1]

end Settle

/-! ## Margins -/

/-- What directives do away from their elements: the imports at the head of the document, the last of
them first, and the node that is marked. -/
structure Margin where
  head : Forest Node
  marked : Option NodeId

namespace Margin

/-- The margin of a document that was read. -/
def blank : Margin := ⟨nil, none⟩

/-- The margin after one more call. -/
def note (d : Dialect) (m : Margin) (c : Call) : Margin :=
  if c.directive ∈ Handler.importNames then
    match c.parameter with
    | some v => { m with head := cons ⟨Tree.root, .code (Fragment.eager
        (d.call .importResource [AttrValue.parameterCode d (some v)]))⟩ nil m.head }
    | none => m
  else if c.directive = "main" then { m with marked := some c.node }
  else m

/-- The margin after more calls. -/
def after (d : Dialect) (m : Margin) (calls : List Call) : Margin :=
  calls.foldl (note d) m

theorem marked_note (d : Dialect) (m : Margin) (c : Call) :
    (m.note d c).marked = if c.directive = "main" then some c.node else m.marked := by
  unfold note
  by_cases himport : c.directive ∈ Handler.importNames
  · have hne : c.directive ≠ "main" := by
      intro h
      rw [h] at himport
      exact absurd himport (by decide)
    rw [if_pos himport, if_neg hne]
    cases c.parameter <;> rfl
  · rw [if_neg himport]
    split <;> rfl

theorem after_append (d : Dialect) (m : Margin) (calls calls' : List Call) :
    m.after d (calls ++ calls') = (m.after d calls).after d calls' :=
  List.foldl_append ..

end Margin

namespace Handler

theorem marks_standard (s : Site) (k : Kind) (content : Forest Kind) (marked : Option NodeId) :
    ∀ x ∈ Registry.standardDirectives, (effect s k content x.name).marks s marked =
      if x.name = "main" then some s.node else marked := by
  have hite {c : Prop} [Decidable c] {e e' : Effect} (he : e.marks s marked = marked)
      (he' : e'.marks s marked = marked) : (if c then e else e').marks s marked = marked := by
    split
    · exact he
    · exact he'
  intro x hx
  cases x, hx using Registry.standard_cases with
  | extend | «import» | imports => exact hite rfl rfl
  | _ => rfl

/-- Of the standard directives, only `main` marks a node. -/
theorem marks_effect {x : Directive} (hx : x.IsStandard) (s : Site) (k : Kind) (content : Forest Kind)
    (marked : Option NodeId) :
    (effect s k content x.name).marks s marked =
      if x.name = "main" then some s.node else marked := by
  obtain ⟨x₀, hx₀, hname, -⟩ := hx
  rw [hname]
  exact marks_standard s k content marked x₀ hx₀

end Handler

/-! ## One directive -/

/-- The trees `p` are at the head of a document as the margin says, and new nodes get new numbers. -/
structure Margin.Fits (bound : NodeId) (m : Margin) (p : Forest Node) (next : NodeId) : Prop where
  le_next : bound ≤ next
  quiet : p.Quiet Node.kind
  settle : p.map (Node.settle bound) = m.head

theorem Margin.Fits.mono {bound next next' : NodeId} {m m' : Margin} {p : Forest Node}
    (h : m.Fits bound p next) (hle : next ≤ next') (hm : m'.head = m.head) : m'.Fits bound p next' :=
  ⟨Nat.le_trans h.le_next hle, h.quiet, h.settle.trans hm.symm⟩

/-- An element that had `c` below it is at the place `ks` ahead of `r`, and stands there as `x` says, in a
document with margin `m`. -/
def Stance.At (bound : NodeId) (m : Margin) (ks : Context) (r c : Forest Node) (t : Tree)
    (x : Stance Node) : Prop :=
  ∃ (p : Forest Node) (y : Niche Node) (b loose : Forest Node) (next : NodeId),
    t = headed p ks (y.fill (tree x.label b) ++ r) loose next m.marked ∧ m.Fits bound p next ∧
      y.map (Node.settle bound) = x.niche ∧ b.map (Node.settle bound) = x.below .settled c ∧
      (x.content = none → b = c)

/-- What has become of an element `n` at the place `ks` ahead of `r`. -/
def Turnout.At (bound : NodeId) (m : Margin) (ks : Context) (r c : Forest Node) (n : NodeId) (t : Tree) :
    Turnout Node → Prop
  | kept x => x.label.id = n ∧ x.At bound m ks r c t
  | gone f => ∃ (p g loose : Forest Node) (next : NodeId),
      t = headed p ks (g ++ r) loose next m.marked ∧ m.Fits bound p next ∧
        g.map (Node.settle bound) = f ∧ n ∈ loose.ids

/-- A tree and an error are what was to come of an element `n`. -/
def Agrees (bound : NodeId) (m : Margin) (ks : Context) (r c : Forest Node) (n : NodeId) (t : Tree)
    (error : Option TemplateError) : Except TemplateError (Turnout Node) → Prop
  | .ok out => error = none ∧ out.At bound m ks r c n t
  | .error e => error = some e

section Element

variable {bound : NodeId} {m : Margin} {ks : Context} {r c : Forest Node} {t : Tree} {s : Site}
  {d : Dialect} {x : Stance Node}

/-- The element as a place in the document. -/
theorem Stance.At.exists_place (h : x.At bound m ks r c t) :
    ∃ (js : Context) (l b g loose : Forest Node) (next : NodeId),
      t = around js (l ++ cons x.label b g) loose next m.marked ∧
        b.kinds = (x.below .settled c).kinds := by
  obtain ⟨p, y, b, loose, next, rfl, -, -, hb, -⟩ := h
  rw [headed_fill, around_fill, tree_append]
  exact ⟨_, _, b, _, loose, next, rfl, by rw [← hb, kinds_settle]⟩

theorem Stance.At.isAttached (h : x.At bound m ks r c t) (ht : t.Numbered) :
    t.isAttached x.label.id = true := by
  obtain ⟨js, l, b, g, loose, next, rfl, -⟩ := h.exists_place
  exact isAttached_of_mem ht.nodup (by simp [ids_close])

theorem Stance.At.kind? (h : x.At bound m ks r c t) (ht : t.Numbered) :
    t.kind? x.label.id = some x.label.kind := by
  obtain ⟨js, l, b, g, loose, next, rfl, -⟩ := h.exists_place
  exact kind?_at ht.nodup (around_forest ..)

theorem Stance.At.kinds_below (h : x.At bound m ks r c t) (ht : t.Numbered) :
    (t.below x.label.id).kinds = (x.below .settled c).kinds := by
  obtain ⟨js, l, b, g, loose, next, rfl, hb⟩ := h.exists_place
  rw [below_at ht.nodup (around_forest ..), hb]

theorem Stance.At.attribute? (h : x.At bound m ks r c t) (ht : t.Numbered) (attr : String) :
    t.attribute? x.label.id attr = x.label.kind.element?.bind (·.get? attr) := by
  rw [Tree.attribute?, Tree.element?, h.kind? ht]
  rfl

theorem Stance.At.mapLabel (h : x.At bound m ks r c t) (ht : t.Numbered) (f : Element → Element) :
    (x.mapLabel .settled f).At bound m ks r c (t.mapElement x.label.id f) := by
  obtain ⟨p, y, b, loose, next, rfl, hrest⟩ := h
  refine ⟨p, y, b, loose, next, ?_, hrest⟩
  rw [headed_fill, around_fill, tree_append] at ht ⊢
  rw [mapElement_around ht.nodup, headed_fill, around_fill]
  rfl

/-- An import puts one more tree at the head of the document. -/
theorem Stance.At.heading (h : x.At bound m ks r c t) (ht : t.Numbered) {z : Directive}
    (hs : s.dialect = d) :
    x.At bound { m.note d ⟨s.node, z.name, s.parameter⟩ with marked := m.marked } ks r c
      (Handler.heading s z.name t) := by
  unfold Handler.heading Margin.note
  by_cases himport : z.name ∈ Handler.importNames
  · rw [if_pos himport, if_pos himport]
    cases hv : s.parameter with
    | none =>
      rw [Handler.declareImport, hv]
      exact h
    | some v =>
      obtain ⟨p, y, b, loose, next, rfl, hfits, hy, hb, hc⟩ := h
      rw [headed] at ht ⊢
      rw [Handler.declareImport_around hv ht]
      refine ⟨cons ⟨next, .code (Fragment.eager (Handler.call s .importResource))⟩ nil p, y, b, loose,
        next + 1, rfl, ⟨Nat.le_succ_of_le hfits.le_next, ?_, ?_⟩, hy, hb, hc⟩
      · exact List.forall_mem_cons.2 ⟨⟨rfl, rfl⟩, hfits.quiet⟩
      · rw [map_cons, map_nil, hfits.settle, Node.settle_new hfits.le_next, Handler.call, Site.code, hs,
          hv]
  · rw [if_neg himport, if_neg himport]
    split <;> exact h

/-- An effect on the niche of the element. Its numbers do not matter, and neither does what is at the head
of the document or behind. -/
theorem agrees_move {e : Effect} (h : x.At bound m ks r c t) (hs : s.node = x.label.id) (ht : t.Shaped)
    (hks : ∀ k ∈ ks.head?, k.node.kind.isLoop = false) (he : e.onNiche = true) :
    Agrees bound { m with marked := e.marks s m.marked } ks r c x.label.id (e.perform s t).tree
      (e.perform s t).error (e.act .settled s x) := by
  obtain ⟨p, y, b, loose, next, rfl, hfits, hy, hb, hc⟩ := h
  have hmap := e.move_map (Labelling.maps_settle hfits.le_next) (s := s) rfl rfl y
  rw [Effect.act_eq_move he, ← hy, hmap]
  rw [headed_fill] at ht ⊢
  have hks' : ∀ k ∈ (pushed p ks).head?, k.node.kind.isLoop = false :=
    (alike_pushed p ks).forall_head (P := fun a => a.kind.isLoop = false) hks
  have hshows := Handler.shows_move hs ht hks' he
  cases hz : e.move (.numbered next) s y with
  | ok z =>
    rw [(Effect.local_move _ s e).ok hz _ r] at hshows
    obtain ⟨herror, next', hle, htree⟩ := hshows
    exact ⟨herror, rfl, p, z, b, loose, next', htree.trans (headed_fill ..).symm, hfits.mono hle rfl, rfl,
      hb, hc⟩
  | error e' =>
    rw [(Effect.local_move _ s e).error hz (quiet_spill hfits.quiet ks) r] at hshows
    exact hshows

/-- A tree in which the element is gone, and other trees are in its niche. -/
theorem Turnout.At.of_fill {n : NodeId} {p f loose : Forest Node} {y : Niche Node} {next : NodeId}
    (ht : t = around (pushed p ks) ((y.embed (spill p ks) r).fill f) loose next m.marked)
    (hfits : m.Fits bound p next) (hn : n ∈ loose.ids) :
    (gone ((y.map (Node.settle bound)).fill (f.map (Node.settle bound)))).At bound m ks r c n t := by
  refine ⟨p, y.fill f, loose, next, ?_, hfits, Niche.map_fill .., hn⟩
  rw [ht, headed_fill]

theorem agrees_act {e : Effect} (h : x.At bound m ks r c t) (hs : s.node = x.label.id) (ht : t.Shaped)
    (hks : ∀ k ∈ ks.head?, k.node.kind.isLoop = false) :
    Agrees bound { m with marked := e.marks s m.marked } ks r c x.label.id (e.perform s t).tree
      (e.perform s t).error (e.act .settled s x) := by
  cases e with
  | remove q =>
    obtain ⟨p, y, b, loose, next, ht', hfits, hy, -⟩ := h
    have hnum := ht.numbered
    rw [headed_fill, around_fill, tree_append] at ht'
    rw [ht'] at hnum
    rw [Effect.act, ← hy]
    cases q with
    | none =>
      have htree : t.detach s.node = around (pushed p ks) ((y.embed (spill p ks) r).fill nil)
          (loose ++ tree x.label b) next m.marked := by
        rw [ht', hs, detach_around hnum.nodup, around_fill, nil_append]
      exact ⟨rfl, .of_fill htree hfits (by simp)⟩
    | some q =>
      have htree : Handler.putInstead s q.kind t = around (pushed p ks)
          ((y.embed (spill p ks) r).fill (tree ⟨next, q.kind⟩ nil)) (loose ++ tree x.label b) (next + 1)
          m.marked := by
        rw [ht', Handler.putInstead_around hs q.isConditional hnum, around_fill]
      have hleaf : q.planted .settled = (tree ⟨next, q.kind⟩ nil).map (Node.settle bound) := by
        rw [map_tree, Node.settle_new hfits.le_next]
        rfl
      rw [Option.map_some, Option.getD_some, hleaf]
      exact ⟨rfl, .of_fill htree (hfits.mono (Nat.le_succ next) rfl) (by simp)⟩
  | content q =>
    obtain ⟨p, y, b, loose, next, rfl, hfits, hy, -⟩ := h
    have hnum := ht.numbered
    rw [headed_fill, around_fill, tree_append] at hnum ⊢
    refine ⟨rfl, rfl, p, y, tree ⟨next, q.kind⟩ nil, loose ++ b, next + 1, ?_,
      hfits.mono (Nat.le_succ next) rfl, hy, ?_, nofun⟩
    · rw [Effect.perform, Handler.putBelow_around hs q.isConditional hnum, headed_fill, around_fill]
      rfl
    · rw [map_tree, Node.settle_new hfits.le_next]
      rfl
  | change f =>
    refine ⟨rfl, rfl, ?_⟩
    rw [Effect.perform, hs]
    exact h.mapLabel ht.numbered f
  | mark | flank | loop | condition | otherwise | fail => exact agrees_move h hs ht hks rfl

/-! ## All directives of an element -/

variable {z : String × Directive}

theorem shaped_heading (h : x.At bound m ks r c t) (ht : t.Shaped) (hx : x.label.kind.isElement = true)
    (hs : s.node = x.label.id) : (Handler.heading s z.2.name t).Shaped := by
  have hplaced : Handler.Placed s t := by
    rw [show s = ⟨s.dialect, x.label.id, s.parameter⟩ from hs ▸ rfl]
    exact ⟨ht, h.isAttached ht.numbered, _, h.kind? ht.numbered, hx⟩
  unfold Handler.heading
  split
  · have hshaped := (Handler.sound_importSteps hplaced).2.shaped
    rwa [Handler.follow_importSteps] at hshaped
  · exact ht

theorem agrees_step (h : x.At bound m ks r c t) (ht : t.Shaped)
    (hks : ∀ k ∈ ks.head?, k.node.kind.isLoop = false) (hx : x.label.kind.isElement = true)
    (hz : z.2.IsStandard) :
    let s : Site := ⟨d, x.label.id, Registry.parameter? (t.attribute? x.label.id z.1)⟩
    let out := z.2.run s (t.eraseAttribute x.label.id z.1)
    (x.step .settled d c z).calls = [⟨s.node, z.2.name, s.parameter⟩] ∧
      Agrees bound (m.after d (x.step .settled d c z).calls) ks r c x.label.id out.tree out.error
        (x.step .settled d c z).result ∧ out.tree.Shaped := by
  intro s out
  have herase : (x.mapLabel .settled (·.erase z.1)).At bound m ks r c (t.eraseAttribute x.label.id z.1) :=
    h.mapLabel ht.numbered _
  have hshaped : (t.eraseAttribute x.label.id z.1).Shaped := ht.mapElement _ _
  have hsite : x.site .settled d z.1 = s :=
    congrArg (fun v => Site.mk d x.label.id (Registry.parameter? v)) (h.attribute? ht.numbered z.1).symm
  have hkind := herase.kind? hshaped.numbered
  have helement : (x.mapLabel .settled (·.erase z.1)).label.kind.isElement = true := by
    rw [← hx]
    exact Kind.isElement_mapElement ..
  have hout : out = _ := Handler.run_eq_perform hz hshaped.numbered hkind
  have hcontent := herase.kinds_below hshaped.numbered
  have hstep : x.step .settled d c z = ⟨[⟨s.node, z.2.name, s.parameter⟩],
      (Handler.effect s (x.mapLabel .settled (·.erase z.1)).label.kind
        ((t.eraseAttribute x.label.id z.1).below s.node).kinds z.2.name).act .settled s
          (x.mapLabel .settled (·.erase z.1))⟩ := by
    rw [show ((t.eraseAttribute x.label.id z.1).below s.node).kinds = _ from hcontent, Stance.step, hsite]
    rfl
  rw [hstep]
  refine ⟨rfl, ?_, ?_⟩
  · have hheading := herase.heading (z := z.2) (s := s) (d := d) hshaped.numbered rfl
    have hagrees := agrees_act (s := s) (e := Handler.effect s
        (x.mapLabel .settled (·.erase z.1)).label.kind
        ((t.eraseAttribute x.label.id z.1).below s.node).kinds z.2.name) hheading rfl
      (shaped_heading herase hshaped helement rfl) hks
    have hmarked := m.marked_note d ⟨s.node, z.2.name, s.parameter⟩
    dsimp only at hmarked
    rw [Handler.marks_effect hz, ← hmarked] at hagrees
    rw [hout]
    exact hagrees
  · rw [Handler.run_eq_follow hz]
    exact hshaped.follow (Handler.sound_script hz
      ⟨hshaped, herase.isAttached hshaped.numbered, _, hkind, helement⟩)

/-- What the directives of an element do. -/
theorem agrees_runAt {ds : List (String × Directive)} (h : x.At bound m ks r c t) (ht : t.Shaped)
    (hks : ∀ k ∈ ks.head?, k.node.kind.isLoop = false)
    (hx : ds ≠ [] → x.label.kind.isElement = true) (hds : ∀ z ∈ ds, z.2.IsStandard) :
    let out := Registry.runAt d x.label.id ds t
    out.calls = (x.run .settled d c ds).calls ∧
      Agrees bound (m.after d (x.run .settled d c ds).calls) ks r c x.label.id out.tree out.error
        (x.run .settled d c ds).result ∧ out.tree.Shaped := by
  intro out
  induction ds generalizing m x t with
  | nil => exact ⟨rfl, ⟨rfl, rfl, h⟩, ht⟩
  | cons z ds ih =>
    obtain ⟨hz, hds⟩ := List.forall_mem_cons.1 hds
    have hx := hx (List.cons_ne_nil z ds)
    obtain ⟨hcalls, hagrees, hshaped⟩ := agrees_step (d := d) h ht hks hx hz
    have hout : out = Registry.runAt d x.label.id (z :: ds) t := rfl
    rw [Registry.runAt, if_pos (h.isAttached ht.numbered)] at hout
    dsimp only at hcalls hagrees hshaped hout
    rw [Stance.run, Report.bind]
    generalize z.2.run _ _ = step at hagrees hshaped hout
    cases hstep : (x.step .settled d c z).result with
    | error e =>
      rw [hstep] at hagrees
      simp only [show step.error = some e from hagrees] at hout
      rw [hout]
      exact ⟨hcalls.symm, rfl, hshaped⟩
    | ok next =>
      rw [hstep] at hagrees
      obtain ⟨herror, hat⟩ := hagrees
      simp only [herror] at hout
      cases next with
      | gone f =>
        have hgone : step.tree.isAttached x.label.id = false := by
          obtain ⟨p, g, loose, next, htree, -, -, hn⟩ := hat
          rw [htree] at hshaped ⊢
          exact isAttached_loose hshaped.numbered.nodup hn
        rw [Registry.runAt_gone hgone] at hout
        rw [hout]
        exact ⟨hcalls.symm, ⟨rfl, hat⟩, hshaped⟩
      | kept y =>
        obtain ⟨hid, hat⟩ := hat
        have hy : y.label.kind.isElement = true := by
          rw [← hx]
          exact Stance.kind_step Kind.isElement_mapElement hstep
        obtain ⟨hrest, hagrees', hshaped'⟩ := ih hat hshaped (fun _ => hy) hds
        rw [hid] at hrest hagrees' hshaped'
        rw [hout]
        exact ⟨by rw [hrest, hcalls]; rfl, hagrees', hshaped'⟩

end Element

/-! ## The walk -/

namespace Registry

variable {reg : Registry} {d : Dialect} {bound : NodeId} {m : Margin} {ks : Context}
  {p l f g r c loose : Forest Node} {n next : NodeId} {t : Tree}

/-- Nodes that are not elements have no directives. -/
theorem pending_of_not_isElement (hf : ∀ k ∈ f.kinds.preorder, k.isElement = false) :
    reg.pending f = 0 := by
  rw [preorder_kinds, List.forall_mem_map] at hf
  rw [pending_eq_length, List.length_eq_zero_iff, List.flatMap_eq_nil_iff]
  intro a ha
  have := hf a ha
  cases hk : a.kind <;> simp_all [Kind.isElement, Kind.element?]

theorem length_orderedOf (reg : Registry) (a : Node) :
    (reg.orderedOf a.kind).length = reg.pending (tree a nil) := by
  obtain ⟨n, k⟩ := a
  cases k with
  | element e => exact (reg.ordered_perm e).length_eq
  | _ => rfl

theorem orderedAt_eq (reg : Registry) {k : Kind} (h : t.kind? n = some k) :
    reg.orderedAt t n = reg.orderedOf k := by
  rw [orderedAt, Tree.element?, h, orderedOf]
  cases k <;> rfl

/-- In at most `visits` visits the walk comes from `cursor` to the forest `r` at the place `ks`, and leaves
before `r` and in the margin what the report says; or a directive fails on the way as it says. -/
def Reaches (reg : Registry) (d : Dialect) (bound : NodeId) (visits : Nat) (m : Margin) (ks : Context)
    (r : Forest Node) (cursor : Option NodeId) (t : Tree) (out : Report (Forest Node)) : Prop :=
  match out.result with
  | .ok k => ∃ (p g loose : Forest Node) (next : NodeId), g.map (Node.settle bound) = k ∧
      (m.after d out.calls).Fits bound p next ∧
      (headed p ks (g ++ r) loose next (m.after d out.calls).marked).Shaped ∧
      reg.Leads d visits out.calls cursor t (r ++ rest ks).front?
        (headed p ks (g ++ r) loose next (m.after d out.calls).marked)
  | .error e => reg.Fails d visits out.calls e cursor t

section Reaches

variable {visits visits' : Nat} {calls : List Call} {cursor cursor' : Option NodeId} {t' : Tree}
  {out : Report (Forest Node)}

theorem Reaches.mono (h : reg.Reaches d bound visits m ks r cursor t out) (hle : visits ≤ visits') :
    reg.Reaches d bound visits' m ks r cursor t out := by
  obtain ⟨calls, result⟩ := out
  cases result with
  | error e => exact Fails.mono h hle
  | ok k =>
    obtain ⟨p, g, loose, next, hk, hfits, hshaped, h⟩ := h
    exact ⟨p, g, loose, next, hk, hfits, hshaped, h.mono hle⟩

/-- The walk comes to some place first, and goes on from there. -/
theorem Reaches.of_leads (h : reg.Reaches d bound visits' (m.after d calls) ks r cursor' t' out)
    (hleads : reg.Leads d visits calls cursor t cursor' t') :
    reg.Reaches d bound (visits + visits') m ks r cursor t ⟨calls ++ out.calls, out.result⟩ := by
  obtain ⟨calls', result⟩ := out
  cases result with
  | error e => exact hleads.fails h
  | ok k =>
    obtain ⟨p, g, loose, next, hk, hfits, hshaped, h⟩ := h
    rw [← Margin.after_append] at hfits hshaped h
    exact ⟨p, g, loose, next, hk, hfits, hshaped, hleads.trans h⟩

/-- The walk goes on with the trees that it has come to. -/
theorem Reaches.bind {onward : Forest Node → Report (Forest Node)}
    (h : reg.Reaches d bound visits m ks (f ++ r) cursor t out)
    (honward : ∀ m p g loose next, m.Fits bound p next →
      (headed p ks (g ++ (f ++ r)) loose next m.marked).Shaped →
      reg.Reaches d bound visits' m ks r (f ++ (r ++ rest ks)).front?
        (headed p ks (g ++ (f ++ r)) loose next m.marked) (onward (g.map (Node.settle bound)))) :
    reg.Reaches d bound (visits + visits') m ks r cursor t (out.bind onward) := by
  obtain ⟨calls, result⟩ := out
  cases result with
  | error e => exact Fails.mono h (Nat.le_add_right ..)
  | ok k =>
    obtain ⟨p, g, loose, next, rfl, hfits, hshaped, h⟩ := h
    rw [Forest.append_assoc] at h
    exact (honward _ p g loose next hfits hshaped).of_leads h

end Reaches

/-- Wherever `f` stands in a document, outside of loops, the walk through it does what its report says. -/
def Traversed (reg : Registry) (d : Dialect) (bound : NodeId) (f : Forest Node) : Prop :=
  ∀ {m : Margin} {ks : Context} {p l r loose : Forest Node} {next : NodeId},
    (∀ k ∈ ks.head?, k.node.kind.isLoop = false) → m.Fits bound p next →
    (headed p ks (l ++ (f ++ r)) loose next m.marked).Shaped →
    reg.Reaches d bound (f.preorder.length + reg.pending f) m ks r (f ++ (r ++ rest ks)).front?
      (headed p ks (l ++ (f ++ r)) loose next m.marked)
      (reg.report .settled d (l.map (Node.settle bound)) f)

section Kept

variable {x : Stance Node} {y : Niche Node} {a : Node} {b : Forest Node} {k : Nat}
  {marked : Option NodeId}

theorem ahead_headed :
    Ahead (headed p ks (y.fill (tree a b) ++ r) loose next marked)
      (cons a b (y.ahead ++ (r ++ rest ks))) := by
  rw [headed_fill, around_fill, tree_append]
  refine ⟨_, (y.embed (spill p ks) r).left, cons a b (y.embed (spill p ks) r).right, loose, next, marked,
    rfl, ?_⟩
  rw [cons_append, rest_append, Niche.rest_frames, ← Forest.append_assoc, ← Niche.ahead,
    Niche.ahead_embed, Forest.append_assoc, ← (alike_pushed p ks).rest]

/-- Behind an element that is kept, the walk goes straight to what was behind it before. -/
theorem leads_out (ht : (headed p ks (y.fill (tree a b) ++ r) loose next marked).Numbered)
    (hy : (y.map Node.kind).Tidy k) :
    reg.Leads d k [] (y.ahead ++ (r ++ rest ks)).front?
      (headed p ks (y.fill (tree a b) ++ r) loose next marked) (r ++ rest ks).front?
      (headed p ks (y.fill (tree a b) ++ r) loose next marked) := by
  obtain ⟨hle, hquiet⟩ := hy
  rw [Niche.ahead_map] at hle hquiet
  have hlength : y.ahead.preorder.length ≤ k := by
    rwa [← List.length_map Node.kind, ← preorder_kinds]
  exact (leads_quiet ht ahead_headed.behind (pending_of_not_isElement hquiet)).mono hlength

/-- The tree in which an element has been kept and the walk is done with what is below it. -/
theorem reaches_out {visits : Nat} {calls : List Call} {cursor : Option NodeId}
    (hfits : (m.after d calls).Fits bound p next)
    (ht : (headed p ks (y.fill (tree a b) ++ r) loose next (m.after d calls).marked).Shaped)
    (hy : (y.map Node.kind).Tidy k) (ha : a.id < bound)
    (hleads : reg.Leads d visits calls cursor t (y.ahead ++ (r ++ rest ks)).front?
      (headed p ks (y.fill (tree a b) ++ r) loose next (m.after d calls).marked)) :
    reg.Reaches d bound (visits + k) m ks r cursor t
      ⟨calls, .ok ((y.map (Node.settle bound)).fill (tree a (b.map (Node.settle bound))))⟩ := by
  have hout := hleads.trans (leads_out ht.numbered hy)
  rw [List.append_nil] at hout
  refine ⟨p, y.fill (tree a b), loose, next, ?_, hfits, ht, hout⟩
  rw [Niche.map_fill, map_tree, Node.settle_old ha]

/-- From an element that is kept the walk goes through what is below it, and then to what was behind. -/
theorem reaches_kept (h : x.At bound m ks r c t) (ht : t.Shaped) (hx : x.Tidy .settled k)
    (hold : x.label.id < bound) (hloop : x.label.kind.isLoop = false)
    (htraversed : reg.Traversed d bound c) (before : Tree) :
    reg.Reaches d bound (c.preorder.length + reg.pending c + k) m ks r
      (resume before t x.label.id) t ((Turnout.kept x).level .settled (reg.report .settled d nil c)) := by
  obtain ⟨p, y, b, loose, next, rfl, hfits, hy, hb, hc⟩ := h
  obtain ⟨k', htidy, hle⟩ := hx
  have htidy : (y.map Node.kind).Tidy k' := by
    rw [← Niche.kinds_settle bound, hy]
    exact htidy
  have hahead : Ahead (headed p ks (y.fill (tree x.label b) ++ r) loose next m.marked)
      (cons x.label b (y.ahead ++ (r ++ rest ks))) := ahead_headed
  rw [hahead.resume ht.numbered, Turnout.level, ← hy]
  cases hcontent : x.content with
  | none =>
    obtain rfl := hc hcontent
    have hrest : rest ((y.embed nil r).inner x.label ++ ks) = y.ahead ++ (r ++ rest ks) := by
      rw [Niche.rest_inner, Niche.ahead_embed, Forest.append_assoc]
    have hshaped := ht
    rw [headed_inner, ← append_nil b, ← nil_append (b ++ nil)] at hshaped
    have hreach := htraversed (by rintro k ⟨⟩; exact hloop) hfits hshaped
    rw [nil_append, append_nil, nil_append, hrest, ← headed_inner, map_nil] at hreach
    generalize reg.report .settled d nil b = out at hreach ⊢
    obtain ⟨calls, result⟩ := out
    cases result with
    | error e => exact Fails.mono hreach (Nat.le_add_right ..)
    | ok g =>
      obtain ⟨p', g, loose', next', rfl, hfits', hshaped', hleads⟩ := hreach
      rw [append_nil, ← headed_inner, nil_append, hrest] at hleads
      rw [append_nil, ← headed_inner] at hshaped'
      refine (reaches_out hfits' hshaped' htidy hold hleads).mono ?_
      omega
  | some q =>
    rw [Stance.below, hcontent] at hb
    have hkinds : b.kinds = tree q.kind nil := by
      rw [← kinds_settle bound, hb]
      rfl
    have hquiet : reg.pending b = 0 := by
      refine pending_of_not_isElement ?_
      rw [hkinds]
      exact List.forall_mem_singleton.2 q.isElement
    have hlength : b.preorder.length = 1 := by
      rw [← List.length_map Node.kind, ← preorder_kinds, hkinds]
      rfl
    have hreach : reg.Reaches d bound _ m ks r _ _ ⟨[], _⟩ :=
      reaches_out hfits ht htidy hold (leads_quiet ht.numbered hahead.below hquiet)
    rw [hb] at hreach
    refine Reaches.mono hreach ?_
    rw [hcontent, Option.toList_some, List.length_singleton] at hle
    omega

end Kept

/-- From a node the walk comes to what is behind it. -/
theorem reaches_tree {a : Node} (hold : ∀ b ∈ (tree a c).preorder, b.id < bound)
    (hloop : a.kind.isLoop = false) (hds : ∀ z ∈ reg.orderedOf a.kind, z.2.IsStandard)
    (htraversed : reg.Traversed d bound c) (hks : ∀ k ∈ ks.head?, k.node.kind.isLoop = false)
    (hfits : m.Fits bound p next)
    (ht : (headed p ks (l ++ cons a c r) loose next m.marked).Shaped) :
    reg.Reaches d bound (1 + (c.preorder.length + reg.pending c + reg.pending (tree a nil))) m ks r
      (some a.id) (headed p ks (l ++ cons a c r) loose next m.marked)
      ((Stance.run .settled d c (reg.orderedOf a.kind)
        ⟨.here (l.map (Node.settle bound)) nil, a, none⟩).bind
          (·.level .settled (reg.report .settled d nil c))) := by
  rw [tree, preorder_cons, List.forall_mem_cons, preorder_nil, List.append_nil] at hold
  have hat : Stance.At bound m ks r c (headed p ks (l ++ cons a c r) loose next m.marked)
      ⟨.here (l.map (Node.settle bound)) nil, a, none⟩ := by
    refine ⟨p, .here l nil, c, loose, next, ?_, hfits, rfl, map_settle hold.2, fun _ => rfl⟩
    rw [Niche.fill, append_nil, Forest.append_assoc, tree_append]
  have hordered := reg.orderedAt_eq (hat.kind? ht.numbered)
  have helement : reg.orderedOf a.kind ≠ [] → a.kind.isElement = true := by
    cases a.kind <;> simp [orderedOf, Kind.element?, Kind.isElement]
  obtain ⟨hcalls, hagrees, hshaped⟩ := agrees_runAt (d := d) hat ht hks helement hds
  have hvisit := Leads.visit (r := reg) (d := d) (n := a.id)
    (t := headed p ks (l ++ cons a c r) loose next m.marked)
  have hfails {e : TemplateError} := Fails.visit (r := reg) (d := d) (n := a.id) (e := e)
    (t := headed p ks (l ++ cons a c r) loose next m.marked)
  dsimp only at hcalls hagrees hshaped hordered
  simp only [hordered, hcalls] at hvisit hfails
  rw [Report.bind]
  cases hrun : (Stance.run .settled d c (reg.orderedOf a.kind)
      ⟨.here (l.map (Node.settle bound)) nil, a, none⟩).result with
  | error e =>
    rw [hrun] at hagrees
    exact (hfails hagrees).mono (Nat.le_add_right ..)
  | ok out =>
    rw [hrun] at hagrees
    obtain ⟨herror, hout⟩ := hagrees
    refine Reaches.of_leads ?_ (hvisit herror)
    cases out with
    | gone k =>
      obtain ⟨p', g, loose', next', htree, hfits', rfl, ha⟩ := hout
      rw [htree] at hshaped ⊢
      refine ⟨p', g, loose', next', rfl, hfits', hshaped, ?_⟩
      have hnum := ht.numbered
      have hnum' := hshaped.numbered
      simp only [headed_eq, ← Forest.append_assoc] at hnum hnum' ⊢
      rw [resume_gone ((alike_pushed p ks).symm.trans (alike_pushed p' ks)) hnum hnum' ha,
        ← (alike_pushed p' ks).rest]
      exact Leads.refl.mono (Nat.zero_le _)
    | kept x =>
      obtain ⟨hid, hout⟩ := hout
      have htidy : x.Tidy .settled (reg.pending (tree a nil)) := by
        have hstart : Stance.Tidy .settled 0 ⟨.here (l.map (Node.settle bound)) nil, a, none⟩ :=
          ⟨0, ⟨Nat.le_refl 0, List.forall_mem_nil _⟩, Nat.le_refl 0⟩
        have := hstart.run hrun
        rwa [length_orderedOf, Nat.zero_add] at this
      have hkept := reaches_kept hout hshaped htidy (hid ▸ hold.1)
        ((Stance.kind_run Kind.isLoop_mapElement hrun).trans hloop) htraversed
        (headed p ks (l ++ cons a c r) loose next m.marked)
      rwa [hid] at hkept

theorem traversed (hold : ∀ a ∈ f.preorder, a.id < bound)
    (hloop : ∀ a ∈ f.preorder, a.kind.isLoop = false)
    (hds : ∀ a ∈ f.preorder, ∀ z ∈ reg.orderedOf a.kind, z.2.IsStandard) : reg.Traversed d bound f := by
  intro m ks p l r loose next hks hfits ht
  induction f generalizing m ks p l r loose next with
  | nil => exact ⟨p, l, loose, next, rfl, hfits, ht, .refl⟩
  | cons a c f ihc ihf =>
    rw [preorder_cons, List.forall_mem_cons, List.forall_mem_append] at hold hloop hds
    have htree := reaches_tree (r := f ++ r) (d := d)
      (by simpa [tree] using And.intro hold.1 hold.2.1) hloop.1 hds.1
      (fun hks hfits ht => ihc hold.2.1 hloop.2.1 hds.2.1 hks hfits ht) hks hfits ht
    refine (htree.bind fun m p g loose next hfits ht =>
      ihf hold.2.2 hloop.2.2 hds.2.2 hks hfits ht).mono ?_
    rw [preorder_cons, List.length_cons, List.length_append, pending_cons]
    omega

end Registry

/-! ## The document -/

/-- A run has made the calls of a report and left what the report says, behind the head of the margin. -/
def Run.Accords (d : Dialect) (bound : NodeId) (run : Run) (out : Report (Forest Node)) : Prop :=
  run.calls = out.calls ∧ match out.result with
    | .error e => run.error = some e
    | .ok k => run.error = none ∧ ∃ (f loose : Forest Node) (next : NodeId),
        run.tree = around [] f loose next (Margin.blank.after d out.calls).marked ∧
          run.tree.Numbered ∧ f.map (Node.settle bound) = (Margin.blank.after d out.calls).head ++ k

namespace Registry

variable {reg : Registry}

theorem isStandard_orderedOf (hr : ∀ x ∈ reg.directives, x.IsStandard) (k : Kind) :
    ∀ z ∈ reg.orderedOf k, z.2.IsStandard := by
  cases k with
  | element e => exact fun z hz => hr z.2 (mem_of_mem_ordered hz)
  | document | text | code | conditional | branch | loop => exact List.forall_mem_nil _

/-- A pass over markup does what its report says. -/
theorem accords_run {f : Forest Kind} (hf : f.IsMarkup)
    (hds : ∀ k ∈ f.preorder, ∀ z ∈ reg.orderedOf k, z.2.IsStandard) (d : Dialect) :
    (reg.run d (ofContent f)).Accords d (ofContent f).next
      (reg.report .settled d nil (f.numberFrom 1).1) := by
  have hkinds : (f.numberFrom 1).1.kinds.IsMarkup := by rwa [kinds_numberFrom]
  have hcontent : ofContent f =
      headed nil [] (nil ++ ((f.numberFrom 1).1 ++ nil)) nil (ofContent f).next Margin.blank.marked := by
    rw [append_nil]
    rfl
  have hshaped := shaped_ofContent hf
  rw [hcontent] at hshaped
  have hfits : Margin.blank.Fits (ofContent f).next nil (ofContent f).next :=
    ⟨Nat.le_refl _, List.forall_mem_nil _, rfl⟩
  have hold : ∀ a ∈ (f.numberFrom 1).1.preorder, a.id < (ofContent f).next := by
    intro a ha
    have hmem : a.id ∈ (ofContent f).forest.ids := by
      rw [ofContent, ids_tree]
      exact List.mem_cons_of_mem _ (List.mem_map_of_mem ha)
    rwa [ids_ofContent, List.mem_range] at hmem
  have hloop : ∀ a ∈ (f.numberFrom 1).1.preorder, a.kind.isLoop = false := by
    intro a ha
    refine Bool.eq_false_iff.2 fun hloop => ?_
    have hmade := hkinds.isMade a ha
    rw [Kind.isMade_of_isLoop hloop] at hmade
    cases hmade
  rw [← kinds_numberFrom 1 f, preorder_kinds, List.forall_mem_map] at hds
  have hreach := traversed (d := d) hold hloop hds (by rintro k ⟨⟩) hfits hshaped
  rw [← hcontent, rest_nil, append_nil, append_nil, map_nil] at hreach
  have hle : (f.numberFrom 1).1.preorder.length + reg.pending (f.numberFrom 1).1 ≤
      reg.visitLimit (ofContent f) := by
    refine Nat.le_trans ?_ (reg.le_visitLimit (ofContent f))
    rw [ofContent, tree, preorder_cons, pending_cons, preorder_nil, List.append_nil, List.length_cons]
    omega
  unfold run
  generalize reg.visitLimit (ofContent f) = visits at hle ⊢
  generalize reg.report .settled d nil (f.numberFrom 1).1 = out at hreach ⊢
  obtain ⟨calls, result⟩ := out
  cases result with
  | error e => exact Fails.finish hreach hle
  | ok k =>
    obtain ⟨p, g, loose, next, rfl, hfits, hshaped, hleads⟩ := hreach
    have hfinish := hleads.finish hle
    rw [append_nil] at hfinish hshaped
    rw [show (ofContent f).firstChild? root = (f.numberFrom 1).1.front? from rfl, hfinish]
    refine ⟨rfl, rfl, p ++ g, loose, next, rfl, hshaped.numbered, ?_⟩
    rw [map_append, hfits.settle]

end Registry

end HtmlTemplate
