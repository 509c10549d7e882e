import HtmlTemplate.Proofs.Forest.Niche
import HtmlTemplate.Proofs.Markup.Content
import HtmlTemplate.Proofs.Markup.Text
import HtmlTemplate.Proofs.Tree.Document

/-! # Building a document node by node

The tokens of a source, taken in turn, make a document in place: what a token stands for is put last
below the innermost open element, and text is joined with the text that is last there. This builder
and `Markup.parse` make one and the same tree, number by number (`tree_build`). So a document is
numbered in the order in which its nodes are made, and after every token all nodes made so far are
in the document, in the order of their making (`descendants_build`).
-/

namespace HtmlTemplate

open Forest Context

/-! ## The builder -/

namespace Tree

/-- Makes a node and puts it last below `parent`. -/
def grow (t : Tree) (parent : NodeId) (kind : Kind) : Tree :=
  (t.create kind).append parent t.next

/-- The last node below `parent`, if it is text. -/
def lastText? (t : Tree) (parent : NodeId) : Option (NodeId × String) :=
  (t.lastChild? parent).bind fun n => ((t.kind? n).bind Kind.text?).map fun s => (n, s)

/-- Adds text last below `parent`: to the text that is last there, or else as a node of its own. -/
def growText (t : Tree) (parent : NodeId) (s : String) : Tree :=
  if s = "" then t
  else
    match t.lastText? parent with
    | some (n, before) => { t with forest := t.forest.mapKind n fun _ => .text (before ++ s) }
    | none => t.grow parent (.text s)

end Tree

/-- A document in the making. -/
structure Builder where
  tree : Tree
  /-- The open elements and their names, the innermost first. -/
  opened : List (NodeId × String)

namespace Builder

def start : Builder := ⟨Tree.empty, []⟩

/-- Where the next node is put. -/
def parent (b : Builder) : NodeId :=
  (b.opened.head?.map Prod.fst).getD Tree.root

def names (b : Builder) : List String :=
  b.opened.map Prod.snd

def put (b : Builder) (kind : Kind) : Builder :=
  { b with tree := b.tree.grow b.parent kind }

def putText (b : Builder) (s : String) : Builder :=
  { b with tree := b.tree.growText b.parent s }

/-- Puts an element and opens it. -/
def enter (b : Builder) (name : String) (e : Element) : Builder :=
  ⟨b.tree.grow b.parent (.element e), (b.tree.next, name) :: b.opened⟩

/-- Closes the `n` innermost elements. -/
def leave (b : Builder) (n : Nat) : Builder :=
  { b with opened := b.opened.drop n }

def step (lead : String) (d : Dialect) (b : Builder) : Token → Builder
  | .text s => b.putText s
  | .code e => b.put (.code (Fragment.expression (d.escape e)))
  | .leaf tag => b.put (.element (Element.ofMarkup lead d tag))
  | .raw tag body => ((b.enter tag.name (Element.ofMarkup lead d tag)).putText body).leave 1
  | .opening tag => b.enter tag.name (Element.ofMarkup lead d tag)
  | .closing name source =>
    if name ∈ b.names then b.leave (b.names.idxOf name + 1) else b.putText source

def build (lead : String) (d : Dialect) (tokens : List Token) : Builder :=
  tokens.foldl (step lead d) start

end Builder

/-! ## Joining forests at their border -/

theorem Kind.eq_text {k : Kind} {s : String} (h : k.text? = some s) : k = .text s := by
  cases k with
  | text u => exact congrArg text (Option.some.inj h)
  | _ => cases h

namespace Forest

/-- Puts a tree in front of a forest, joined with the text there if it is text itself. -/
def touch (k : Kind) (c : Forest Kind) : Forest Kind → Forest Kind
  | cons (.text u) nil r =>
    match k with
    | .text s => cons (.text (s ++ u)) c r
    | k => cons k c (cons (.text u) nil r)
  | g => cons k c g

/-- Puts a forest behind another. Where text meets text, the two are joined. -/
def meet : Forest Kind → Forest Kind → Forest Kind
  | nil, g => g
  | cons k c nil, g => touch k c g
  | cons k c (cons k' c' r), g => cons k c (meet (cons k' c' r) g)

/-- The forest of one text; there is none that is empty. -/
def ofText (s : String) : Forest Kind :=
  if s = "" then nil else tree (.text s) nil

theorem kinds_append (f g : Forest Node) : (f ++ g).kinds = f.kinds ++ g.kinds :=
  map_append Node.kind f g

theorem prependText_nil (s : String) : Markup.prependText s nil = ofText s := rfl

@[simp] theorem nil_meet (g : Forest Kind) : meet nil g = g := by
  rw [meet]

@[simp] theorem touch_nil (k : Kind) (c : Forest Kind) : touch k c nil = cons k c nil := rfl

theorem touch_text_text (s u : String) (c r : Forest Kind) :
    touch (.text s) c (cons (.text u) nil r) = cons (.text (s ++ u)) c r := rfl

theorem touch_of_text?_eq_none {k : Kind} (hk : k.text? = none) (c g : Forest Kind) :
    touch k c g = cons k c g := by
  unfold touch
  split
  · cases k with
    | text u => cases hk
    | _ => rfl
  · rfl

/-- Text stands at the front of a forest, or whatever is put there stays apart. -/
theorem touch_cases (g : Forest Kind) :
    (∃ u r, g = cons (.text u) nil r) ∨ ∀ k c, touch k c g = cons k c g := by
  by_cases h : ∃ u r, g = cons (.text u) nil r
  · exact Or.inl h
  · refine Or.inr fun k c => ?_
    unfold touch
    split
    · rename_i u r
      exact absurd ⟨u, r, rfl⟩ h
    · rfl

theorem touch_cons {k : Kind} (hk : k.text? = none) (k' : Kind) (c' c g : Forest Kind) :
    touch k' c' (cons k c g) = cons k' c' (cons k c g) := by
  rcases touch_cases (cons k c g) with ⟨u, r, h⟩ | h
  · rw [(cons.inj h).1] at hk
    cases hk
  · exact h k' c'

theorem touch_touch (t s : String) (c g : Forest Kind) :
    touch (.text t) c (touch (.text s) nil g) = touch (.text (t ++ s)) c g := by
  rcases touch_cases g with ⟨u, r, rfl⟩ | h
  · rw [touch_text_text, touch_text_text, touch_text_text, String.append_assoc]
  · rw [h, h, touch_text_text]

theorem prependText_eq_touch {s : String} (hs : s ≠ "") (g : Forest Kind) :
    Markup.prependText s g = touch (.text s) nil g := by
  rcases touch_cases g with ⟨u, r, rfl⟩ | h
  · rw [touch_text_text, Markup.prependText]
  · rcases Markup.prependText_cases g with ⟨u, r, rfl⟩ | hp
    · rw [touch_text_text, Markup.prependText]
    · rw [h, hp, if_neg hs]

theorem meet_append_tree (l : Forest Kind) (k : Kind) (c g : Forest Kind) :
    meet (l ++ tree k c) g = l ++ touch k c g := by
  induction l with
  | nil => rw [nil_append, nil_append, tree, meet]
  | cons x m r _ ih =>
    rw [cons_append, cons_append, ← ih]
    cases r with
    | nil => rfl
    | cons y n r => rw [cons_append, meet]

theorem exists_last {α : Type} (f : Forest α) : f = nil ∨ ∃ l k c, f = l ++ tree k c := by
  induction f with
  | nil => exact Or.inl rfl
  | cons k c r _ ih =>
    rcases ih with rfl | ⟨l, k', c', rfl⟩
    · exact Or.inr ⟨nil, k, c, rfl⟩
    · exact Or.inr ⟨cons k c l, k', c', rfl⟩

@[simp] theorem meet_nil (f : Forest Kind) : meet f nil = f := by
  rcases exists_last f with rfl | ⟨l, k, c, rfl⟩
  · rw [nil_meet]
  · rw [meet_append_tree, touch_nil, tree]

/-- A tree that is no text moves over the border. -/
theorem meet_cons {k : Kind} (hk : k.text? = none) (f c g : Forest Kind) :
    meet f (cons k c g) = meet (f ++ tree k c) g := by
  rw [meet_append_tree, touch_of_text?_eq_none hk]
  rcases exists_last f with rfl | ⟨l, k', c', rfl⟩
  · rw [nil_meet, nil_append]
  · rw [meet_append_tree, touch_cons hk, append_assoc]
    rfl

/-- Text moves over the border, joined with the text that it meets on either side. -/
theorem meet_prependText (f : Forest Kind) (s : String) (g : Forest Kind) :
    meet f (Markup.prependText s g) = meet (meet f (ofText s)) g := by
  unfold ofText
  split
  · rename_i hs
    rw [hs, Markup.prependText_empty, meet_nil]
  · rename_i hs
    rw [prependText_eq_touch hs]
    rcases exists_last f with rfl | ⟨l, k, c, rfl⟩
    · rw [nil_meet, nil_meet, tree, meet]
    · rw [meet_append_tree, meet_append_tree]
      cases hk : k.text? with
      | none =>
        have hfront : l ++ cons k c (tree (.text s) nil) = l ++ tree k c ++ tree (.text s) nil :=
          (append_assoc l (tree k c) _).symm
        rw [touch_of_text?_eq_none hk, touch_of_text?_eq_none hk, hfront, meet_append_tree, append_assoc]
        rfl
      | some t =>
        rw [Kind.eq_text hk, touch_touch, tree, touch_text_text, ← tree, meet_append_tree]

end Forest

/-- A forest that is numbered in document order is what numbering makes of its kinds. -/
theorem numberFrom_kinds {f : Forest Node} {n : NodeId} (h : f.ids = List.range' n f.ids.length) :
    f.kinds.numberFrom n = (f, n + f.ids.length) := by
  induction f generalizing n with
  | nil => rfl
  | cons a c r ihc ihr =>
    rw [ids_cons, List.length_cons, List.range'_succ, List.cons.injEq, List.length_append,
      ← List.range'_append_1] at h
    obtain ⟨hc, hr⟩ := List.append_inj h.2 List.length_range'.symm
    rw [kinds_cons, numberFrom, ihc hc, ihr hr, ids_cons, List.length_cons, List.length_append, ← h.1]
    exact Prod.ext rfl (by simp only [Nat.add_assoc, Nat.add_comm 1])

/-! ## What the open elements are filled with -/

namespace Markup

variable {ks : Context} {f g : Forest Kind} {gs : List (Forest Kind)}

/-- The content of the document when `f` stands in the innermost open element and each level is
continued as given. The frames are those of the open elements. -/
def fill : Context → Forest Kind → List (Forest Kind) → Forest Kind
  | [], f, gs => meet f (gs.headD nil)
  | k :: ks, f, gs => fill ks (k.before.kinds ++ tree k.node.kind (meet f (gs.headD nil))) gs.tail

theorem fill_cons_congr {f' g' : Forest Kind} (h : meet f g = meet f' g') :
    fill ks f (g :: gs) = fill ks f' (g' :: gs) := by
  cases ks <;> simp only [fill, List.headD_cons, List.tail_cons, h]

theorem fill_prependTree {k : Kind} (hk : k.text? = none) (c : Forest Kind) (hgs : gs ≠ []) :
    fill ks f (prependTree k c gs) = fill ks (f ++ tree k c) gs := by
  obtain ⟨g, gs, rfl⟩ := List.exists_cons_of_ne_nil hgs
  exact fill_cons_congr (meet_cons hk f c g)

theorem fill_prependText (s : String) (hgs : gs ≠ []) :
    fill ks f (gs.modifyHead (prependText s)) = fill ks (meet f (ofText s)) gs := by
  obtain ⟨g, gs, rfl⟩ := List.exists_cons_of_ne_nil hgs
  exact fill_cons_congr (meet_prependText f s g)

/-- Elements that are closed get nothing more. -/
theorem fill_replicate {ks : Context} (hlast : rest ks = nil) (f : Forest Node) {n : Nat} (hn : n ≤ ks.length)
    (gs : List (Forest Kind)) :
    fill ks f.kinds (List.replicate n nil ++ gs) = fill (ks.drop n) (close (ks.take n) f).kinds gs := by
  induction n generalizing ks f with
  | zero => rfl
  | succ n ih =>
    cases ks with
    | nil => cases hn
    | cons k ks =>
      obtain ⟨hafter, hrest⟩ := append_eq_nil hlast
      have hbelow : k.before.kinds ++ tree k.node.kind f.kinds = (k.before ++ cons k.node f k.after).kinds := by
        rw [hafter, kinds_append]
        rfl
      rw [List.replicate_succ, List.cons_append, fill, List.headD_cons, meet_nil, hbelow]
      exact ih hrest _ (Nat.le_of_succ_le_succ hn)

theorem fill_opening (lead : String) (d : Dialect) (opened : List String) (tag : Tag) (ts : List Token)
    (f : Forest Node) (n : NodeId) :
    fill ks f.kinds (levels lead d opened (.opening tag :: ts)) =
      fill (⟨f, ⟨n, .element (Element.ofMarkup lead d tag)⟩, nil⟩ :: ks) nil
        (levels lead d (tag.name :: opened) ts) := by
  have hlength := length_levels lead d (tag.name :: opened) ts
  rw [levels]
  cases hlevels : levels lead d (tag.name :: opened) ts with
  | nil =>
    rw [hlevels] at hlength
    cases hlength
  | cons inner gs =>
    have hgs : gs ≠ [] := by
      rintro rfl
      rw [hlevels] at hlength
      cases hlength
    rw [fill_prependTree rfl inner hgs, fill, List.headD_cons, nil_meet]
    rfl

theorem levels_ne_nil (lead : String) (d : Dialect) (opened : List String) (ts : List Token) :
    levels lead d opened ts ≠ [] :=
  List.ne_nil_of_length_eq_add_one (length_levels lead d opened ts)

end Markup

/-! ## Growing a tree at its end -/

namespace Tree

variable {t : Tree} {k : Frame} {ks : Context} {f : Forest Node}

theorem grow_at (ht : t.Numbered) (hf : t.forest = close (k :: ks) f) {kind : Kind}
    (hkind : kind.isConditional = false) : t.grow k.node.id kind =
      { t with forest := close (k :: ks) (f ++ tree ⟨t.next, kind⟩ nil), next := t.next + 1 } := by
  have hcreate : t.create kind =
      { t with forest := t.forest ++ tree ⟨t.next, kind⟩ nil, next := t.next + 1 } := by
    unfold create
    rw [hkind]
    rfl
  have hnum := ht.create kind
  have hnew : (t.create kind).forest = close [] (t.forest ++ cons ⟨t.next, kind⟩ nil nil) := by
    rw [hcreate]
    rfl
  have hfind := find?_at ht.nodup hf
  have hfound : (t.create kind).find? k.node.id = some (k.node.kind, f) := by
    rw [find?] at hfind
    rw [find?, hcreate, find?_append, hfind]
    rfl
  have hparent : k.node.id ∉ (tree ⟨t.next, kind⟩ nil : Forest Node).ids := by
    rw [ids_tree, ids_nil, List.mem_singleton]
    exact Nat.ne_of_lt (ht.bound k.node.id (mem_ids_of_find? hfind))
  have hremove : (t.create kind).forest.remove t.next = t.forest := by
    rw [remove_at (a := ⟨t.next, kind⟩) hnum.nodup hnew, close_nil, append_nil]
  unfold grow append move
  rw [hfound, subtree?_at hnum.nodup hnew]
  simp only [if_neg hparent, hremove]
  rw [mapChildren_at ht.nodup hf, hcreate]
  rfl

theorem lastText?_nil (ht : t.forest.ids.Nodup) (hf : t.forest = close (k :: ks) nil) :
    t.lastText? k.node.id = none := by
  rw [lastText?, lastChild?, children_at ht hf]
  rfl

theorem lastText?_last {l c : Forest Node} {a : Node} (ht : t.forest.ids.Nodup)
    (hf : t.forest = close (k :: ks) (l ++ tree a c)) :
    t.lastText? k.node.id = a.kind.text?.map fun s => (a.id, s) := by
  have hk : t.forest = close ks (k.before ++ cons k.node (l ++ tree a c) k.after) := hf
  have hlast : t.lastChild? k.node.id = some a.id := by
    rw [lastChild?, children_at ht hk, rootIds_append, rootIds_tree, List.getLast?_concat]
  rw [lastText?, hlast, Option.bind_some, kind?_at ht hf, Option.bind_some]

end Tree

/-! ## The tree while it is built -/

namespace Builder

variable {lead : String} {d : Dialect} {b : Builder} {ks : Context} {f : Forest Node}

/-- The open elements of a builder are the frames of `ks`, with `f` in the innermost. Nothing stands
after an open element, and the nodes are numbered in document order. -/
structure Holds (b : Builder) (ks : Context) (f : Forest Node) : Prop where
  tree : b.tree = Tree.around ks f nil b.tree.next none
  opened : b.opened.map Prod.fst = above ks
  last : rest ks = nil
  ids : b.tree.forest.ids = List.range b.tree.next

theorem holds_start : start.Holds [] nil := ⟨rfl, rfl, rfl, rfl⟩

theorem Holds.numbered (h : b.Holds ks f) : b.tree.Numbered where
  nodup := h.ids ▸ List.nodup_range
  bound n hn := by
    rw [h.ids] at hn
    exact List.mem_range.1 hn

theorem Holds.forest (h : b.Holds ks f) : b.tree.forest = close (ks ++ [documentFrame nil]) f := by
  rw [h.tree, Tree.around_forest]

/-- The innermost frame is where the next node is put. -/
theorem Holds.exists_parent (h : b.Holds ks f) :
    ∃ k js, ks ++ [documentFrame nil] = k :: js ∧ k.node.id = b.parent := by
  have hopened := h.opened
  unfold parent
  cases ks with
  | nil =>
    rw [List.map_eq_nil_iff.1 hopened]
    exact ⟨documentFrame nil, [], rfl, rfl⟩
  | cons k js =>
    obtain ⟨p, ps, hp, hid, -⟩ := List.map_eq_cons_iff.1 hopened
    rw [hp]
    exact ⟨k, js ++ [documentFrame nil], rfl, hid.symm⟩

theorem Holds.ids_eq (h : b.Holds ks f) (g : Forest Node) :
    (close (ks ++ [documentFrame nil]) g).ids = leading (ks ++ [documentFrame nil]) ++ g.ids := by
  rw [ids_close, rest_append, h.last]
  exact congrArg _ (List.append_nil _)

theorem Holds.put (h : b.Holds ks f) (kind : Kind) (hkind : kind.isConditional = false) :
    (b.put kind).Holds ks (f ++ Forest.tree ⟨b.tree.next, kind⟩ nil) := by
  obtain ⟨k, js, hk, hparent⟩ := h.exists_parent
  have hgrow := Tree.grow_at h.numbered (hk ▸ h.forest) hkind
  rw [hparent, ← hk, ← Tree.around_forest ks _ nil (b.tree.next + 1) none] at hgrow
  refine ⟨?_, h.opened, h.last, ?_⟩
  · rw [Builder.put, hgrow, h.tree]
    rfl
  · have hids := h.ids
    rw [h.forest, h.ids_eq] at hids
    rw [Builder.put, hgrow]
    simp only [Tree.around_forest]
    rw [h.ids_eq, ids_append, ids_tree, ids_nil, ← List.append_assoc, hids, List.range_succ]

theorem Holds.enter (h : b.Holds ks f) (name : String) (e : Element) :
    (b.enter name e).Holds (⟨f, ⟨b.tree.next, .element e⟩, nil⟩ :: ks) nil := by
  have hput := h.put (.element e) rfl
  refine ⟨hput.tree, ?_, h.last, hput.ids⟩
  rw [Builder.enter, List.map_cons, h.opened]
  rfl

theorem Holds.leave (h : b.Holds ks f) (n : Nat) : (b.leave n).Holds (ks.drop n) (close (ks.take n) f) := by
  refine ⟨?_, ?_, ?_, h.ids⟩
  · rw [← Tree.around_append, List.take_append_drop]
    exact h.tree
  · rw [Builder.leave, List.map_drop, h.opened, above, above, List.map_drop]
  · have hlast := h.last
    rw [← List.take_append_drop n ks, rest_append] at hlast
    exact (append_eq_nil hlast).2

/-- The last node of the innermost element takes another kind in its place. -/
theorem Holds.change {l c : Forest Node} {a : Node} (h : b.Holds ks (l ++ Forest.tree a c)) (kind : Kind) :
    Holds ⟨{ b.tree with forest := b.tree.forest.mapKind a.id fun _ => kind }, b.opened⟩ ks
      (l ++ Forest.tree ⟨a.id, kind⟩ c) := by
  have hkind : b.tree.forest.mapKind a.id (fun _ => kind) =
      close (ks ++ [documentFrame nil]) (l ++ Forest.tree ⟨a.id, kind⟩ c) := by
    rw [mapKind_at h.numbered.nodup h.forest]
    rfl
  refine ⟨?_, h.opened, h.last, ?_⟩
  · rw [hkind, ← Tree.around_forest ks _ nil b.tree.next none, h.tree]
    rfl
  · have hids := h.ids
    rw [h.forest, h.ids_eq] at hids
    rw [hkind, h.ids_eq, ← hids, ids_append, ids_append, ids_tree, ids_tree]

/-- Text is joined with the last text of the innermost element. -/
theorem Holds.putText (h : b.Holds ks f) (s : String) :
    ∃ g, (b.putText s).Holds ks g ∧ g.kinds = meet f.kinds (ofText s) := by
  obtain ⟨k, js, hk, hparent⟩ := h.exists_parent
  have hforest : b.tree.forest = close (k :: js) f := hk ▸ h.forest
  have hnodup := h.numbered.nodup
  unfold Builder.putText Tree.growText ofText
  by_cases hs : s = ""
  · simp only [if_pos hs, meet_nil]
    exact ⟨f, h, rfl⟩
  simp only [if_neg hs]
  -- Either the text gets a node of its own, or the last text takes it in.
  rcases exists_last f with rfl | ⟨l, a, c, rfl⟩
  · rw [← hparent, Tree.lastText?_nil hnodup hforest]
    simp only [hparent]
    exact ⟨_, h.put (.text s) rfl, rfl⟩
  · have hkinds (a : Node) : (l ++ Forest.tree a c).kinds = l.kinds ++ Forest.tree a.kind c.kinds :=
      kinds_append l (Forest.tree a c)
    rw [← hparent, Tree.lastText?_last hnodup hforest, hkinds, meet_append_tree]
    cases htext : a.kind.text? with
    | none =>
      simp only [Option.map_none, hparent]
      refine ⟨_, h.put (.text s) rfl, ?_⟩
      rw [kinds_append, hkinds, touch_of_text?_eq_none htext, append_assoc]
      rfl
    | some u =>
      refine ⟨_, h.change (.text (u ++ s)), ?_⟩
      rw [hkinds, Kind.eq_text htext]
      rfl

theorem Holds.length_names (h : b.Holds ks f) : b.names.length = ks.length := by
  have hlength := congrArg List.length h.opened
  rw [List.length_map, above, List.length_map] at hlength
  rw [names, List.length_map, hlength]

theorem names_leave (b : Builder) (n : Nat) : (b.leave n).names = b.names.drop n := by
  rw [names, leave, List.map_drop, names]

/-- What a token puts into the tree is what it puts in front of the levels of the tokens after it. -/
theorem Holds.step (h : b.Holds ks f) (lead : String) (d : Dialect) (token : Token) :
    ∃ ks' f', (b.step lead d token).Holds ks' f' ∧
      ∀ ts, Markup.fill ks f.kinds (Markup.levels lead d b.names (token :: ts)) =
        Markup.fill ks' f'.kinds (Markup.levels lead d (b.step lead d token).names ts) := by
  have hne := Markup.levels_ne_nil lead d
  cases token with
  | text s =>
    obtain ⟨g, hg, hkinds⟩ := h.putText s
    refine ⟨ks, g, hg, fun ts => ?_⟩
    rw [Markup.levels, Markup.fill_prependText s (hne b.names ts), hkinds]
    rfl
  | code e =>
    refine ⟨ks, _, h.put _ rfl, fun ts => ?_⟩
    rw [Markup.levels, Markup.fill_prependTree rfl _ (hne b.names ts), kinds_append]
    rfl
  | leaf tag =>
    refine ⟨ks, _, h.put _ rfl, fun ts => ?_⟩
    rw [Markup.levels, Markup.fill_prependTree rfl _ (hne b.names ts), kinds_append]
    rfl
  | raw tag body =>
    obtain ⟨g, hg, hkinds⟩ := (h.enter tag.name (Element.ofMarkup lead d tag)).putText body
    refine ⟨ks, _, hg.leave 1, fun ts => ?_⟩
    have hclosed : (close [⟨f, ⟨b.tree.next, .element (Element.ofMarkup lead d tag)⟩, nil⟩] g).kinds =
        f.kinds ++ Forest.tree (.element (Element.ofMarkup lead d tag)) (ofText body) := by
      rw [close_cons, close_nil, kinds_append, kinds_cons, hkinds]
      rfl
    rw [Markup.levels, Markup.fill_prependTree rfl _ (hne b.names ts), prependText_nil, ← hclosed]
    rfl
  | opening tag =>
    exact ⟨_, _, h.enter tag.name (Element.ofMarkup lead d tag), fun ts => Markup.fill_opening ..⟩
  | closing name source =>
    by_cases hname : name ∈ b.names
    · have hstep : b.step lead d (.closing name source) = b.leave (b.names.idxOf name + 1) := if_pos hname
      have hlt : b.names.idxOf name + 1 ≤ ks.length :=
        h.length_names ▸ List.idxOf_lt_length_of_mem hname
      rw [hstep]
      refine ⟨_, _, h.leave _, fun ts => ?_⟩
      rw [Markup.levels, if_pos hname, Markup.fill_replicate h.last f hlt, names_leave]
    · have hstep : b.step lead d (.closing name source) = b.putText source := if_neg hname
      obtain ⟨g, hg, hkinds⟩ := h.putText source
      rw [hstep]
      refine ⟨ks, g, hg, fun ts => ?_⟩
      rw [Markup.levels, if_neg hname, Markup.fill_prependText source (hne b.names ts), hkinds]
      rfl

theorem Holds.run (h : b.Holds ks f) (lead : String) (d : Dialect) (tokens : List Token) :
    ∃ ks' f', (tokens.foldl (Builder.step lead d) b).Holds ks' f' ∧
      Markup.fill ks f.kinds (Markup.levels lead d b.names tokens) = (close ks' f').kinds := by
  induction tokens generalizing b ks f with
  | nil =>
    refine ⟨ks, f, h, ?_⟩
    have hlevels : Markup.levels lead d b.names [] = List.replicate ks.length nil ++ [nil] := by
      rw [Markup.levels, List.map_const', h.length_names, ← List.replicate_succ', List.replicate_succ]
    rw [hlevels, Markup.fill_replicate h.last f (Nat.le_refl _), List.drop_length, List.take_length]
    exact meet_nil _
  | cons token tokens ih =>
    obtain ⟨ks₁, f₁, hstep, hfill⟩ := h.step lead d token
    obtain ⟨ks₂, f₂, hrun, hclose⟩ := ih hstep
    exact ⟨ks₂, f₂, hrun, (hfill tokens).trans hclose⟩

theorem holds_build (lead : String) (d : Dialect) (tokens : List Token) :
    ∃ ks f, (build lead d tokens).Holds ks f ∧
      (Markup.levels lead d [] tokens).headD nil = (close ks f).kinds := by
  obtain ⟨ks, f, hrun, hfill⟩ := holds_start.run lead d tokens
  exact ⟨ks, f, hrun, hfill⟩

theorem Holds.ids_content (h : b.Holds ks f) : Tree.root :: (close ks f).ids = List.range b.tree.next := by
  have hids := h.ids
  rwa [congrArg Tree.forest h.tree, Tree.ids_around, ids_nil, List.append_nil] at hids

/-- After any tokens, all nodes are in the document, in the order of their making. -/
theorem descendants_build (lead : String) (d : Dialect) (tokens : List Token) :
    (build lead d tokens).tree.descendants Tree.root = List.range (build lead d tokens).tree.next := by
  obtain ⟨ks, f, h, -⟩ := holds_build lead d tokens
  rw [← h.ids_content, h.tree, Tree.descendants_root]

/-- The builder makes the tree that reading gives. -/
theorem tree_build (lead : String) (d : Dialect) (source : String) :
    (build lead d (Token.scan source.toList)).tree = Markup.parse lead d source := by
  obtain ⟨ks, f, h, hcontent⟩ := holds_build lead d (Token.scan source.toList)
  have hids := h.ids_content
  have hnext := congrArg List.length hids
  rw [List.length_cons, List.length_range] at hnext
  rw [← hnext, List.range_eq_range', List.range'_succ, List.cons.injEq] at hids
  rw [h.tree, ← hnext, Markup.parse, Markup.content, hcontent, Tree.ofContent, numberFrom_kinds hids.2,
    Tree.around, Nat.add_comm]
  rfl

end Builder

end HtmlTemplate
