import HtmlTemplate.Proofs.Markup.Building
import HtmlTemplate.Proofs.Text.Bytes

/-! # The shape of what is read

What is read from a source is neat: no text is empty or stands beside text, text and code have
nothing below them, names of elements are in small letters, and an element that takes no content or
only raw text has none or only text (`neat_content`). Seen from the nodes of the tree, this is
`asRead_parse`.
-/

namespace HtmlTemplate

open Forest Context

/-- What a node that is read may be with a forest below it. -/
def Kind.Fits : Kind → Forest Kind → Prop
  | text s, c => s ≠ "" ∧ c = nil
  | code f, c => f.kind = .expression ∧ f.flags = [] ∧ c = nil
  | element e, c =>
    (∀ x ∈ e.tag.toList, x.isUpper = false) ∧ (isVoid e.tag = true → c = nil) ∧
      (isRawText e.tag = true → ∃ s, c = ofText s)
  | _, _ => False

namespace Forest

/-- Every node fits what is below it, and no text stands beside text. -/
def Neat : Forest Kind → Prop
  | nil => True
  | cons k c r => k.Fits c ∧ (k.text? = none ∨ r.first?.bind Kind.text? = none) ∧ Neat c ∧ Neat r

theorem Neat.cons {k : Kind} {c r : Forest Kind} (hk : k.text? = none) (hfits : k.Fits c) (hc : c.Neat)
    (hr : r.Neat) : (cons k c r).Neat :=
  ⟨hfits, Or.inl hk, hc, hr⟩

theorem Neat.of_append {f g : Forest Kind} (h : (f ++ g).Neat) : g.Neat := by
  induction f with
  | nil => exact h
  | cons k c r _ ih => exact ih h.2.2.2

theorem Neat.of_close {ks : Context} {f : Forest Node} (h : (close ks f).kinds.Neat) : f.kinds.Neat := by
  induction ks generalizing f with
  | nil => exact h
  | cons k ks ih =>
    have hk := ih h
    rw [kinds_append] at hk
    exact hk.of_append.2.2.1

theorem Neat.prependText (s : String) {f : Forest Kind} (h : f.Neat) : (Markup.prependText s f).Neat := by
  by_cases hs : s = ""
  · rw [hs, Markup.prependText_empty]
    exact h
  · rw [prependText_eq_touch hs]
    rcases touch_cases f with ⟨u, r, rfl⟩ | htouch
    · obtain ⟨-, hbeside, hnil, hr⟩ := h
      refine ⟨⟨fun hsu => hs (String.append_eq_empty_iff.1 hsu).1, rfl⟩, hbeside.imp nofun id, hnil, hr⟩
    · rw [htouch]
      refine ⟨⟨hs, rfl⟩, Or.inr ?_, trivial, h⟩
      cases f with
      | nil => rfl
      | cons k c r =>
        cases k with
        | text u =>
          -- Text with nothing below it would have taken the new text in.
          obtain rfl : c = nil := h.1.2
          cases (cons.inj (htouch (.text u) nil)).2.2
        | _ => rfl

theorem isUpper_ofChars (u : List Char) : ∀ x ∈ (Tag.ofChars u).name.toList, x.isUpper = false := by
  intro x hx
  rw [Tag.ofChars, String.toList_ofList, Chars.lower] at hx
  obtain ⟨y, -, rfl⟩ := List.mem_map.1 hx
  exact Chars.isUpper_toLower y

theorem neat_content (lead : String) (d : Dialect) (source : String) :
    (Markup.content lead d source).Neat := by
  refine Markup.Composed.content ⟨trivial, fun {tag c r} htag hvoid hraw hc hr => ?_, Neat.prependText,
    fun hr => Neat.cons rfl ⟨rfl, rfl, rfl⟩ trivial hr⟩
  obtain ⟨u, rfl⟩ := Markup.exists_ofChars_of_mem_tags htag
  refine Neat.cons rfl ?_ hc hr
  rw [Kind.Fits, Element.tag_ofMarkup]
  exact ⟨isUpper_ofChars u, hvoid, hraw⟩

end Forest

/-! ## The nodes of a document that was read -/

namespace Markup

variable {lead source : String} {d : Dialect} {n : NodeId} {k : Kind}

theorem nodup_parse (lead : String) (d : Dialect) (source : String) :
    (parse lead d source).forest.ids.Nodup :=
  (shaped_parse lead d source).numbered.nodup

/-- A node is the document, or stands in the document among neat trees. -/
theorem exists_place (h : (parse lead d source).kind? n = some k) :
    n = Tree.root ∧ k = .document ∨ ∃ ks l c r, ks ≠ [] ∧
      (parse lead d source).forest = close ks (l ++ cons ⟨n, k⟩ c r) ∧ (cons k c.kinds r.kinds).Neat := by
  have hnodup := nodup_parse lead d source
  have hforest : (parse lead d source).forest =
      close [documentFrame nil] ((content lead d source).numberFrom 1).1 := rfl
  have hmem := Tree.mem_ids_of_kind? h
  rw [hforest, ids_close, List.mem_append, rest_cons, rest_nil, append_nil] at hmem
  rcases hmem with hroot | hmem
  · left
    obtain rfl : n = Tree.root := by simpa [documentFrame] using hroot
    have hkind : (parse lead d source).kind? Tree.root = some .document := rfl
    exact ⟨rfl, Option.some.inj (h.symm.trans hkind)⟩
  · right
    obtain ⟨ks, l, a, c, r, rfl, hplace⟩ := exists_close (by simpa [documentFrame] using hmem)
    rw [hplace, ← close_append] at hforest
    have hkind := Tree.kind?_at hnodup hforest
    obtain rfl : a.kind = k := Option.some.inj (hkind.symm.trans h)
    refine ⟨_, l, c, r, Tree.documentFrame_ne_nil ks nil, hforest, ?_⟩
    have hneat := neat_content lead d source
    rw [← kinds_numberFrom 1 (content lead d source), hplace] at hneat
    have hlevel := hneat.of_close
    rw [kinds_append] at hlevel
    exact hlevel.of_append

end Markup

theorem Forest.eq_nil_of_kinds {f : Forest Node} (h : f.kinds = nil) : f = nil := by
  cases f with
  | nil => rfl
  | cons a c r => cases h

/-- The shape of a document that was read. -/
structure Tree.AsRead (t : Tree) : Prop where
  attached : ∀ n, n < t.next → t.isAttached n = true
  ordered : t.descendants root = List.range t.next
  text : ∀ n s, t.kind? n = some (.text s) → s ≠ "" ∧ t.children n = [] ∧
    ∀ m u, t.nextSibling? n = some m → t.kind? m ≠ some (.text u)
  code : ∀ n f, t.kind? n = some (.code f) → f.kind = .expression ∧ f.flags = [] ∧ t.children n = []
  element : ∀ n e, t.kind? n = some (.element e) → (∀ x ∈ e.tag.toList, x.isUpper = false) ∧
    (isVoid e.tag = true → t.children n = []) ∧
    (isRawText e.tag = true →
      t.children n = [] ∨ ∃ m s, t.children n = [m] ∧ t.kind? m = some (.text s))
  other : ∀ n k, t.kind? n = some k → k.isMade = false

namespace Markup

variable {lead source : String} {d : Dialect} {n : NodeId}

theorem text_parse {s : String} (h : (parse lead d source).kind? n = some (.text s)) :
    s ≠ "" ∧ (parse lead d source).children n = [] ∧ ∀ m u, (parse lead d source).nextSibling? n = some m →
      (parse lead d source).kind? m ≠ some (.text u) := by
  have hnodup := nodup_parse lead d source
  rcases exists_place h with ⟨-, hk⟩ | ⟨ks, l, c, r, hks, hforest, hfits, hbeside, -, -⟩
  · cases hk
  refine ⟨hfits.1, ?_, fun m u hm hu => ?_⟩
  · rw [Tree.children_at hnodup hforest, eq_nil_of_kinds hfits.2]
    rfl
  · rw [Tree.nextSibling?_at hnodup hforest hks] at hm
    cases r with
    | nil => cases hm
    | cons b e r =>
      obtain rfl : b.id = m := Option.some.inj hm
      have hnext : (parse lead d source).forest = close ks ((l ++ tree ⟨n, .text s⟩ c) ++ cons b e r) := by
        rw [hforest, append_assoc, tree_append]
      rw [Tree.kind?_at hnodup hnext, Option.some.injEq] at hu
      rcases hbeside with hself | hbeside
      · cases hself
      · rw [kinds_cons, hu] at hbeside
        cases hbeside

theorem code_parse {f : Fragment} (h : (parse lead d source).kind? n = some (.code f)) :
    f.kind = .expression ∧ f.flags = [] ∧ (parse lead d source).children n = [] := by
  rcases exists_place h with ⟨-, hk⟩ | ⟨ks, l, c, r, -, hforest, hfits, -⟩
  · cases hk
  refine ⟨hfits.1, hfits.2.1, ?_⟩
  rw [Tree.children_at (nodup_parse lead d source) hforest, eq_nil_of_kinds hfits.2.2]
  rfl

theorem element_parse {e : Element} (h : (parse lead d source).kind? n = some (.element e)) :
    (∀ x ∈ e.tag.toList, x.isUpper = false) ∧
    (isVoid e.tag = true → (parse lead d source).children n = []) ∧
    (isRawText e.tag = true → (parse lead d source).children n = [] ∨
      ∃ m s, (parse lead d source).children n = [m] ∧ (parse lead d source).kind? m = some (.text s)) := by
  have hnodup := nodup_parse lead d source
  rcases exists_place h with ⟨-, hk⟩ | ⟨ks, l, c, r, -, hforest, hfits, -⟩
  · cases hk
  obtain ⟨htag, hvoid, hraw⟩ := hfits
  rw [Tree.children_at hnodup hforest]
  refine ⟨htag, fun h => ?_, fun h => ?_⟩
  · rw [eq_nil_of_kinds (hvoid h)]
    rfl
  · obtain ⟨s, hs⟩ := hraw h
    unfold ofText at hs
    split at hs
    · rw [eq_nil_of_kinds hs]
      exact Or.inl rfl
    · cases c with
      | nil => cases hs
      | cons a b r' =>
        obtain ⟨ha, -, hr⟩ := cons.inj hs
        obtain rfl := eq_nil_of_kinds hr
        have hchild : (parse lead d source).forest =
            close (⟨l, ⟨n, .element e⟩, r⟩ :: ks) (nil ++ cons a b nil) := hforest
        exact Or.inr ⟨a.id, s, rfl, (Tree.kind?_at hnodup hchild).trans (congrArg some ha)⟩

theorem isMade_parse {k : Kind} (h : (parse lead d source).kind? n = some k) : k.isMade = false := by
  rcases exists_place h with ⟨-, rfl⟩ | ⟨ks, l, c, r, -, -, hfits, -⟩
  · rfl
  · cases k with
    | text | code | element => rfl
    | _ => exact hfits.elim

theorem descendants_parse (lead : String) (d : Dialect) (source : String) :
    (parse lead d source).descendants Tree.root = List.range (parse lead d source).next := by
  rw [← Builder.tree_build]
  exact Builder.descendants_build lead d _

theorem isAttached_parse (hn : n < (parse lead d source).next) : (parse lead d source).isAttached n = true := by
  have hmem : n ∈ (parse lead d source).descendants Tree.root := by
    rw [descendants_parse]
    exact List.mem_range.2 hn
  have hparse : parse lead d source =
      Tree.around [] ((content lead d source).numberFrom 1).1 nil (parse lead d source).next none := rfl
  rw [hparse, Tree.descendants_root, List.mem_cons] at hmem
  rcases hmem with rfl | hmem
  · rfl
  · rw [hparse]
    exact Tree.isAttached_of_mem (hparse ▸ nodup_parse lead d source) hmem

/-- Reading a source makes its nodes in the order of what they stand for in the source, and after every
token the nodes made so far are those of the document in document order. All nodes of the result
are in the document; no text is empty or beside text; text and code have nothing below them, and
code is an expression without flags; elements are named in small letters, void ones have nothing
below them and raw text elements one text at most; there is nothing else. -/
theorem asRead_parse (lead : String) (d : Dialect) (source : String) :
    (Builder.build lead d (Token.scan source.toList)).tree = parse lead d source ∧
    (∀ k, let made := (Builder.build lead d ((Token.scan source.toList).take k)).tree
      made.descendants Tree.root = List.range made.next) ∧
    (parse lead d source).AsRead :=
  ⟨Builder.tree_build lead d source, fun _ => Builder.descendants_build lead d _,
    fun _ => isAttached_parse, descendants_parse lead d source, fun _ _ => text_parse, fun _ _ => code_parse,
    fun _ _ => element_parse, fun _ _ => isMade_parse⟩

end Markup

end HtmlTemplate
