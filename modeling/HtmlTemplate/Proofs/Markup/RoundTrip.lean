import HtmlTemplate.Dialect.Php
import HtmlTemplate.Proofs.Markup.Plain
import HtmlTemplate.Proofs.Markup.Text

/-! # Reading undoes writing

The source of a plain document is cut into tokens where it was put together (`scan_opening`, `scan_text`,
`scan_closing`), and the tokens nest as the nodes did (`levels_source`), so that reading it gives the
document back.
-/

namespace HtmlTemplate

open Forest Chars

/-! ## The tokens of what is written -/

theorem Element.Plain.exists_texts {lead : String} {e : Element} (h : e.Plain lead) :
    ∃ attributes : List (String × String), e.attributes = attributes.map fun a => (a.1, .text a.2) := by
  obtain ⟨-, -, hattributes⟩ := h
  generalize e.attributes = l at hattributes
  induction l with
  | nil => exact ⟨[], rfl⟩
  | cons a l ih =>
    obtain ⟨-, -, hstatic⟩ := hattributes a List.mem_cons_self
    obtain ⟨attributes, hl⟩ := ih fun x hx => hattributes x (List.mem_cons_of_mem _ hx)
    obtain ⟨name, v | f⟩ := a
    · exact ⟨(name, v) :: attributes, by rw [hl, List.map_cons]⟩
    · exact hstatic.elim

theorem isPlainName_quotes {lead : String} {e : Element} {attributes : List (String × String)}
    (h : e.Plain lead) (he : e.attributes = attributes.map fun a => (a.1, .text a.2)) :
    ∀ a ∈ quotes attributes, isPlainName a.1 = true ∧ '"' ∉ a.2.toList := by
  intro a ha
  obtain ⟨b, hb, rfl⟩ := List.mem_map.1 ha
  obtain ⟨hname, -⟩ := h.2.2 (b.1, .text b.2) (he ▸ List.mem_map_of_mem hb)
  exact ⟨hname, quote_not_mem _⟩

namespace Token

section Opening

variable {tag : String} {attributes : List (String × String)} (htag : isPlainTag tag = true)
  (hattributes : ∀ a ∈ attributes, isPlainName a.1 = true ∧ '"' ∉ a.2.toList) (r : List Char)
include htag hattributes

/-- A start tag that was written is the next token. -/
theorem scan_opening :
    scan ('<' :: (inside tag attributes ++ '>' :: r)) =
      if isVoid tag then leaf (Tag.ofTexts tag attributes) :: scan r
      else if isRawText tag then
        raw (Tag.ofTexts tag attributes) (String.ofList (rawBody tag r).1) :: scan (rawBody tag r).2
      else opening (Tag.ofTexts tag attributes) :: scan r := by
  obtain ⟨c, s, hs, halpha, hbang, hquestion, hslash⟩ := exists_letter htag
  obtain ⟨x, hlast, hx⟩ := getLast?_inside htag attributes
  obtain ⟨w, hw⟩ : ∃ w, inside tag attributes ++ '>' :: r = c :: w := by
    rw [inside, hs]
    exact ⟨_, rfl⟩
  have haside : aside? ('<' :: c :: w) = none := by
    unfold aside?
    split <;> simp_all
  have hclosing : closing? ('<' :: c :: w) = none := by
    unfold closing?
    split <;> simp_all
  have hcut := cutTag_inside htag hattributes r
  rw [hw] at hcut
  have hend : ¬ some x = some '/' := by simpa using hx
  rw [hw, scan, next, haside, hclosing, opening?, if_pos halpha, hcut, Option.map_some,
    dropTail_inside htag, Tag.ofChars_inside htag hattributes]
  simp only [hlast, hend, false_or, Tag.ofTexts]
  by_cases hvoid : isVoid tag = true
  · simp [hvoid]
  · by_cases hraw : isRawText tag = true
    · simp [hvoid, hraw]
    · simp [hvoid, hraw]

end Opening

/-- An end tag that was written is the next token. -/
theorem scan_closing {tag : String} (htag : isPlainTag tag = true) (r : List Char) :
    scan ('<' :: '/' :: (tag.toList ++ '>' :: r)) =
      closing tag (String.ofList ('<' :: '/' :: (tag.toList ++ ['>']))) :: scan r := by
  have hbracket : '>' ∉ tag.toList := fun h =>
    absurd (isTagChar_of_mem htag _ h) (by decide)
  rw [scan, next, aside?, closing?, cut_bracket hbracket, Option.map_some, trim_tag htag, lower_tag htag,
    String.ofList_toList]
  · rfl
  all_goals simp

/-- Nothing begins within a plain text before a tag. -/
theorem mayBegin_plain {s : String} (h : PlainText s) {r : List Char}
    (hr : r = [] ∨ ∃ r', r = '<' :: r') {u v : List Char} {c : Char} (hs : s.toList = u ++ c :: v) :
    mayBegin (c :: (v ++ r)) = false := by
  obtain ⟨-, hbracket, hbraces⟩ := h
  have hc : c ≠ '<' := by
    rintro rfl
    exact hbracket (by simp [hs])
  unfold mayBegin
  split
  · rename_i heq
    cases heq
    exact absurd rfl hc
  · rename_i heq
    obtain ⟨rfl, hnext⟩ := List.cons_eq_cons.1 heq
    cases v with
    | nil => rcases hr with rfl | ⟨r', rfl⟩ <;> simp at hnext
    | cons c' v =>
      obtain ⟨rfl, -⟩ := List.cons_eq_cons.1 hnext
      exact absurd ⟨u, v, by simp [hs, interpolation]⟩ hbraces
  · rfl

/-- Text goes up to the next tag. -/
theorem scan_text {s : String} (h : PlainText s) {r : List Char}
    (hr : r = [] ∨ ∃ r', r = '<' :: r') : scan (s.toList ++ r) = text s :: scan r := by
  have hbreak : breakAt mayBegin r = ([], r) := by
    rcases hr with rfl | ⟨r', rfl⟩
    · rfl
    · exact breakAt_self rfl
  cases hs : s.toList with
  | nil => exact absurd (String.toList_eq_nil_iff.1 hs) h.1
  | cons c t =>
    have hskip : breakAt mayBegin (t ++ r) = (t ++ (breakAt mayBegin r).1, (breakAt mayBegin r).2) :=
      breakAt_skip fun u c' v ht => mayBegin_plain h hr (u := c :: u) (by rw [hs, ht]; rfl)
    have hfirst : mayBegin (c :: (t ++ r)) = false := mayBegin_plain h hr (u := []) hs
    rw [List.cons_append, scan, next_text hfirst, hskip, hbreak, List.append_nil, ← hs,
      String.ofList_toList]

/-- The body of a raw text element ends at the end tag that was written. -/
theorem rawBody_append {tag : String} (htag : isPlainTag tag = true) {body : List Char}
    (h : ¬ ('<' :: '/' :: tag.toList) <:+: lower body) (r : List Char) :
    rawBody tag (body ++ '<' :: '/' :: (tag.toList ++ '>' :: r)) = (body, r) := by
  have hlower : lower ('<' :: '/' :: tag.toList) = '<' :: '/' :: tag.toList := by
    rw [lower, List.map_cons, List.map_cons, ← lower, lower_tag htag]
    rfl
  have hchars := isTagChar_of_mem htag
  have hbracket : '<' ∉ '/' :: tag.toList := by
    rintro (⟨⟩ | ⟨_, hmem⟩)
    exact absurd (hchars _ hmem) (by decide)
  have hskip : ∀ u c v, body = u ++ c :: v → beginsFolded ('<' :: '/' :: tag.toList)
      (c :: (v ++ '<' :: '/' :: (tag.toList ++ '>' :: r))) = false := by
    intro u c v hbody
    rw [beginsFolded, hlower, Bool.eq_false_iff, ne_eq, List.isPrefixOf_iff_prefix]
    intro hprefix
    obtain ⟨w, hw⟩ := hprefix.trans (List.IsPrefix.map Char.toLower (List.take_prefix _ _))
    have hinfix : ¬ ('<' :: '/' :: tag.toList) <+: lower (c :: v) := by
      rintro ⟨x, hx⟩
      refine h ⟨lower u, x, ?_⟩
      rw [hbody, List.append_assoc, hx, lower, lower, lower, List.map_append]
    rw [← List.cons_append, List.map_append] at hw
    -- An end tag that begins in the body and ends behind it would have a bracket in its name.
    rcases List.append_eq_append_iff.1 hw with ⟨x, hx, -⟩ | ⟨x, hx, hrest⟩
    · exact hinfix ⟨x, hx.symm⟩
    · cases x with
      | nil => exact hinfix ⟨[], by rw [hx, List.append_nil, List.append_nil]; rfl⟩
      | cons c' x =>
        obtain rfl : '<' = c' := (List.cons_eq_cons.1 hrest).1
        obtain ⟨-, htail⟩ := List.cons_eq_cons.1 hx
        exact hbracket (htail ▸ by simp)
  have hself : breakAt (beginsFolded ('<' :: '/' :: tag.toList))
      ('<' :: '/' :: (tag.toList ++ '>' :: r)) = ([], '<' :: '/' :: (tag.toList ++ '>' :: r)) := by
    refine breakAt_self ?_
    rw [beginsFolded, ← List.cons_append, ← List.cons_append, List.take_left,
      List.isPrefixOf_iff_prefix]
  have hend : '>' ∉ '<' :: '/' :: tag.toList := by
    rintro (⟨⟩ | ⟨_, ⟨⟩ | ⟨_, hmem⟩⟩)
    exact absurd (hchars _ hmem) (by decide)
  have hcut : cut ['>'] ('<' :: '/' :: (tag.toList ++ '>' :: r)) = some ('<' :: '/' :: tag.toList, r) :=
    cut_bracket hend
  rw [rawBody, breakAt_skip hskip, hself]
  simp only [hcut, List.append_nil]

end Token

/-! ## The document of what is written -/

namespace Forest

variable {lead : String} {d : Dialect} {f r : Forest Kind}

theorem first?_map {α β : Type} (h : α → β) (f : Forest α) : (f.map h).first? = f.first?.map h := by
  cases f <;> rfl

theorem text?_quoted (k : Kind) : k.quoted.text? = k.text? := by
  cases k <;> rfl

/-- Where no text stands at the front, markup does. -/
theorem source_front (h : f.Plain lead) (hfirst : f.first?.bind Kind.text? = none) :
    f.source d = [] ∨ ∃ s, f.source d = '<' :: s := by
  cases f with
  | nil => exact Or.inl rfl
  | cons k c r =>
    cases k with
    | element e =>
      obtain ⟨attributes, he⟩ := h.1.exists_texts
      refine Or.inr ?_
      by_cases hvoid : isVoid e.tag = true
      · exact ⟨_, source_void he hvoid c r⟩
      · exact ⟨_, source_element he (Bool.eq_false_iff.2 hvoid) c r⟩
    | text s => cases hfirst
    | _ => exact h.elim

theorem prependText_plain {s : String} (hs : s ≠ "") (hfirst : f.first?.bind Kind.text? = none) :
    Markup.prependText s f = cons (.text s) nil f := by
  unfold Markup.prependText
  split
  · cases hfirst
  · rw [if_neg hs]

theorem RawBody.exists_text {tag : String} (h : f.RawBody tag) :
    ∃ s, f.source d = s ∧ ¬ ('<' :: '/' :: tag.toList) <:+: lower s ∧
      Markup.prependText (String.ofList s) nil = f.map Kind.quoted := by
  unfold RawBody at h
  split at h
  · exact ⟨[], rfl, by simp [lower], rfl⟩
  · rename_i s
    refine ⟨s.toList, ?_, h.2, ?_⟩
    · rw [source_text]
      exact List.append_nil _
    · rw [String.ofList_toList, prependText_plain h.1 rfl]
      rfl
  · exact h.elim

/-- The tokens of a plain forest nest as its nodes do, whatever follows it. -/
theorem levels_source {opened : List String} {rest : List Char} {fs : List (Forest Kind)}
    (h : f.Plain lead) (hrest : rest = [] ∨ ∃ s, rest = '<' :: s)
    (hlevels : Markup.levels lead d opened (Token.scan rest) = nil :: fs) :
    Markup.levels lead d opened (Token.scan (f.source d ++ rest)) = f.map Kind.quoted :: fs := by
  induction f generalizing opened rest fs with
  | nil => exact hlevels
  | cons k c r ihc ihr =>
    cases k with
    | text s =>
      obtain ⟨hs, rfl, hfirst, hr⟩ := h
      have hfront : r.source d ++ rest = [] ∨ ∃ s, r.source d ++ rest = '<' :: s := by
        rcases source_front (d := d) hr hfirst with hnil | ⟨u, hu⟩
        · rw [hnil]
          exact hrest
        · exact Or.inr ⟨u ++ rest, by rw [hu]; rfl⟩
      have htext : (r.map Kind.quoted).first?.bind Kind.text? = none := by
        rw [first?_map, Option.bind_map, ← hfirst]
        exact congrArg _ (funext text?_quoted)
      rw [source_text, List.append_assoc, Token.scan_text hs hfront, Markup.levels,
        ihr hr hrest hlevels, List.modifyHead_cons, prependText_plain hs.1 htext]
      rfl
    | element e =>
      obtain ⟨he, hc, hr⟩ := h
      obtain ⟨attributes, htexts⟩ := he.exists_texts
      have hnames := isPlainName_quotes he htexts
      have hmarkup := Element.ofMarkup_quotes (d := d) he htexts
      have hr' := ihr hr hrest hlevels
      by_cases hvoid : isVoid e.tag = true
      · rw [if_pos hvoid] at hc
        rw [source_void htexts hvoid, List.cons_append, List.append_assoc, List.cons_append,
          Token.scan_opening he.1 hnames, if_pos hvoid, Markup.levels, hmarkup, hr', hc]
        rfl
      · rw [if_neg hvoid] at hc
        have hsource : (cons (.element e) c r).source d ++ rest =
            '<' :: (inside e.tag (quotes attributes) ++ '>' ::
              (c.source d ++ '<' :: '/' :: (e.tag.toList ++ '>' :: (r.source d ++ rest)))) := by
          rw [source_element htexts (Bool.eq_false_iff.2 hvoid)]
          simp
        rw [hsource, Token.scan_opening he.1 hnames, if_neg hvoid]
        by_cases hraw : isRawText e.tag = true
        · rw [if_pos hraw] at hc
          obtain ⟨s, hs, hend, hbody⟩ := hc.exists_text (d := d)
          rw [if_pos hraw, hs, Token.rawBody_append he.1 hend, Markup.levels, hmarkup, hr', hbody]
          rfl
        · rw [if_neg hraw] at hc
          have hclosing : Markup.levels lead d (e.tag :: opened)
              (Token.scan ('<' :: '/' :: (e.tag.toList ++ '>' :: (r.source d ++ rest)))) =
                nil :: r.map Kind.quoted :: fs := by
            rw [Token.scan_closing he.1, Markup.levels, if_pos List.mem_cons_self]
            simp [hr']
          have hname : (Tag.ofTexts e.tag (quotes attributes)).name = e.tag := rfl
          rw [if_neg hraw, Markup.levels, hname, ihc hc (Or.inr ⟨_, rfl⟩) hclosing, hmarkup]
          rfl
    | _ => exact h.elim

theorem kindsAt_ofContent (f : Forest Kind) : (Tree.ofContent f).kindsAt Tree.root = tree .document f :=
  congrArg (tree Kind.document) (kinds_numberFrom 1 f)

theorem content_render (h : f.Plain lead) :
    Markup.content lead d (f.render d) = f.map Kind.quoted := by
  have hnil : Markup.levels lead d [] (Token.scan []) = [nil] := by
    rw [Token.scan]
    rfl
  have hlevels := levels_source h (Or.inl rfl) hnil
  rw [List.append_nil] at hlevels
  rw [Markup.content, toList_render, hlevels]
  rfl

end Forest

/-- Reading what is written for a plain document gives the document, with the quotes in its attributes as
entities. -/
theorem parse_render (lead : String) (d : Dialect) (t : Tree) (f : Forest Kind)
    (ht : t.kindsAt Tree.root = tree .document f) (hf : f.Plain lead) :
    (Markup.parse lead d (t.render d Tree.root)).kindsAt Tree.root =
      (t.kindsAt Tree.root).map Kind.quoted := by
  have hrender : t.render d Tree.root = f.render d := by
    refine String.toList_inj.1 ?_
    rw [Tree.render, ht, toList_render, toList_render, tree, source_cons, Kind.chunks]
    exact List.append_nil _
  rw [hrender, Markup.parse, content_render hf, ht, kindsAt_ofContent]
  rfl

/-- A document with brackets and quotes in a value, a void element, and a script that looks like
markup. -/
theorem parse_render_script :
    let f : Forest Kind :=
      cons (.element ⟨"a-b", [("title", .text "<\">'")]⟩)
        (cons (.text "x > y \x7b") nil (cons (.element ⟨"br", []⟩) nil (cons (.text "z") nil nil)))
        (cons (.element ⟨"script", []⟩) (cons (.text "if (a </b) \x7b\x7b c") nil nil) nil)
    let t := Tree.ofContent f
    t.kindsAt Tree.root = tree .document f ∧ f.Plain ":" ∧
      (Markup.parse ":" .php (t.render .php Tree.root)).kindsAt Tree.root =
        (t.kindsAt Tree.root).map Kind.quoted := by
  intro f t
  have ht : t.kindsAt Tree.root = tree .document f := kindsAt_ofContent f
  have hf : f.Plain ":" := by decide
  exact ⟨ht, hf, parse_render ":" .php t f ht hf⟩

end HtmlTemplate
