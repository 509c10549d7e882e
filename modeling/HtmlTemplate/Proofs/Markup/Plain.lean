import HtmlTemplate.Chunk
import HtmlTemplate.Proofs.Markup.Content
import HtmlTemplate.Proofs.Markup.Tag

/-! # Plain documents and their source

A plain document consists of elements and text, with names and text in which nothing has a meaning of its
own. Its source is that of its nodes one after the other (`source_text`, `source_void`, `source_element`),
and a start tag in it is read as the element it was written for, with the quotes in its values as entities
(`ofMarkup_quotes`).
-/

namespace HtmlTemplate

open Forest Chars

/-! ## Plain documents -/

/-- What begins an interpolation. -/
def interpolation : List Char := ['\x7b', '\x7b']

/-- A text without interpolation. -/
def AttrValue.Static : AttrValue → Prop
  | text v => ¬ interpolation <:+: v.toList
  | code _ => False

instance : (v : AttrValue) → Decidable v.Static
  | .text v => inferInstanceAs (Decidable (¬ interpolation <:+: v.toList))
  | .code _ => isFalse id

/-- An element that is no matter of directives, with names that stand for themselves. -/
def Element.Plain (lead : String) (e : Element) : Prop :=
  isPlainTag e.tag = true ∧ (e.attributes.map Prod.fst).Nodup ∧
    ∀ a ∈ e.attributes, isPlainName a.1 = true ∧ ¬ lead.toList <+: a.1.toList ∧ a.2.Static
deriving Decidable

/-- Text that neither markup nor interpolation interrupts. -/
def PlainText (s : String) : Prop :=
  s ≠ "" ∧ '<' ∉ s.toList ∧ ¬ interpolation <:+: s.toList
deriving Decidable

namespace Forest

/-- The body of a raw text element: text without the end tag of the element in letters of whatever
case. -/
def RawBody (tag : String) : Forest Kind → Prop
  | nil => True
  | cons (.text s) nil nil => s ≠ "" ∧ ¬ ('<' :: '/' :: tag.toList) <:+: lower s.toList
  | _ => False

instance (tag : String) (f : Forest Kind) : Decidable (f.RawBody tag) := by
  unfold RawBody
  split <;> infer_instance

def Plain (lead : String) : Forest Kind → Prop
  | nil => True
  | cons (.text s) c r => PlainText s ∧ c = nil ∧ r.first?.bind Kind.text? = none ∧ Plain lead r
  | cons (.element e) c r => e.Plain lead ∧
      (if isVoid e.tag then c = nil else if isRawText e.tag then c.RawBody e.tag else Plain lead c) ∧
      Plain lead r
  | _ => False

instance decidablePlain (lead : String) : (f : Forest Kind) → Decidable (f.Plain lead)
  | nil => isTrue trivial
  | cons k c r =>
    have := decidablePlain lead c
    have := decidablePlain lead r
    match k with
    | .text s => inferInstanceAs
        (Decidable (PlainText s ∧ c = nil ∧ r.first?.bind Kind.text? = none ∧ r.Plain lead))
    | .element e => inferInstanceAs (Decidable (e.Plain lead ∧
        (if isVoid e.tag then c = nil else if isRawText e.tag then c.RawBody e.tag else c.Plain lead) ∧
        r.Plain lead))
    | .document | .code _ | .conditional _ | .branch | .loop _ => isFalse id

end Forest

/-- The value with its quotes as entities. -/
def AttrValue.quoted : AttrValue → AttrValue
  | text v => text (escapeQuotes v)
  | code f => code f

/-- The node with the quotes in its attributes as entities. -/
def Kind.quoted : Kind → Kind :=
  Kind.mapElement fun e => { e with attributes := e.attributes.map fun a => (a.1, a.2.quoted) }

/-! ## What is written -/

namespace Chunk

variable {d : Dialect}

theorem emit_cons (c : Chunk) (cs : List Chunk) : emit d (c :: cs) = c.render d ++ emit d cs := by
  rw [emit, List.map_cons, String.join_cons, emit]

theorem emit_push (c : Chunk) (cs : List Chunk) : emit d (push c cs) = c.render d ++ emit d cs := by
  cases c with
  | code f => exact emit_cons ..
  | text s =>
    cases cs with
    | nil =>
      rw [push]
      · split
        · rename_i hs
          simp [render, hs]
        · exact emit_cons ..
      · rintro _ _ ⟨⟩
    | cons c cs =>
      cases c with
      | text t => rw [push, emit_cons, emit_cons, ← String.append_assoc]; rfl
      | code f =>
        rw [push]
        · split
          · rename_i hs
            simp [render, hs]
          · exact emit_cons ..
        · rintro _ _ ⟨⟩

/-- Joining texts does not change the output. -/
theorem emit_join (cs : List Chunk) : emit d (join cs) = emit d cs := by
  induction cs with
  | nil => rfl
  | cons c cs ih => rw [join, emit_push, ih, emit_cons]

theorem toList_emit (cs : List Chunk) : (emit d cs).toList = cs.flatMap fun c => (c.render d).toList := by
  rw [emit, String.toList_join, List.flatMap_map]

end Chunk

namespace Forest

variable {d : Dialect}

/-- The source of a forest. -/
def source (d : Dialect) (f : Forest Kind) : List Char :=
  (Block.sequence (f.blocks d)).flatMap fun c => (c.render d).toList

theorem toList_render (f : Forest Kind) : (f.render d).toList = f.source d := by
  rw [render, chunks, Chunk.emit_join, Chunk.toList_emit, source]

theorem source_cons (k : Kind) (c r : Forest Kind) :
    (cons k c r).source d =
      ((k.chunks d (c.blocks d)).flatMap fun c => (c.render d).toList) ++ r.source d := by
  rw [source, blocks, Block.sequence, List.flatMap_cons, List.flatMap_append]
  rfl

theorem source_text (s : String) (c r : Forest Kind) :
    (cons (.text s) c r).source d = s.toList ++ r.source d := by
  rw [source_cons]
  simp [Kind.chunks, Chunk.render]

/-- The attributes with the quotes in their values as entities. -/
def quotes (attributes : List (String × String)) : List (String × String) :=
  attributes.map fun a => (a.1, escapeQuotes a.2)

theorem source_startChunks {e : Element} {attributes : List (String × String)}
    (he : e.attributes = attributes.map fun a => (a.1, .text a.2)) :
    (e.startChunks.flatMap fun c => (c.render d).toList) =
      '<' :: (inside e.tag (quotes attributes) ++ ['>']) := by
  have hattributes : ((e.attributes.flatMap Element.attributeChunks).flatMap
      fun c => (c.render d).toList) = (quotes attributes).flatMap attributeText := by
    rw [he, quotes, List.flatMap_map, List.flatMap_map, List.flatMap_assoc]
    refine List.flatMap_congr fun a _ => ?_
    simp [Element.attributeChunks, Chunk.render, attributeText]
  rw [Element.startChunks, List.flatMap_cons, List.flatMap_append, hattributes, inside]
  simp [Chunk.render]

section Element

variable {e : Element} {attributes : List (String × String)}
  (he : e.attributes = attributes.map fun a => (a.1, .text a.2))
include he

theorem source_void (hvoid : isVoid e.tag = true) (c r : Forest Kind) :
    (cons (.element e) c r).source d =
      '<' :: (inside e.tag (quotes attributes) ++ '>' :: r.source d) := by
  rw [source_cons, Kind.chunks, if_pos hvoid, source_startChunks he]
  simp

theorem source_element (hvoid : isVoid e.tag = false) (c r : Forest Kind) :
    (cons (.element e) c r).source d =
      '<' :: (inside e.tag (quotes attributes) ++ '>' ::
        (c.source d ++ '<' :: '/' :: (e.tag.toList ++ '>' :: r.source d))) := by
  rw [source_cons, Kind.chunks, if_neg (by simp [hvoid]), List.flatMap_append, List.flatMap_append,
    source_startChunks he]
  simp [Chunk.render, source]

end Element

end Forest

/-! ## Values of attributes -/

theorem toList_escapeQuotes (v : String) :
    (escapeQuotes v).toList =
      v.toList.flatMap fun c => if c = '"' then ['&', 'q', 'u', 'o', 't', ';'] else [c] :=
  String.toList_ofList

theorem quote_not_mem (v : String) : '"' ∉ (escapeQuotes v).toList := by
  rw [toList_escapeQuotes, List.mem_flatMap]
  rintro ⟨c, -, hc⟩
  split at hc
  · revert hc
    decide
  · rename_i hne
    exact hne (List.mem_singleton.1 hc).symm

/-- Writing quotes as entities makes no interpolation. -/
theorem not_infix_escape {s : List Char} (h : ¬ interpolation <:+: s) :
    ¬ interpolation <:+:
      s.flatMap fun c => if c = '"' then ['&', 'q', 'u', 'o', 't', ';'] else [c] := by
  induction s with
  | nil => exact h
  | cons c s ih =>
    rw [List.infix_cons_iff, not_or] at h
    have hs := ih h.2
    rw [List.flatMap_cons]
    split
    · simpa [interpolation, List.infix_cons_iff, List.cons_prefix_cons] using hs
    · rw [List.singleton_append, List.infix_cons_iff, not_or]
      refine ⟨fun hprefix => h.1 ?_, hs⟩
      -- Two braces in a row were there before: the second is no part of an entity.
      obtain ⟨hc, hnext⟩ := List.cons_prefix_cons.1 hprefix
      rw [interpolation, List.cons_prefix_cons]
      refine ⟨hc, ?_⟩
      cases s with
      | nil => simp at hnext
      | cons c' s =>
        rw [List.flatMap_cons] at hnext
        split at hnext
        · simp [List.cons_prefix_cons] at hnext
        · rw [List.singleton_append, List.cons_prefix_cons] at hnext
          rw [List.cons_prefix_cons]
          exact ⟨hnext.1, List.nil_prefix⟩

theorem ofSource_static {lead name v : String} {d : Dialect} (hname : ¬ lead.toList <+: name.toList)
    (hv : ¬ interpolation <:+: v.toList) : AttrValue.ofSource lead d name (some v) = .text v := by
  have hfirst : Part.first? v.toList = none := by
    have hbreak : breakAt ['\x7b', '\x7b'].isPrefixOf v.toList = (v.toList, []) :=
      breakAt_of_not_infix hv
    rw [Part.first?, hbreak]
  have hparts : (Part.ofChars v.toList).any Part.isCode = false := by
    rw [Part.ofChars]
    split
    · rw [Part.literalOf]
      split <;> rfl
    · rename_i hsome
      rw [hfirst] at hsome
      cases hsome
  have hlead : lead.toList.isPrefixOf name.toList = false := by
    rw [Bool.eq_false_iff, ne_eq, List.isPrefixOf_iff_prefix]
    exact hname
  simp [AttrValue.ofSource, hlead, hparts]

namespace Element

theorem setIn_new {name : String} {value : AttrValue} {l : List (String × AttrValue)}
    (h : name ∉ l.map Prod.fst) : setIn name value l = l ++ [(name, value)] := by
  induction l with
  | nil => rfl
  | cons a l ih =>
    rw [List.map_cons, List.mem_cons, not_or] at h
    rw [setIn, if_neg (Ne.symm h.1), ih h.2]
    rfl

/-- Attributes of different names are kept in the order in which they are set. -/
theorem foldl_set {β : Type} (value : String × β → AttrValue) {tag : String}
    {before : List (String × AttrValue)} {l : List (String × β)}
    (h : (before.map Prod.fst ++ l.map Prod.fst).Nodup) :
    l.foldl (fun e a => set e a.1 (value a)) (Element.mk tag before) =
      Element.mk tag (before ++ l.map fun a => (a.1, value a)) := by
  induction l generalizing before with
  | nil => simp
  | cons a l ih =>
    have hnew : a.1 ∉ before.map Prod.fst := fun ha =>
      (List.nodup_append.1 h).2.2 _ ha _ List.mem_cons_self rfl
    rw [List.foldl_cons, set, setIn_new hnew, ih]
    · simp
    · simpa using h

/-- The element of a start tag that was written for a plain element. -/
theorem ofMarkup_quotes {lead : String} {d : Dialect} {e : Element}
    {attributes : List (String × String)} (hplain : e.Plain lead)
    (he : e.attributes = attributes.map fun a => (a.1, .text a.2)) :
    ofMarkup lead d (Tag.ofTexts e.tag (quotes attributes)) =
      { e with attributes := e.attributes.map fun a => (a.1, a.2.quoted) } := by
  obtain ⟨-, hdistinct, hattributes⟩ := hplain
  rw [ofMarkup, ofTag, Tag.ofTexts, foldl_set fun a => AttrValue.ofSource lead d a.1 a.2]
  · refine congrArg (Element.mk e.tag) ?_
    rw [he, quotes, List.map_map, List.map_map, List.map_map, List.nil_append]
    refine List.map_congr_left fun a ha => ?_
    obtain ⟨-, hname, hstatic⟩ := hattributes (a.1, .text a.2) (he ▸ List.mem_map_of_mem ha)
    refine congrArg (Prod.mk a.1) (ofSource_static hname ?_)
    rw [toList_escapeQuotes]
    exact not_infix_escape hstatic
  · rw [he] at hdistinct
    simpa [quotes, Function.comp_def] using hdistinct

end Element

end HtmlTemplate
