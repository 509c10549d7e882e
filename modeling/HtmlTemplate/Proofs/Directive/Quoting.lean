import HtmlTemplate.Compiler
import HtmlTemplate.Proofs.Dialect.Literal
import HtmlTemplate.Proofs.Directive.Attributes
import HtmlTemplate.Proofs.Markup.Interpolation

/-! # Static text in attribute values

An attribute value is static text of its start tag, a call or statement of a directive, or a concatenation of
static text and host code. `Assembled` says how values come about, from their start tag on, and no step of the
pass makes any other (`Tree.Stems.follow`). Static text that is kept as text, or that a class list begins with,
is written without quotes. What stands around the expressions of an interpolated value is put in as it is.
-/

namespace HtmlTemplate

open Forest HtmlTemplate.Tree

/-! ## Operands -/

/-- An operand of a concatenation: static text of the source, or host code. -/
inductive Operand where
  | static (text : String)
  | host (code : String)
  deriving DecidableEq, Repr

namespace Operand

def code (d : Dialect) : Operand → String
  | static t => d.literal t
  | host c => c

def ofPart (d : Dialect) : Part → Operand
  | .literal t => static t
  | .code e => host (d.escape e)

/-- The operands of a value as it is written. Text without interpolation has none. -/
def ofWritten (d : Dialect) (value : String) : List Operand :=
  let parts := Part.ofChars value.toList
  if parts.any Part.isCode then parts.map (ofPart d) else []

/-- The operands of a class list with more code at its end. -/
def ofClass (operands : List Operand) (code : String) : AttrValue → List Operand
  | .text c => [static (escapeQuotes c ++ " "), host code]
  | .code f => if f.isStatement then [host code] else operands ++ [static " ", host code]

end Operand

open Operand

/-- Code that concatenates operands, with or without blanks and semicolons at its ends. -/
inductive Concatenates (d : Dialect) : List Operand → String → Prop where
  | one (x : Operand) : Concatenates d [x] (x.code d)
  | more {xs : List Operand} {code : String} (h : Concatenates d xs code) (x : Operand) :
    Concatenates d (xs ++ [x]) (d.concat code (x.code d))
  | trimmed {xs : List Operand} {code : String} (h : Concatenates d xs code) :
    Concatenates d xs (Fragment.expression code).code

/-! ## Where values come from -/

/-- Code that a start tag gives to a directive as its parameter. -/
def Tag.Passes (lead : String) (d : Dialect) (tag : Tag) (code : String) : Prop :=
  ∃ value : Option AttrValue, code = AttrValue.parameterCode d (Registry.parameter? value) ∧
    ∀ w, value = some w → ∃ a ∈ tag.attributes, lead.toList <+: a.1.toList ∧ w = .ofSource lead d a.1 a.2

/-- The value of an attribute that is no directive, and the operands it concatenates: as written in the start
tag, a call, the marker of a link, a parameter as class, or a class list with a parameter at its end. -/
inductive Assembled (lead : String) (d : Dialect) (tag : Tag) : String → AttrValue → List Operand → Prop where
  | written {name : String} {value : Option String} (h : (name, value) ∈ tag.attributes)
    (hname : ¬ lead.toList <+: name.toList) :
    Assembled lead d tag name (.ofSource lead d name value) (ofWritten d (value.getD ""))
  | called {name : String} (hname : name ∈ Handler.written) {helper : Helper}
    (hhelper : helper ∈ [.link, .asset, .formatDate]) (arg : String) :
    Assembled lead d tag name (.code (Fragment.expression (d.call helper [arg]))) [host (d.call helper [arg])]
  | marked (code : String) : Assembled lead d tag "class" (.code (Fragment.statement code)) []
  | passed {code : String} (h : tag.Passes lead d code) :
    Assembled lead d tag "class" (.code (Fragment.expression code)) [host code]
  | extended {value : AttrValue} {operands : List Operand} {code : String}
    (h : Assembled lead d tag "class" value operands) (hcode : tag.Passes lead d code) :
    Assembled lead d tag "class" (.code (Fragment.expression (Handler.classCode d (some value) code)))
      (ofClass operands code value)

section Assembled

variable {lead : String} {d : Dialect} {tag : Tag} {name : String} {value : AttrValue} {operands : List Operand}

theorem Concatenates.foldl {xs : List Operand} {code : String} (h : Concatenates d xs code) (ps : List Part) :
    Concatenates d (xs ++ ps.map (ofPart d)) ((ps.map (Part.expression d)).foldl d.concat code) := by
  induction ps generalizing xs code with
  | nil => rwa [List.map_nil, List.append_nil]
  | cons p ps ih =>
    have hp : (ofPart d p).code d = p.expression d := by cases p <;> rfl
    have hmore := ih (h.more (ofPart d p))
    rw [List.append_assoc, hp] at hmore
    exact hmore

/-- A value that is written out as an expression concatenates its operands. -/
theorem Assembled.concatenates (h : Assembled lead d tag name value operands) {f : Fragment}
    (hvalue : value = .code f) (hf : f.isStatement = false) : Concatenates d operands f.code := by
  induction h generalizing f with
  | @written name value h hname =>
    rw [show AttrValue.ofSource lead d name value = .ofSource lead d name (some (value.getD "")) from rfl,
      Part.ofSource_eq_value hname, Part.value] at hvalue
    unfold ofWritten
    dsimp only
    split at hvalue
    · rename_i hcode
      rw [if_pos hcode]
      rcases hparts : Part.ofChars (value.getD "").toList with _ | ⟨p, ps⟩
      · rw [hparts] at hcode
        cases hcode
      · rw [hparts] at hvalue
        cases hvalue
        have hp : (ofPart d p).code d = p.expression d := by cases p <;> rfl
        exact (hp ▸ (Concatenates.one (ofPart d p)).foldl ps).trimmed
    · cases hvalue
  | called hname hhelper arg =>
    cases hvalue
    exact (Concatenates.one _).trimmed
  | marked code =>
    cases hvalue
    cases hf
  | passed h =>
    cases hvalue
    exact (Concatenates.one (host _)).trimmed
  | @extended value operands code h hcode ih =>
    cases hvalue
    refine Concatenates.trimmed ?_
    cases value with
    | text c => exact (Concatenates.one (static (escapeQuotes c ++ " "))).more (host code)
    | code g =>
      rw [Handler.classCode, ofClass]
      cases hg : g.isStatement with
      | true => exact Concatenates.one (host code)
      | false =>
        have hlist := ((ih rfl hg).more (static " ")).more (host code)
        rwa [List.append_assoc] at hlist

/-- The only static operands with a quote in them are those of an interpolated value. -/
theorem Assembled.exists_of_quote (h : Assembled lead d tag name value operands) {t : String}
    (ht : static t ∈ operands) (hquote : '"' ∈ t.toList) :
    ∃ v, (name, some v) ∈ tag.attributes ∧ (Part.ofChars v.toList).any Part.isCode = true ∧
      Part.literal t ∈ Part.ofChars v.toList := by
  induction h with
  | @written name value h hname =>
    unfold ofWritten at ht
    dsimp only at ht
    split at ht
    · rename_i hcode
      obtain ⟨p, hp, hpart⟩ := List.mem_map.1 ht
      cases p with
      | code e => cases hpart
      | literal t' =>
        cases hpart
        cases value with
        | none => exact absurd hcode (by decide +kernel)
        | some v => exact ⟨v, h, hcode, hp⟩
    · cases ht
  | called hname hhelper arg => cases List.mem_singleton.1 ht
  | marked code => cases ht
  | passed h => cases List.mem_singleton.1 ht
  | @extended value operands code h hcode ih =>
    cases value with
    | text c =>
      obtain rfl : t = escapeQuotes c ++ " " := by simpa [ofClass] using ht
      rw [String.toList_append, List.mem_append] at hquote
      exact absurd hquote (not_or.2 ⟨quote_not_mem c, by decide⟩)
    | code g =>
      rw [ofClass] at ht
      split at ht
      · cases List.mem_singleton.1 ht
      · rcases List.mem_append.1 ht with ht | ht
        · exact ih ht
        · obtain rfl : t = " " := by simpa using ht
          exact absurd hquote (by decide)

end Assembled

/-! ## Elements -/

namespace Element

/-- An element as it comes of its start tag: the attributes behind the lead are as written, unless directives
write them, and all others are assembled. -/
structure Stems (lead : String) (d : Dialect) (tag : Tag) (e : Element) : Prop where
  directives : ∀ a ∈ e.attributes, lead.toList <+: a.1.toList → a.1 ∉ Handler.written →
    ∃ b ∈ tag.attributes, lead.toList <+: b.1.toList ∧ a.2 = .ofSource lead d b.1 b.2
  assembled : ∀ a ∈ e.attributes, ¬ lead.toList <+: a.1.toList → ∃ operands, Assembled lead d tag a.1 a.2 operands

variable {lead : String} {d : Dialect} {tag : Tag} {e : Element}

theorem stems_ofMarkup (lead : String) (d : Dialect) (tag : Tag) : (ofMarkup lead d tag).Stems lead d tag := by
  have hmem : ∀ a ∈ (ofMarkup lead d tag).attributes,
      ∃ value, (a.1, value) ∈ tag.attributes ∧ a.2 = .ofSource lead d a.1 value := by
    unfold ofMarkup
    refine List.foldlRecOn (motive := fun e : Element => ∀ a ∈ e.attributes,
      ∃ value, (a.1, value) ∈ tag.attributes ∧ a.2 = .ofSource lead d a.1 value) tag.attributes _
      (List.forall_mem_nil _) fun e he b hb a ha => ?_
    rcases eq_of_mem_setIn ha with ha | rfl
    · exact he a ha
    · exact ⟨b.2, hb, rfl⟩
  constructor
  · intro a ha hlead _
    obtain ⟨value, hvalue, heq⟩ := hmem a ha
    exact ⟨(a.1, value), hvalue, hlead, heq⟩
  · intro a ha hlead
    obtain ⟨value, hvalue, heq⟩ := hmem a ha
    exact ⟨_, heq ▸ Assembled.written hvalue hlead⟩

theorem Stems.erase (h : e.Stems lead d tag) (name : String) : (e.erase name).Stems lead d tag :=
  ⟨fun a ha => h.directives a (List.mem_of_mem_filter ha), fun a ha => h.assembled a (List.mem_of_mem_filter ha)⟩

theorem Stems.set (h : e.Stems lead d tag) {name : String} {value : AttrValue} (hname : name ∈ Handler.written)
    (hvalue : ¬ lead.toList <+: name.toList → ∃ operands, Assembled lead d tag name value operands) :
    (e.set name value).Stems lead d tag := by
  constructor
  · intro a ha hlead hwritten
    rcases eq_of_mem_setIn ha with ha | rfl
    · exact h.directives a ha hlead hwritten
    · exact absurd hname hwritten
  · intro a ha hlead
    rcases eq_of_mem_setIn ha with ha | rfl
    · exact h.assembled a ha hlead
    · exact hvalue hlead

theorem mem_of_get? {name : String} {value : AttrValue} (h : e.get? name = some value) :
    (name, value) ∈ e.attributes := by
  obtain ⟨l₁, l₂, heq, -⟩ := List.lookup_eq_some_iff.1 h
  rw [heq]
  simp

end Element

namespace Handler

variable {lead : String} {tag : Tag} {e : Element} {s : Site}

/-- The changes that standard directives make to their element. -/
def changes (s : Site) : List (Element → Element) :=
  [setChange "datetime" .formatDate s, setChange "src" .link s, classChange s, assetChange s, hrefChange s]

theorem stems_setChange {name : String} (hname : name ∈ written) {helper : Helper}
    (hhelper : helper ∈ [.link, .asset, .formatDate]) (h : e.Stems lead s.dialect tag) :
    (setChange name helper s e).Stems lead s.dialect tag :=
  h.set hname fun _ => ⟨_, .called hname hhelper s.code⟩

theorem stems_assetChange (h : e.Stems lead s.dialect tag) : (assetChange s e).Stems lead s.dialect tag := by
  have hname := resourceAttribute_mem e
  unfold assetChange
  split
  · exact h.set hname fun _ => ⟨_, .called hname (by decide) _⟩
  · exact h

theorem stems_hrefChange (h : e.Stems lead s.dialect tag) : (hrefChange s e).Stems lead s.dialect tag := by
  have hlinked : (setChange "href" .link s e).Stems lead s.dialect tag := stems_setChange (by decide) (by decide) h
  unfold hrefChange
  dsimp only
  split
  · exact hlinked
  · exact hlinked.set (by decide) fun _ => ⟨_, .marked _⟩

theorem stems_classChange (h : e.Stems lead s.dialect tag)
    (hcode : ¬ lead.toList <+: "class".toList → tag.Passes lead s.dialect s.code) :
    (classChange s e).Stems lead s.dialect tag := by
  refine h.set (by decide) fun hlead => ?_
  cases hclass : e.get? "class" with
  | none => exact ⟨_, .passed (hcode hlead)⟩
  | some value =>
    obtain ⟨operands, hvalue⟩ := h.assembled _ (Element.mem_of_get? hclass) hlead
    exact ⟨_, hvalue.extended (hcode hlead)⟩

theorem stems_changes (hcode : ¬ lead.toList <+: "class".toList → tag.Passes lead s.dialect s.code) :
    ∀ f ∈ changes s, ∀ e : Element, e.Stems lead s.dialect tag → (f e).Stems lead s.dialect tag := by
  simp only [changes, List.forall_mem_cons]
  exact ⟨fun _ => stems_setChange (by decide) (by decide), fun _ => stems_setChange (by decide) (by decide),
    fun _ h => stems_classChange h hcode, fun _ h => stems_assetChange h, fun _ h => stems_hrefChange h,
    List.forall_mem_nil _⟩

/-- The elements that a script changes. -/
theorem mem_changes {name : String} {t : Tree} {n : NodeId} {f : Element → Element}
    (h : Step.element n f ∈ script name s t) : n = s.node ∧ f ∈ changes s := by
  have hresource {rest : Tree → List Step} (hrest : ∀ t', Step.element n f ∉ rest t') :
      Step.element n f ∉ resourceSteps rest s t := by
    unfold resourceSteps importSteps
    cases s.parameter <;> dsimp only <;> split <;> simp [hrest]
  have hloop : Step.element n f ∉ loopSteps s t := by
    unfold loopSteps
    split
    · split <;> simp
    · simp
  have hjoin (side : Side) (alone : TemplateError) : Step.element n f ∉ joinSteps side alone s.node t := by
    unfold joinSteps
    dsimp only
    split
    · simp
    · split <;> simp
  have hcondition : Step.element n f ∉ conditionSteps s t := by
    unfold conditionSteps
    split
    · exact hjoin _ _
    · dsimp only
      split <;> simp
  unfold script at h
  split at h
  all_goals
    first
      | exact absurd h hloop
      | exact absurd h hcondition
      | exact absurd h (hjoin _ _)
      | exact absurd h (hresource (by simp [insteadSteps]))
      | simp_all [changes, beforeSteps, afterSteps, insteadSteps, belowSteps, captureSteps, translateSteps]
  split at h <;> simp at h

/-- Only without a lead can a directive be an attribute that directives write. -/
theorem lead_eq_nil {d : Directive} (hd : d.IsStandard) (h : lead ++ d.name ∈ written) : lead.toList = [] := by
  obtain ⟨d₀, hd₀, hname, -⟩ := hd
  have hsuffix : ∀ w ∈ written, ∀ d ∈ Registry.standardDirectives, d.name.toList <:+ w.toList → d.name = w := by
    decide
  have heq := hsuffix _ h d₀ hd₀ (hname ▸ ⟨lead.toList, by rw [String.toList_append]⟩)
  rw [hname, ← String.toList_inj, String.toList_append] at heq
  simpa using heq

end Handler

/-! ## Trees -/

/-- The step leaves elements of their start tags such. -/
def Step.Stems (lead : String) (d : Dialect) (tags : NodeId → Tag) : Step → Prop
  | .edit (.create k) => k.isElement = false
  | .edit _ => True
  | .element n f => ∀ e : Element, e.Stems lead d (tags n) → (f e).Stems lead d (tags n)

namespace Tree

/-- Every element comes of its start tag, which is one of the given tags. -/
def Stems (lead : String) (d : Dialect) (given : List Tag) (tags : NodeId → Tag) (t : Tree) : Prop :=
  ∀ x ∈ t.forest.preorder, ∀ e, x.kind = .element e → tags x.id ∈ given ∧ e.Stems lead d (tags x.id)

variable {lead : String} {d : Dialect} {given : List Tag} {tags : NodeId → Tag} {t : Tree}

theorem Stems.step (h : t.Stems lead d given tags) (ht : t.Numbered) {s : Step} (hs : s.Stems lead d tags) :
    (s.apply t).Stems lead d given tags := by
  intro x hx e he
  cases s with
  | edit edit =>
    rcases mem_edit ht hx with hx | ⟨-, kind, rfl, hkind⟩
    · exact h x hx e he
    · rcases hkind with hkind | hkind
      · have hs : kind.isElement = false := hs
        rw [← hkind, he] at hs
        cases hs
      · rw [hkind] at he
        cases he
  | element n f =>
    rcases mem_mapElement ht hx with hx | ⟨hid, e₀, hmem, hkind⟩
    · exact h x hx e he
    · rw [hkind, Kind.element.injEq] at he
      rw [hid, ← he]
      exact (h _ hmem e₀ rfl).imp_right (hs e₀)

theorem Stems.follow (h : t.Stems lead d given tags) (ht : t.Numbered) {steps : List Step}
    (hsteps : ∀ s ∈ steps, s.Stems lead d tags) : (t.follow steps).Stems lead d given tags := by
  induction steps generalizing t with
  | nil => exact h
  | cons s steps ih =>
    rw [List.forall_mem_cons] at hsteps
    exact ih (h.step ht hsteps.1) (ht.step s) hsteps.2

/-- What a directive is given as its parameter stands in the start tag. -/
theorem Stems.passes (h : t.Stems lead d given tags) (ht : t.Numbered) {n : NodeId} {attr : String}
    (hlead : lead.toList <+: attr.toList) (hattr : attr ∉ Handler.written) :
    (tags n).Passes lead d (AttrValue.parameterCode d (Registry.parameter? (t.attribute? n attr))) := by
  refine ⟨t.attribute? n attr, rfl, fun w hw => ?_⟩
  obtain ⟨e, he, hget⟩ := Option.bind_eq_some_iff.1 hw
  obtain ⟨k, hk, hke⟩ := Option.bind_eq_some_iff.1 he
  have hmem := (kind?_eq_some_iff ht.nodup).1 hk
  have hkind : k = .element e := by cases k <;> simp_all [Kind.element?]
  exact (h _ hmem e hkind).2.directives (attr, w) (Element.mem_of_get? hget) hlead hattr

end Tree

section Scenes

variable {lead : String} {d : Dialect} {given : List Tag} {tags : NodeId → Tag} {t t' : Tree}

theorem Scene.stems_steps {x : Scene} (hx : x.IsStandard lead) (ht : x.before.Numbered)
    (h : x.before.Stems lead d given tags) : ∀ s ∈ x.steps d, s.Stems lead d tags := by
  obtain ⟨directive, hstandard, hname⟩ := hx.standard
  have hattr : x.attr = lead ++ directive.name := hname ▸ hx.attr
  rw [Scene.steps, ← hname]
  refine List.forall_mem_cons.2 ⟨fun e he => he.erase x.attr, fun s hs => ?_⟩
  have hkeeps := Handler.keeps_script hstandard _ _ s hs
  cases s with
  | edit e =>
    cases e with
    | create k => exact hkeeps.1
    | append | prepend | insertBefore | insertAfter | replace | detach | clear | mark => exact trivial
  | element m f =>
    obtain ⟨rfl, hf⟩ := Handler.mem_changes hs
    refine Handler.stems_changes (s := x.site d) (fun hlead => ?_) f hf
    have hpasses : ¬ x.attr ∈ Handler.written → (tags x.call.node).Passes lead d (x.site d).code := by
      intro hwritten
      rw [Site.code, Scene.site, hx.parameter]
      exact h.passes ht (hattr ▸ ⟨directive.name.toList, by rw [String.toList_append]⟩) hwritten
    refine hpasses fun hwritten => hlead ?_
    rw [Handler.lead_eq_nil hstandard (hattr ▸ hwritten)]
    exact List.nil_prefix

theorem Plays.stems {xs : List Scene} (hplays : Plays d (Scene.IsStandard lead) t xs t') (ht : t.Numbered)
    (h : t.Stems lead d given tags) : ∀ s ∈ xs.flatMap (Scene.steps d), s.Stems lead d tags := by
  induction hplays with
  | done t => exact List.forall_mem_nil _
  | scene hx _ ih =>
    have hhere := Scene.stems_steps hx ht h
    rw [List.flatMap_cons, List.forall_mem_append]
    exact ⟨hhere, ih (ht.follow _) (h.follow ht hhere)⟩

end Scenes

namespace Markup

/-- The elements of a document that was read are those of start tags of its source. -/
theorem exists_tag_of_parse {lead source : String} {d : Dialect} {x : Node} {e : Element}
    (hx : x ∈ (parse lead d source).forest.preorder) (he : x.kind = .element e) :
    ∃ tag ∈ tags source, e = Element.ofMarkup lead d tag := by
  have hkind : ∀ k ∈ (content lead d source).preorder, ∀ e, k = .element e →
      ∃ tag ∈ tags source, e = Element.ofMarkup lead d tag :=
    forall_content_of_tags (fun tag htag e he => ⟨tag, htag, (Kind.element.inj he).symm⟩) nofun nofun
  rcases List.mem_cons.1 (preorder_cons .. ▸ hx) with rfl | hx
  · cases he
  · rw [preorder_nil, List.append_nil] at hx
    refine hkind x.kind ?_ e he
    rw [← kinds_numberFrom 1 (content lead d source), preorder_kinds]
    exact List.mem_map_of_mem hx

/-- Each element of a document that was read has its start tag. -/
theorem exists_tags (lead source : String) (d : Dialect) :
    ∃ tags : NodeId → Tag, ∀ x ∈ (parse lead d source).forest.preorder, ∀ e, x.kind = .element e →
      tags x.id ∈ Markup.tags source ∧ e = Element.ofMarkup lead d (tags x.id) := by
  have ht : (parse lead d source).Numbered := (shaped_parse lead d source).numbered
  have hchoice (n : NodeId) : ∃ tag, ∀ e, (⟨n, .element e⟩ : Node) ∈ (parse lead d source).forest.preorder →
      tag ∈ Markup.tags source ∧ e = Element.ofMarkup lead d tag := by
    by_cases hn : ∃ e, (⟨n, .element e⟩ : Node) ∈ (parse lead d source).forest.preorder
    · obtain ⟨e, he⟩ := hn
      obtain ⟨tag, htag, heq⟩ := exists_tag_of_parse he rfl
      refine ⟨tag, fun e' he' => ⟨htag, ?_⟩⟩
      have hkind := ((kind?_eq_some_iff ht.nodup).2 he).symm.trans ((kind?_eq_some_iff ht.nodup).2 he')
      rw [← Kind.element.inj (Option.some.inj hkind), heq]
    · exact ⟨⟨"", []⟩, fun e he => absurd ⟨e, he⟩ hn⟩
  choose tags htags using hchoice
  exact ⟨tags, fun x hx e he => htags x.id e (he ▸ hx)⟩

end Markup

/-- An attribute is written between quotes, as text without quotes or as code that concatenates its operands. -/
theorem Assembled.attributeChunks {lead name : String} {d : Dialect} {tag : Tag} {value : AttrValue}
    {operands : List Operand} (h : Assembled lead d tag name value operands) :
    ∃ chunk, Element.attributeChunks (name, value) = [.text (" " ++ name ++ "=\""), chunk, .text "\""] ∧
      ((∃ s, chunk = .text s ∧ '"' ∉ s.toList) ∨
        ∃ f, chunk = .code f ∧ (f.isStatement = true ∨ Concatenates d operands f.code)) := by
  cases value with
  | text s => exact ⟨_, rfl, Or.inl ⟨_, rfl, quote_not_mem s⟩⟩
  | code f =>
    refine ⟨_, rfl, Or.inr ⟨f, rfl, ?_⟩⟩
    cases hf : f.isStatement with
    | true => exact Or.inl rfl
    | false => exact Or.inr (h.concatenates rfl hf)

namespace Compiler

theorem compile_eq_ok {c : Compiler} (hc : ∀ x ∈ c.registry.directives, x.IsStandard) {source out : String}
    (h : c.compile source = .ok out) :
    out = ((c.parse source).follow (c.registry.trace c.dialect (c.parse source))).serialize c.dialect := by
  have ht : (c.parse source).Numbered := (Markup.shaped_parse ..).numbered
  rw [Registry.trace, ← (Registry.plays_run hc c.dialect ht).1.eq_follow]
  exact (finish_eq_ok_iff.1 h).2.symm

/-- Static text does not close its attribute, but for one case. In every tree on the way from a source to its
output, the value of an attribute that is no directive is assembled from what its start tag says. It is written
between quotes as text without quotes, or as code that concatenates its operands. Static operands read back as
they are, and one with a quote in it stands between the expressions of an interpolated value of the source. -/
theorem static_operands (lead source : String) :
    let c := standard .php lead
    let t := c.parse source
    let trace := c.registry.trace .php t
    (∀ out, c.compile source = .ok out → out = (t.follow trace).serialize .php) ∧
    ∃ tags : NodeId → Tag,
      (∀ x ∈ t.forest.preorder, ∀ e, x.kind = .element e → e = Element.ofMarkup lead .php (tags x.id)) ∧
      ∀ k, ∀ x ∈ (t.follow (trace.take k)).forest.preorder, ∀ e, x.kind = .element e →
        tags x.id ∈ Markup.tags source ∧
        ∀ a ∈ e.attributes, ¬ lead.toList <+: a.1.toList →
          ∃ operands, Assembled lead .php (tags x.id) a.1 a.2 operands ∧
            (∃ chunk, Element.attributeChunks a = [.text (" " ++ a.1 ++ "=\""), chunk, .text "\""] ∧
              ((∃ s, chunk = .text s ∧ '"' ∉ s.toList) ∨
                ∃ f, chunk = .code f ∧ (f.isStatement = true ∨ Concatenates .php operands f.code))) ∧
            ∀ s, static s ∈ operands →
              Dialect.Php.read ((static s).code .php).toList = some (s.toList, []) ∧
              ('"' ∈ s.toList → ∃ v, (a.1, some v) ∈ (tags x.id).attributes ∧
                (Part.ofChars v.toList).any Part.isCode = true ∧ Part.literal s ∈ Part.ofChars v.toList) := by
  intro c t trace
  have hc : ∀ x ∈ c.registry.directives, x.IsStandard := fun x hx => ⟨x, hx, rfl, rfl⟩
  have ht : t.Numbered := (Markup.shaped_parse lead .php source).numbered
  obtain ⟨tags, htags⟩ := Markup.exists_tags lead source .php
  have hstems : t.Stems lead .php (Markup.tags source) tags := fun x hx e he => by
    obtain ⟨htag, rfl⟩ := htags x hx e he
    exact ⟨htag, Element.stems_ofMarkup lead .php (tags x.id)⟩
  have hsteps : ∀ s ∈ trace, s.Stems lead .php tags := (Registry.plays_run hc .php ht).1.stems ht hstems
  refine ⟨fun out hout => compile_eq_ok hc hout, tags, fun x hx e he => (htags x hx e he).2, fun k x hx e he => ?_⟩
  have htaken : ∀ s ∈ trace.take k, s.Stems lead .php tags := fun s hs => hsteps s (List.mem_of_mem_take hs)
  have hway := hstems.follow ht htaken
  obtain ⟨htag, helement⟩ := hway x hx e he
  refine ⟨htag, fun a ha hlead => ?_⟩
  obtain ⟨operands, hassembled⟩ := helement.assembled a ha hlead
  refine ⟨operands, hassembled, hassembled.attributeChunks, fun s hs => ⟨?_, hassembled.exists_of_quote hs⟩⟩
  have hread := Dialect.Php.read_literal s []
  rwa [List.append_nil] at hread

/-- The quote of a class that a directive adds to. -/
theorem static_operands_class :
    let c := standard .php "j:"
    let t := c.parse "<p class='a\"' j:class=$b>t</p>"
    let trace := c.registry.trace .php t
    (⟨1, .element ⟨"p", [("class", .code (Fragment.expression "'a&quot; ' . $b"))]⟩⟩ : Node) ∈
      (t.follow (trace.take 2)).forest.preorder ∧
    ∃ tag ∈ Markup.tags "<p class='a\"' j:class=$b>t</p>", ∃ operands,
      Assembled "j:" .php tag "class" (.code (Fragment.expression "'a&quot; ' . $b")) operands ∧
      Concatenates .php operands (Fragment.expression "'a&quot; ' . $b").code ∧
      ∀ s, static s ∈ operands → '"' ∉ s.toList := by
  intro c t trace
  have hmem : (⟨1, .element ⟨"p", [("class", .code (Fragment.expression "'a&quot; ' . $b"))]⟩⟩ : Node) ∈
      (t.follow (trace.take 2)).forest.preorder := by decide +kernel
  have htags : Markup.tags "<p class='a\"' j:class=$b>t</p>" =
      [⟨"p", [("class", some "a\""), ("j:class", some "$b")]⟩] := by decide +kernel
  obtain ⟨-, tags, -, h⟩ := static_operands "j:" "<p class='a\"' j:class=$b>t</p>"
  obtain ⟨htag, hattributes⟩ := h 2 _ hmem _ rfl
  obtain ⟨operands, hassembled, -, hstatic⟩ := hattributes _ (List.mem_singleton_self _) (by decide)
  refine ⟨hmem, _, htag, operands, hassembled, hassembled.concatenates rfl rfl, fun s hs hquote => ?_⟩
  obtain ⟨v, hv, hcode, -⟩ := (hstatic s hs).2 hquote
  rw [htags, List.mem_singleton] at htag
  rw [htag] at hv
  obtain rfl : v = "a\"" := by simpa using hv
  exact absurd hcode (by decide +kernel)

/-- The quotes around an interpolation close the attribute. -/
theorem interpolation_closes_attribute :
    (standard .php "j:").compile "<p title='say \"\x7b\x7b $x \x7d\x7d\"'>t</p>" =
      .ok "<p title=\"<?php echo 'say \"' . $this->h($x) . '\"'; ?>\">t</p>" ∧
    Dialect.Php.read "'say \"' . $this->h($x) . '\"'".toList =
      some ("say \"".toList, " . $this->h($x) . '\"'".toList) := by
  constructor
  · decide +kernel
  · decide +kernel

end Compiler

end HtmlTemplate
