import HtmlTemplate.Dialect.Php
import HtmlTemplate.Proofs.Markup.Plain
import HtmlTemplate.Proofs.Markup.Text

/-! # Interpolation in text and in attribute values

Text and the value of an attribute are cut at the same braces, up to the first braces with nothing between
them. Behind those text is read on (`Part.ofText`), while the value of an attribute is one literal from there on
(`Part.ofChars`). So both have the same parts unless code follows braces that are blank (`Part.Resumes`).
-/

namespace HtmlTemplate

open Forest Chars

/-- Expression code is normalised at its ends only. -/
theorem Fragment.normalise_of_ends {s : List Char} (hhead : ∀ c, s.head? = some c → isBlank c = false)
    (hlast : ∀ c, s.getLast? = some c → isBlank c = false ∧ c ≠ ';') : normalise s = s := by
  rw [normalise, trim_of_ends hhead fun c hc => (hlast c hc).1,
    dropTail_of_last fun c hc => beq_false_of_ne (hlast c hc).2, dropTail_of_last fun c hc => (hlast c hc).1]

namespace Part

/-! ## The parts of a text -/

/-- The first braces of a text, if they are closed: what stands before them, between them and behind them. -/
def braces? (s : List Char) : Option (List Char × List Char × List Char) :=
  match breakAt ['\x7b', '\x7b'].isPrefixOf s with
  | (_, []) => none
  | (before, found) => (cut ['\x7d', '\x7d'] (found.drop 2)).map fun r => (before, r)

/-- Puts a literal in front of other parts, joined with the literal that stands there. -/
def prependLiteral (s : String) : List Part → List Part
  | literal t :: ps => literal (s ++ t) :: ps
  | ps => if s = "" then ps else literal s :: ps

variable {s before inner after : List Char}

theorem braces?_eq_some (h : braces? s = some (before, inner, after)) :
    s = before ++ '\x7b' :: '\x7b' :: (inner ++ '\x7d' :: '\x7d' :: after) ∧
      (∀ u c v, before = u ++ c :: v →
        ¬ interpolation <+: c :: (v ++ '\x7b' :: '\x7b' :: (inner ++ '\x7d' :: '\x7d' :: after))) ∧
      cut ['\x7d', '\x7d'] (inner ++ '\x7d' :: '\x7d' :: after) = some (inner, after) := by
  obtain ⟨hskip, hfound⟩ := breakAt_spec ['\x7b', '\x7b'].isPrefixOf s
  have happend := breakAt_append ['\x7b', '\x7b'].isPrefixOf s
  unfold braces? at h
  split at h
  · cases h
  · rename_i b f hne hbreak
    rw [hbreak] at hskip hfound happend
    obtain ⟨w, rfl⟩ := List.isPrefixOf_iff_prefix.1 (hfound hne)
    obtain ⟨⟨i, a⟩, hcut, heq⟩ := Option.map_eq_some_iff.1 h
    obtain ⟨rfl, rfl, rfl⟩ : b = before ∧ i = inner ∧ a = after := by simpa using heq
    obtain rfl : w = i ++ '\x7d' :: '\x7d' :: a := (cut_spec hcut).1
    exact ⟨happend.symm, fun u c v hb hbegins =>
      Bool.eq_false_iff.1 (hskip u c v hb) (List.isPrefixOf_iff_prefix.2 hbegins), hcut⟩

/-- Without closed braces, no interpolation ends behind the first that begins. -/
theorem braces?_eq_none (h : braces? s = none) : ∃ before rest, s = before ++ rest ∧
    (∀ u c v, before = u ++ c :: v → ¬ interpolation <+: c :: (v ++ rest)) ∧ ¬ closingBraces <:+: rest := by
  obtain ⟨hskip, hfound⟩ := breakAt_spec ['\x7b', '\x7b'].isPrefixOf s
  refine ⟨_, _, (breakAt_append ['\x7b', '\x7b'].isPrefixOf s).symm, fun u c v hb hbegins => ?_, ?_⟩
  · exact Bool.eq_false_iff.1 (hskip u c v hb) (List.isPrefixOf_iff_prefix.2 hbegins)
  · unfold braces? at h
    split at h
    · rename_i hbreak
      rw [hbreak, List.infix_nil]
      decide
    · rename_i b f hne hbreak
      rw [hbreak] at hfound ⊢
      obtain ⟨w, rfl⟩ := List.isPrefixOf_iff_prefix.1 (hfound hne)
      rw [Option.map_eq_none_iff] at h
      have hw : ¬ closingBraces <:+: w := (cut_eq_none_iff (by decide)).1 h
      simpa [closingBraces, List.infix_cons_iff, List.cons_prefix_cons] using hw

theorem length_braces (h : braces? s = some (before, inner, after)) : after.length < s.length := by
  rw [(braces?_eq_some h).1]
  simp only [List.length_append, List.length_cons]
  omega

/-- The parts of a text. Braces with nothing between them are literal. -/
def ofText (s : List Char) : List Part :=
  match _h : braces? s with
  | none => prependLiteral (String.ofList s) []
  | some (before, inner, after) =>
    if trim inner = [] then
      prependLiteral (String.ofList (before ++ '\x7b' :: '\x7b' :: (inner ++ ['\x7d', '\x7d']))) (ofText after)
    else prependLiteral (String.ofList before) (code (String.ofList (trim inner)) :: ofText after)
termination_by s.length
decreasing_by all_goals exact length_braces _h

theorem ofText_none (h : braces? s = none) : ofText s = prependLiteral (String.ofList s) [] := by
  rw [ofText]
  split <;> simp_all

theorem ofText_blank (h : braces? s = some (before, inner, after)) (hblank : trim inner = []) : ofText s =
    prependLiteral (String.ofList (before ++ '\x7b' :: '\x7b' :: (inner ++ ['\x7d', '\x7d']))) (ofText after) := by
  rw [ofText]
  split <;> simp_all

theorem ofText_code (h : braces? s = some (before, inner, after)) (hcode : trim inner ≠ []) : ofText s =
    prependLiteral (String.ofList before) (code (String.ofList (trim inner)) :: ofText after) := by
  rw [ofText]
  split <;> simp_all

/-- The nodes that parts of a text become. -/
def forest (d : Dialect) : List Part → Forest Kind
  | [] => nil
  | literal t :: ps => cons (.text t) nil (forest d ps)
  | code e :: ps => cons (.code (Fragment.expression (d.escape e))) nil (forest d ps)

theorem forest_prependLiteral (d : Dialect) (s : String) (ps : List Part) :
    forest d (prependLiteral s ps) = Markup.prependText s (forest d ps) := by
  rcases ps with _ | ⟨t | e, ps⟩
  · exact apply_ite (forest d) (s = "") [] [literal s]
  · rfl
  · exact apply_ite (forest d) (s = "") (code e :: ps) (literal s :: code e :: ps)

theorem mayBegin_of_not_prefix {c : Char} {w : List Char} (hc : c ≠ '<') (h : ¬ interpolation <+: c :: w) :
    Token.mayBegin (c :: w) = false := by
  unfold Token.mayBegin
  split <;> simp_all [interpolation, List.cons_prefix_cons]

/-- A text without markup reads as its parts. -/
theorem levels_ofText (hs : '<' ∉ s) (lead : String) (d : Dialect) :
    Markup.levels lead d [] (Token.scan s) = [forest d (ofText s)] := by
  have hrun {before rest : List Char} (hbefore : '<' ∉ before)
      (h : ∀ u c v, before = u ++ c :: v → ¬ interpolation <+: c :: (v ++ rest)) :
      Markup.levels lead d [] (Token.scan (before ++ rest)) =
        (Markup.levels lead d [] (Token.scan rest)).modifyHead (Markup.prependText (String.ofList before)) :=
    Markup.levels_run fun u c v hb =>
      mayBegin_of_not_prefix (by rintro rfl; exact hbefore (by simp [hb])) (h u c v hb)
  induction s using ofText.induct with
  | case1 s h =>
    obtain ⟨front, rest, hfront, hskip, hopen⟩ := braces?_eq_none h
    rw [hfront, List.mem_append, not_or] at hs
    have hlevels : Markup.levels lead d [] (Token.scan s) =
        [Markup.prependText (String.ofList (front ++ rest)) nil] := by
      rw [hfront, hrun hs.1 hskip, Markup.levels_open hs.2 hopen, List.modifyHead_modifyHead,
        ← Markup.prependText_ofList_append]
      rfl
    rw [hlevels, ofText_none h, forest_prependLiteral, ← hfront]
    rfl
  | case2 s before inner after h hblank ih =>
    obtain ⟨hfront, hskip, hcut⟩ := braces?_eq_some h
    have hne : '<' ∉ before ∧ '<' ∉ after := by
      rw [hfront] at hs
      simp_all
    have hlevels : Markup.levels lead d [] (Token.scan s) =
        [Markup.prependText (String.ofList (before ++ '\x7b' :: '\x7b' :: (inner ++ ['\x7d', '\x7d'])))
          (forest d (ofText after))] := by
      rw [hfront, hrun hne.1 hskip, Markup.levels_blank hcut hblank, ih hne.2, List.modifyHead_modifyHead,
        ← Markup.prependText_ofList_append]
      rfl
    rw [hlevels, ofText_blank h hblank, forest_prependLiteral]
  | case3 s before inner after h hcode ih =>
    obtain ⟨hfront, hskip, hcut⟩ := braces?_eq_some h
    have hne : '<' ∉ before ∧ '<' ∉ after := by
      rw [hfront] at hs
      simp_all
    have hnext : Token.next '\x7b' ('\x7b' :: (inner ++ '\x7d' :: '\x7d' :: after)) =
        (.code (String.ofList (trim inner)), after) := by
      refine Token.next_code? ?_
      rw [Token.code?, hcut]
      exact if_neg hcode
    have hlevels : Markup.levels lead d [] (Token.scan s) =
        [Markup.prependText (String.ofList before)
          (forest d (code (String.ofList (trim inner)) :: ofText after))] := by
      rw [hfront, hrun hne.1 hskip, Token.scan, hnext, Markup.levels, ih hne.2]
      rfl
    rw [hlevels, ofText_code h hcode, forest_prependLiteral]

/-! ## Where the parts of a value differ -/

/-- Code follows braces that are literal. -/
def Resumes : List Part → Prop
  | [] => False
  | literal t :: ps => interpolation <:+: t.toList ∧ ps.any isCode = true ∨ Resumes ps
  | code _ :: ps => Resumes ps

instance : (ps : List Part) → Decidable (Resumes ps)
  | [] => isFalse id
  | literal t :: ps =>
    have := instDecidableResumes ps
    inferInstanceAs (Decidable (interpolation <:+: t.toList ∧ ps.any isCode = true ∨ Resumes ps))
  | code _ :: ps => instDecidableResumes ps

@[simp] theorem any_literal (t : String) (ps : List Part) : (literal t :: ps).any isCode = ps.any isCode := rfl

@[simp] theorem any_code (e : String) (ps : List Part) : (code e :: ps).any isCode = true := rfl

theorem prependLiteral_nil (s : List Char) : prependLiteral (String.ofList s) [] = literalOf s := by
  cases s <;> simp [prependLiteral, literalOf]

theorem prependLiteral_code (s : List Char) (e : String) (ps : List Part) :
    prependLiteral (String.ofList s) (code e :: ps) = literalOf s ++ code e :: ps := by
  cases s <;> simp [prependLiteral, literalOf]

theorem prependLiteral_literalOf (s r : List Char) :
    prependLiteral (String.ofList s) (literalOf r) = literalOf (s ++ r) := by
  rcases r with _ | ⟨c, r⟩
  · rw [List.append_nil]
    exact prependLiteral_nil s
  · simp [prependLiteral, literalOf]

/-- What is put in front becomes or begins the first literal. -/
theorem exists_prependLiteral {s : String} (hs : s ≠ "") (ps : List Part) : ∃ t back,
    prependLiteral s ps = literal t :: back ∧ s.toList <+: t.toList ∧ back.any isCode = ps.any isCode := by
  rcases ps with _ | ⟨t | e, ps⟩
  · exact ⟨s, [], by simp [prependLiteral, hs], List.prefix_rfl, rfl⟩
  · exact ⟨s ++ t, ps, rfl, by simp, by simp [isCode]⟩
  · exact ⟨s, code e :: ps, by simp [prependLiteral, hs], List.prefix_rfl, rfl⟩

theorem ofChars_none (h : first? s = none) : ofChars s = literalOf s := by
  rw [ofChars]
  split <;> simp_all

theorem ofChars_some (h : first? s = some (before, inner, after)) :
    ofChars s = literalOf before ++ code (String.ofList inner) :: ofChars after := by
  rw [ofChars]
  split <;> simp_all

theorem first?_eq (s : List Char) : first? s = (braces? s).bind fun (before, inner, after) =>
    if trim inner = [] then none else some (before, trim inner, after) := by
  rcases hbreak : breakAt ['\x7b', '\x7b'].isPrefixOf s with ⟨before, _ | ⟨c, found⟩⟩
  · rw [first?, braces?, hbreak]
    rfl
  · rw [first?, braces?, hbreak]
    dsimp only
    cases cut ['\x7d', '\x7d'] (List.drop 2 (c :: found)) <;> rfl

/-- What stands before the first braces has none. -/
theorem not_infix_before (h : braces? s = some (before, inner, after)) : ¬ interpolation <:+: before := by
  rintro ⟨u, v, huv⟩
  refine (braces?_eq_some h).2.1 u '\x7b' ('\x7b' :: v) (by simp [← huv, interpolation]) ?_
  simp [interpolation]

/-- Blank braces stand in the first literal. -/
theorem exists_blank (h : braces? s = some (before, inner, after)) (hblank : trim inner = []) : ∃ t back,
    ofText s = literal t :: back ∧ interpolation <:+: t.toList ∧ back.any isCode = (ofText after).any isCode := by
  obtain ⟨t, back, hparts, hbegins, hback⟩ := exists_prependLiteral
    (s := String.ofList (before ++ '\x7b' :: '\x7b' :: (inner ++ ['\x7d', '\x7d']))) (by simp) (ofText after)
  refine ⟨t, back, (ofText_blank h hblank).trans hparts, ?_, hback⟩
  rw [String.toList_ofList] at hbegins
  exact .trans ⟨before, inner ++ ['\x7d', '\x7d'], by simp [interpolation]⟩ hbegins.isInfix

/-- A text without code is one literal. -/
theorem ofText_eq_literalOf (h : (ofText s).any isCode = false) : ofText s = literalOf s := by
  induction s using ofText.induct with
  | case1 s hnone => rw [ofText_none hnone, prependLiteral_nil]
  | case2 s before inner after hsome hblank ih =>
    obtain ⟨t, back, hparts, -, hback⟩ := exists_blank hsome hblank
    rw [hparts, any_literal, hback] at h
    rw [ofText_blank hsome hblank, ih h, prependLiteral_literalOf, (braces?_eq_some hsome).1]
    simp
  | case3 s before inner after hsome hcode ih =>
    rw [ofText_code hsome hcode, prependLiteral_code, List.any_append, any_code, Bool.or_true] at h
    cases h

theorem resumes_code (hbefore : ¬ interpolation <:+: before) (e : String) (ps : List Part) :
    Resumes (literalOf before ++ code e :: ps) ↔ Resumes ps := by
  unfold literalOf
  split
  · rfl
  · simp [Resumes, hbefore]

/-- A value has the parts of the text unless code follows blank braces. -/
theorem ofChars_eq_ofText (h : ¬ Resumes (ofText s)) : ofChars s = ofText s := by
  induction s using ofText.induct with
  | case1 s hnone =>
    rw [ofText_none hnone, prependLiteral_nil, ofChars_none (by rw [first?_eq, hnone]; rfl)]
  | case2 s before inner after hsome hblank ih =>
    have hfirst : first? s = none := by simp [first?_eq, hsome, hblank]
    obtain ⟨t, back, hparts, hbraces, -⟩ := exists_blank hsome hblank
    rw [ofChars_none hfirst, ofText_eq_literalOf]
    rw [hparts, Resumes, not_or, not_and] at h
    rw [hparts, any_literal, ← Bool.not_eq_true]
    exact h.1 hbraces
  | case3 s before inner after hsome hcode ih =>
    have hfirst : first? s = some (before, trim inner, after) := by simp [first?_eq, hsome, hcode]
    rw [ofText_code hsome hcode, prependLiteral_code] at h ⊢
    rw [resumes_code (not_infix_before hsome)] at h
    rw [ofChars_some hfirst, ih h]

theorem prefix_of_prependLiteral {w r : List Char} {ps back : List Part} {t : String}
    (hps : ∀ x qs, ps = literal x :: qs → x.toList <+: r)
    (h : prependLiteral (String.ofList w) ps = literal t :: back) : t.toList <+: w ++ r := by
  rcases ps with _ | ⟨x | e, ps⟩
  · rw [prependLiteral_nil, literalOf] at h
    split at h <;> cases h
    simp
  · obtain ⟨rfl, -⟩ : String.ofList w ++ x = t ∧ ps = back := by simpa [prependLiteral] using h
    simpa using hps x ps rfl
  · rw [prependLiteral_code, literalOf] at h
    split at h <;> cases h
    simp

/-- The first literal of a text begins it. -/
theorem prefix_of_ofText {t : String} {ps : List Part} (h : ofText s = literal t :: ps) : t.toList <+: s := by
  induction s using ofText.induct generalizing t ps with
  | case1 s hnone =>
    rw [ofText_none hnone] at h
    simpa using prefix_of_prependLiteral (r := []) (by simp) h
  | case2 s before inner after hsome hblank ih =>
    rw [ofText_blank hsome hblank] at h
    rw [(braces?_eq_some hsome).1]
    simpa using prefix_of_prependLiteral (fun x qs hqs => ih hqs) h
  | case3 s before inner after hsome hcode ih =>
    rw [ofText_code hsome hcode] at h
    rw [(braces?_eq_some hsome).1]
    exact prefix_of_prependLiteral (by simp) h

/-- A literal with braces stands behind the code that follows a literal without. -/
theorem exists_front {front ps back : List Part} {t e : String} (hbefore : ¬ interpolation <:+: before)
    (ht : interpolation <:+: t.toList) (h : literalOf before ++ code e :: ps = front ++ literal t :: back) :
    ∃ rest, front = literalOf before ++ code e :: rest ∧ ps = rest ++ literal t :: back := by
  rcases List.append_eq_append_iff.1 h with ⟨rest, rfl, hrest⟩ | ⟨rest, hfront, hrest⟩
  · rcases rest with _ | ⟨x, rest⟩
    · cases hrest
    · obtain ⟨rfl, rfl⟩ := List.cons_eq_cons.1 hrest
      exact ⟨rest, rfl, rfl⟩
  · rcases rest with _ | ⟨x, rest⟩
    · cases hrest
    · obtain ⟨rfl, -⟩ := List.cons_eq_cons.1 hrest
      have hmem : literal t ∈ literalOf before := by simp [hfront]
      unfold literalOf at hmem
      split at hmem
      · cases hmem
      · obtain rfl : t = String.ofList before := by simpa using hmem
        rw [String.toList_ofList] at ht
        exact absurd ht hbefore

/-- From the first braces that are literal in text, a value is one literal. -/
theorem ofChars_of_braces {front back : List Part} {t : String} (h : ofText s = front ++ literal t :: back)
    (hfront : ∀ x, literal x ∈ front → ¬ interpolation <:+: x.toList) (ht : interpolation <:+: t.toList) :
    ∃ w, t.toList <+: w ∧ w <:+ s ∧ ofChars s = front ++ [literal (String.ofList w)] := by
  have hwhole {s : List Char} (hparts : ofText s = literal t :: back) (hfirst : first? s = none) :
      t.toList <+: s ∧ s <:+ s ∧ ofChars s = [literal (String.ofList s)] := by
    have hbegins := prefix_of_ofText hparts
    refine ⟨hbegins, List.suffix_rfl, ?_⟩
    rw [ofChars_none hfirst, literalOf, if_neg]
    rintro rfl
    rw [List.prefix_nil.1 hbegins] at ht
    exact absurd ht (by decide)
  induction s using ofText.induct generalizing front with
  | case1 s hnone =>
    have hfirst : first? s = none := by simp [first?_eq, hnone]
    rcases front with _ | ⟨x, front⟩
    · exact ⟨s, hwhole h hfirst⟩
    · rw [ofText_none hnone, prependLiteral_nil, literalOf] at h
      split at h <;> simp at h
  | case2 s before inner after hsome hblank ih =>
    have hfirst : first? s = none := by simp [first?_eq, hsome, hblank]
    obtain ⟨t₀, back₀, hparts, hbraces, -⟩ := exists_blank hsome hblank
    rcases front with _ | ⟨x, front⟩
    · exact ⟨s, hwhole h hfirst⟩
    · rw [hparts] at h
      obtain ⟨rfl, -⟩ := List.cons_eq_cons.1 h
      exact absurd hbraces (hfront t₀ List.mem_cons_self)
  | case3 s before inner after hsome hcode ih =>
    have hfirst : first? s = some (before, trim inner, after) := by simp [first?_eq, hsome, hcode]
    rw [ofText_code hsome hcode, prependLiteral_code] at h
    obtain ⟨front, rfl, hafter⟩ := exists_front (not_infix_before hsome) ht h
    obtain ⟨w, hbegins, hsuffix, hparts⟩ := ih hafter fun x hx => hfront x (by simp [hx])
    refine ⟨w, hbegins, hsuffix.trans ?_, ?_⟩
    · rw [(braces?_eq_some hsome).1]
      exact ⟨before ++ '\x7b' :: '\x7b' :: (inner ++ ['\x7d', '\x7d']), by simp⟩
    · rw [ofChars_some hfirst, hparts, List.append_assoc, List.cons_append]

/-- Where code follows literal braces, there are first such braces. -/
theorem exists_of_resumes {ps : List Part} (h : Resumes ps) : ∃ front t back, ps = front ++ literal t :: back ∧
    (∀ x, literal x ∈ front → ¬ interpolation <:+: x.toList) ∧ interpolation <:+: t.toList ∧
    back.any isCode = true := by
  induction ps with
  | nil => cases h
  | cons p ps ih =>
    cases p with
    | code e =>
      obtain ⟨front, t, back, rfl, hfront, ht, hback⟩ := ih h
      exact ⟨code e :: front, t, back, rfl, by simpa using hfront, ht, hback⟩
    | literal t =>
      by_cases ht : interpolation <:+: t.toList
      · refine ⟨[], t, ps, rfl, by simp, ht, ?_⟩
        rcases h with h | h
        · exact h.2
        · obtain ⟨front, t', back, rfl, -, -, hback⟩ := ih h
          simp only [List.any_append, any_literal, hback, Bool.or_true]
      · obtain ⟨front, t', back, rfl, hfront, ht', hback⟩ := ih (h.resolve_left fun hbraces => ht hbraces.1)
        exact ⟨literal t :: front, t', back, rfl, by simpa [ht] using hfront, ht', hback⟩

/-! ## Values -/

/-- The value that parts make: text if none of them is code, and else their host expressions in a row. -/
def value (d : Dialect) (text : String) (ps : List Part) : AttrValue :=
  if ps.any isCode then
    match ps.map (expression d) with
    | [] => .text text
    | x :: xs => .code (Fragment.expression (xs.foldl d.concat x))
  else .text text

theorem ofSource_eq_value {lead name : String} (hname : ¬ lead.toList <+: name.toList) (d : Dialect) (v : String) :
    AttrValue.ofSource lead d name (some v) = value d v (ofChars v.toList) := by
  have hlead : lead.toList.isPrefixOf name.toList = false := by
    rw [Bool.eq_false_iff, ne_eq, List.isPrefixOf_iff_prefix]
    exact hname
  simp only [AttrValue.ofSource, hlead, value]
  rfl

/-- A dialect in which an expression only shows how many parts are code. -/
def tally : Dialect :=
  { Dialect.php with literal := fun _ => "", escape := fun _ => "x", concat := fun s t => s ++ t }

theorem toList_foldl_tally (x : String) (ps : List Part) :
    ((ps.map (expression tally)).foldl tally.concat x).toList =
      x.toList ++ List.replicate (ps.countP isCode) 'x' := by
  induction ps generalizing x with
  | nil => simp
  | cons p ps ih =>
    rw [List.map_cons, List.foldl_cons, ih]
    cases p with
    | literal t => simp [tally, expression, isCode]
    | code e =>
      rw [List.countP_cons_of_pos (by rfl), List.replicate_succ]
      simp [tally, expression]

/-- A value shows how many of its parts are code. -/
theorem value_tally (v : String) {ps : List Part} (h : ps.any isCode = true) : value tally v ps =
    .code ⟨.expression, String.ofList (List.replicate (ps.countP isCode) 'x'), []⟩ := by
  obtain ⟨p, qs, rfl⟩ : ∃ p qs, ps = p :: qs := List.exists_cons_of_ne_nil (by rintro rfl; cases h)
  have hlist : ((qs.map (expression tally)).foldl tally.concat (expression tally p)).toList =
      List.replicate ((p :: qs).countP isCode) 'x' := by
    have hfold := toList_foldl_tally "" (p :: qs)
    rwa [List.map_cons, List.foldl_cons, show tally.concat "" (expression tally p) = expression tally p from
      String.empty_append] at hfold
  have hnormal (n : Nat) : Fragment.normalise (List.replicate n 'x') = List.replicate n 'x' := by
    have hmem : ∀ c ∈ List.replicate n 'x', isBlank c = false ∧ c ≠ ';' := by
      intro c hc
      rw [(List.mem_replicate.1 hc).2]
      decide
    exact Fragment.normalise_of_ends (fun c hc => (hmem c (List.mem_of_head? hc)).1)
      fun c hc => hmem c (List.mem_of_getLast? hc)
  rw [value, if_pos h, List.map_cons]
  dsimp only
  rw [Fragment.expression, hlist, hnormal]

/-- Values that are equal in every dialect have equally many parts that are code. -/
theorem countP_of_value {v : String} {ps qs : List Part} (h : value tally v ps = value tally v qs) :
    ps.countP isCode = qs.countP isCode := by
  have hzero {ps : List Part} (hps : ps.any isCode = false) :
      value tally v ps = .text v ∧ ps.countP isCode = 0 := by
    refine ⟨by rw [value, hps]; rfl, ?_⟩
    rw [List.countP_eq_zero]
    simpa using hps
  cases hps : ps.any isCode with
  | false =>
    cases hqs : qs.any isCode with
    | false => rw [(hzero hps).2, (hzero hqs).2]
    | true =>
      rw [(hzero hps).1, value_tally v hqs] at h
      cases h
  | true =>
    cases hqs : qs.any isCode with
    | false =>
      rw [(hzero hqs).1, value_tally v hps] at h
      cases h
    | true =>
      rw [value_tally v hps, value_tally v hqs] at h
      have hlen := congrArg String.length (Fragment.mk.inj (AttrValue.code.inj h)).2.1
      simpa using hlen

end Part

namespace Markup

open HtmlTemplate.Part

/-- Text and attribute values are told apart into the same parts, unless code follows braces with nothing
between them: text is then read on behind those braces, while the value is one literal from its first literal
braces on. -/
theorem interpolation_agrees (v : String) (hv : '<' ∉ v.toList) :
    (∀ lead d, parse lead d v = Tree.ofContent (forest d (ofText v.toList))) ∧
    ((∀ lead d name, ¬ lead.toList <+: name.toList →
        AttrValue.ofSource lead d name (some v) = value d v (ofText v.toList)) ↔ ¬ Resumes (ofText v.toList)) ∧
    ∀ front t back, ofText v.toList = front ++ literal t :: back →
      (∀ x, literal x ∈ front → ¬ interpolation <:+: x.toList) → interpolation <:+: t.toList →
      ∃ w : String, t.toList <+: w.toList ∧ w.toList <:+ v.toList ∧
        ∀ lead d name, ¬ lead.toList <+: name.toList →
          AttrValue.ofSource lead d name (some v) = value d v (front ++ [literal w]) := by
  refine ⟨fun lead d => ?_, ⟨fun h hresumes => ?_, fun h lead d name hname => ?_⟩,
    fun front t back h hfront ht => ?_⟩
  · have hlevels := levels_eq_content lead d v
    rw [levels_ofText hv] at hlevels
    rw [parse, ← List.singleton_inj.1 hlevels]
  · obtain ⟨front, t, back, hparts, hfront, ht, hback⟩ := exists_of_resumes hresumes
    obtain ⟨w, -, -, hchars⟩ := ofChars_of_braces hparts hfront ht
    have hvalue := h "j:" tally "a" (by decide)
    rw [ofSource_eq_value (by decide), hchars, hparts] at hvalue
    have hcount := countP_of_value hvalue
    have hcode : 0 < back.countP isCode := List.countP_pos_iff.2 (List.any_eq_true.1 hback)
    rw [List.countP_append, List.countP_append, List.countP_cons_of_neg Bool.false_ne_true,
      List.countP_cons_of_neg Bool.false_ne_true, List.countP_nil] at hcount
    omega
  · rw [ofSource_eq_value hname, ofChars_eq_ofText h]
  · obtain ⟨w, hbegins, hsuffix, hchars⟩ := ofChars_of_braces h hfront ht
    refine ⟨String.ofList w, ?_, ?_, fun lead d name hname => ?_⟩
    · rwa [String.toList_ofList]
    · rwa [String.toList_ofList]
    · rw [ofSource_eq_value hname, hchars]

/-- Blank braces at the end. -/
theorem interpolation_agrees_blank :
    '<' ∉ "a \x7b\x7b $b \x7d\x7d \x7b\x7b \x7d\x7d".toList ∧
    parse "j:" .php "a \x7b\x7b $b \x7d\x7d \x7b\x7b \x7d\x7d" = Tree.ofContent (cons (.text "a ") nil
      (cons (.code (Fragment.expression "$this->h($b)")) nil (cons (.text " \x7b\x7b \x7d\x7d") nil nil))) ∧
    AttrValue.ofSource "j:" .php "title" (some "a \x7b\x7b $b \x7d\x7d \x7b\x7b \x7d\x7d") =
      .code (Fragment.expression "'a ' . $this->h($b) . ' \x7b\x7b \x7d\x7d'") := by
  have hv : '<' ∉ "a \x7b\x7b $b \x7d\x7d \x7b\x7b \x7d\x7d".toList := by decide
  have hparts : ofText "a \x7b\x7b $b \x7d\x7d \x7b\x7b \x7d\x7d".toList =
      [literal "a ", code "$b", literal " \x7b\x7b \x7d\x7d"] := by decide +kernel
  have hresumes : ¬ Resumes (ofText "a \x7b\x7b $b \x7d\x7d \x7b\x7b \x7d\x7d".toList) := by
    rw [hparts]
    decide
  obtain ⟨hparse, hvalue, -⟩ := interpolation_agrees _ hv
  refine ⟨hv, (hparse "j:" .php).trans ?_, (hvalue.2 hresumes "j:" .php "title" (by decide)).trans ?_⟩
  · rw [hparts]
    rfl
  · rw [hparts]
    decide +kernel

/-- Behind blank braces text is code that is text in an attribute. -/
theorem interpolation_differs :
    parse "j:" .php "\x7b\x7b \x7d\x7d\x7b\x7b $a \x7d\x7d" = Tree.ofContent (cons (.text "\x7b\x7b \x7d\x7d") nil
      (cons (.code (Fragment.expression "$this->h($a)")) nil nil)) ∧
    AttrValue.ofSource "j:" .php "title" (some "\x7b\x7b \x7d\x7d\x7b\x7b $a \x7d\x7d") =
      .text "\x7b\x7b \x7d\x7d\x7b\x7b $a \x7d\x7d" := by
  constructor
  · decide +kernel
  · decide +kernel

end Markup

end HtmlTemplate
