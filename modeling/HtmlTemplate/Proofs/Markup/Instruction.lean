import HtmlTemplate.Proofs.Markup.Inert

/-! # Processing instructions

An instruction, like a declaration, ends at its first `>`. What follows that bracket is read as template
source again, also what still belongs to the instruction. So an instruction passes through in front of every
source exactly if all its tokens are inert: one that is not disturbs some source behind it (`exists_disturbs`).
-/

namespace HtmlTemplate

open Forest Chars

/-! ## What some source behind it makes of the rest -/

namespace Forest

/-- A forest that consists of text only. -/
def AllText (f : Forest Kind) : Prop :=
  ∀ k ∈ f.roots, k.text?.isSome = true

@[simp] theorem allText_nil : (nil : Forest Kind).AllText :=
  List.forall_mem_nil _

theorem allText_prependText (s : String) (f : Forest Kind) : (Markup.prependText s f).AllText ↔ f.AllText := by
  rcases Markup.prependText_cases f with ⟨t, r, rfl⟩ | h
  · simp [Markup.prependText, AllText, roots, Kind.text?]
  · rw [h]
    split
    · rfl
    · simp [AllText, roots, Kind.text?]

end Forest

namespace Token

variable {c : Char} {s r : List Char} {k : Token}

/-- What ends a start tag, depending on the quote that is open. -/
def tagEnds : List (List Char) := [['>'], ['"', '>'], ['\'', '>']]

/-- A start tag that is not ended can be. -/
theorem cutTag_tagEnds (s : List Char) {quote : Option Char} (hquote : quote ∈ [none, some '"', some '\'']) :
    ∃ t ∈ tagEnds, (cutTag quote (s ++ t)).isSome = true := by
  induction s generalizing quote with
  | nil =>
    obtain rfl | rfl | rfl : quote = none ∨ quote = some '"' ∨ quote = some '\'' := by simpa using hquote
    all_goals decide
  | cons c s ih =>
    simp only [List.cons_append]
    cases quote with
    | some q =>
      have hquote' : (if c = q then none else some q) ∈ [none, some '"', some '\''] := by
        split
        · decide
        · exact hquote
      simpa [cutTag] using ih hquote'
    | none =>
      by_cases hc : c = '>'
      · exact ⟨['>'], by decide, by simp [cutTag, hc]⟩
      · have hquote' : (if c = '"' ∨ c = '\'' then some c else none) ∈ [none, some '"', some '\''] := by
          split
          · rename_i hmark
            rcases hmark with rfl | rfl <;> decide
          · decide
        simpa [cutTag, hc] using ih hquote'

theorem next_opening? (h : opening? (c :: s) = some (k, r)) : next c s = (k, r) := by
  have hletter : ∃ y s', c = '<' ∧ s = y :: s' ∧ y ≠ '!' ∧ y ≠ '?' ∧ y ≠ '/' := by
    unfold opening? at h
    split at h
    · rename_i y s' heq
      obtain ⟨rfl, rfl⟩ := List.cons_eq_cons.1 heq
      split at h
      · rename_i hy
        refine ⟨y, s', rfl, rfl, ?_, ?_, ?_⟩
        all_goals
          rintro rfl
          cases hy
      · cases h
    · cases h
  obtain ⟨y, s, rfl, rfl, hmark, hquery, hslash⟩ := hletter
  have haside : aside? ('<' :: y :: s) = none := by
    unfold aside?
    split <;> simp_all
  have hclosing : closing? ('<' :: y :: s) = none := by
    unfold closing?
    split <;> simp_all
  rw [next, haside, hclosing, h]
  rfl

/-- A start tag that lacks its end has one if the right source follows. -/
theorem exists_opening (h : opensTag s = true) : ∃ t ∈ tagEnds, ∃ k r, opening? (s ++ t) = some (k, r) := by
  unfold opensTag at h
  split at h
  · rename_i y s
    obtain ⟨t, ht, hcut⟩ := cutTag_tagEnds (y :: s) (by decide : none ∈ [none, some '"', some '\''])
    refine ⟨t, ht, ?_⟩
    obtain ⟨x, hx⟩ := Option.isSome_iff_exists.1 hcut
    simp only [List.cons_append] at hx ⊢
    rw [opening?, if_pos h, hx]
    exact ⟨_, _, rfl⟩
  · cases h

/-- So does an interpolation. -/
theorem exists_code (hend : s.getLast? = some '>') (hopen : interpolation <+: s) (h : ¬ closingBraces <:+: s) :
    ∃ k r, code? (s ++ closingBraces) = some (k, r) := by
  obtain ⟨w, rfl⟩ := hopen
  have hlast : w.getLast? = some '>' := by
    rcases w with _ | ⟨y, w⟩
    · simp [interpolation] at hend
    · rwa [List.getLast?_append_of_ne_nil _ (List.cons_ne_nil _ _)] at hend
  have hw : ¬ closingBraces <:+: w := fun hw => h (hw.trans ⟨interpolation, [], by simp⟩)
  have hcut : cut closingBraces (w ++ (closingBraces ++ [])) = some (w, []) := by
    refine cut_first (by decide) ?_ []
    rw [List.dropLast_append_of_ne_nil (by decide), List.infix_append_iff]
    rintro (hoccurs | hoccurs | ⟨l₁, l₂, hl, hsuffix, hbegins⟩)
    · exact hw hoccurs
    · exact absurd hoccurs.length_le (by decide)
    · rcases l₂ with _ | ⟨y, l₂⟩
      · rw [List.append_nil] at hl
        exact hw (hl ▸ hsuffix.isInfix)
      · obtain ⟨rfl, rfl⟩ : y = '\x7d' ∧ l₂ = [] := by
          simpa [closingBraces, List.cons_prefix_cons] using hbegins
        obtain rfl : l₁ = ['\x7d'] := (List.append_left_inj ['\x7d']).1 hl.symm
        obtain ⟨v, rfl⟩ := hsuffix
        simp at hlast
  have hblank : trim w ≠ [] := by
    intro hblank
    exact absurd (isBlank_of_trim hblank '>' (List.mem_of_getLast? hlast)) (by decide)
  rw [List.append_nil] at hcut
  refine ⟨code (String.ofList (trim w)), [], ?_⟩
  rw [List.append_assoc]
  simp only [interpolation, List.cons_append, List.nil_append]
  rw [code?, show cut ['\x7d', '\x7d'] (w ++ closingBraces) = some (w, []) from hcut]
  exact if_neg hblank

/-- Braces that are blank but closed stand in one text. -/
theorem infix_blank (hcode : code? ('\x7b' :: '\x7b' :: s) = none) (h : closingBraces <:+: s) :
    closingBraces <:+: (breakAt mayBegin ('\x7b' :: s)).1 := by
  obtain ⟨inner, after, hcut, hblank⟩ := exists_inner hcode h
  have hs : '\x7b' :: s = '\x7b' :: (inner ++ ['\x7d', '\x7d']) ++ after := by simp [(cut_spec hcut).1]
  rw [hs, breakAt_skip (mayBegin_blank hblank)]
  exact ⟨'\x7b' :: inner, (breakAt mayBegin after).1, by simp [closingBraces]⟩

theorem opensTag_of_begins {u : List Char} (h : u <+: s) (hu : opensTag u = true) : opensTag s = true := by
  obtain ⟨w, rfl⟩ := h
  unfold opensTag at hu
  split at hu
  · exact hu
  · cases hu

end Token

namespace Markup

open Token

variable {lead : String} {d : Dialect} {c : Char} {s r : List Char} {k : Token}

theorem not_allText_of_isMarkup (hnext : next c s = (k, r)) (hk : k.isMarkup = true) :
    ¬ (content lead d (String.ofList (c :: s))).AllText := by
  have htree (x : Kind) (hx : x.text? = none) (f : Forest Kind) (fs : List (Forest Kind)) (hfs : 0 < fs.length) :
      ¬ ((prependTree x f fs).headD .nil).AllText := by
    intro h
    obtain ⟨g, gs, rfl⟩ := List.exists_cons_of_length_pos hfs
    have hsome := h x (List.mem_cons_self ..)
    rw [hx] at hsome
    cases hsome
  have hlen (opened : List String) : 0 < (levels lead d opened (scan r)).length := by
    rw [length_levels]
    omega
  rw [content, String.toList_ofList, scan, hnext]
  cases k with
  | text x | closing name x => cases hk
  | code e => exact htree _ rfl _ _ (hlen [])
  | leaf tag => exact htree _ rfl _ _ (hlen [])
  | raw tag body => exact htree _ rfl _ _ (hlen [])
  | opening tag =>
    have hlevels := length_levels lead d [tag.name] (scan r)
    rw [levels]
    split
    · rename_i inner fs heq
      rw [heq] at hlevels
      exact htree _ rfl _ _ (by simp_all)
    · rename_i heq
      rw [heq] at hlevels
      cases hlevels

theorem allText_of_forall (h : ∀ c ∈ s, c ≠ '<' ∧ c ≠ '\x7b') : (content lead d (String.ofList s)).AllText := by
  have hrun : levels lead d [] (scan (s ++ [])) =
      (levels lead d [] (scan [])).modifyHead (prependText (String.ofList s)) :=
    levels_run fun u c v hs => by
      have hc := h c (by simp [hs])
      exact mayBegin_of_ne hc.1 hc.2
  rw [List.append_nil] at hrun
  rw [content_of_levels hrun, allText_prependText, content, String.toList_ofList, scan, levels]
  exact allText_nil

/-- A comment without end reaches to the end of the source. -/
theorem allText_of_comment (hopen : "<!--".toList <+: s) (h : ¬ "-->".toList <:+: s) :
    (content lead d (String.ofList s)).AllText := by
  obtain ⟨w, rfl⟩ : ∃ w, s = '<' :: '!' :: '-' :: '-' :: w := hopen.imp fun w hw => hw.symm
  have hthrough : through "-->".toList ('<' :: '!' :: '-' :: '-' :: w) = ('<' :: '!' :: '-' :: '-' :: w, []) := by
    rw [through, (cut_eq_none_iff (by decide)).2 h]
  have haside : aside? ('<' :: '!' :: '-' :: '-' :: w) =
      some (text (String.ofList ('<' :: '!' :: '-' :: '-' :: w)), []) := by
    rw [aside?, hthrough]
  rw [content, String.toList_ofList, scan_aside haside, levels, scan, levels]
  exact (allText_prependText _ _).2 allText_nil

/-- Behind `s`, the source `t` is not read as it is alone. -/
def Disturbs (s t : List Char) : Prop :=
  ∀ lead d, ¬ ((content lead d (String.ofList (s ++ t))).AllText ↔ (content lead d (String.ofList t)).AllText)

theorem disturbs_of_isMarkup {t : List Char} (ht : ∀ c ∈ t, c ≠ '<' ∧ c ≠ '\x7b')
    (hnext : next c (s ++ t) = (k, r)) (hk : k.isMarkup = true) : Disturbs (c :: s) t :=
  fun _ _ h => not_allText_of_isMarkup hnext hk (h.2 (allText_of_forall ht))

/-- An interpolation without end takes in braces behind it. -/
theorem disturbs_braces (hend : (c :: s).getLast? = some '>') (hopen : interpolation <+: c :: s)
    (h : ¬ closingBraces <:+: c :: s) : Disturbs (c :: s) closingBraces := by
  obtain ⟨k, r, hcode⟩ := exists_code hend hopen h
  exact disturbs_of_isMarkup (by simp [closingBraces]) (next_code? hcode) (isMarkup_code? hcode)

/-- A comment without end takes in an element behind it. -/
theorem disturbs_element (hopen : "<!--".toList <+: s) (h : ¬ "-->".toList <:+: s) :
    Disturbs s "<br>".toList := by
  intro lead d hiff
  have hbr : ¬ (content lead d (String.ofList "<br>".toList)).AllText :=
    not_allText_of_isMarkup (k := .leaf ⟨"br", []⟩) (r := []) (by decide +kernel) rfl
  refine hbr (hiff.1 (allText_of_comment (hopen.trans (List.prefix_append ..)) ?_))
  rw [List.infix_append_iff]
  rintro (hoccurs | hoccurs | ⟨l₁, l₂, hl, hsuffix, hbegins⟩)
  · exact h hoccurs
  · exact absurd hoccurs (by decide)
  · rcases l₂ with _ | ⟨y, l₂⟩
    · rw [List.append_nil] at hl
      exact h (hl ▸ hsuffix.isInfix)
    · obtain rfl : y = '<' := (List.cons_prefix_cons.1 hbegins).1
      have hmem : '<' ∈ "-->".toList := by
        rw [hl]
        simp
      exact absurd hmem (by decide)

/-- A token that is not inert can be told from text by what follows. -/
theorem exists_disturbs_next (hend : (c :: s).getLast? = some '>') (hnext : next c s = (k, r))
    (h : ¬ k.Inert) : ∃ t, Disturbs (c :: s) t := by
  rcases next_cases hnext with haside | hclosing | hopening | hcode | ⟨haside, hclosing, -, hcode, rfl, rfl⟩
  · obtain ⟨pat, hpat, rfl, -, -⟩ := aside?_through hend haside
    have hbegins := through_begins pat (c :: s)
    obtain ⟨y, w, hs, hy⟩ := exists_mark haside
    rw [Token.Inert, String.toList_ofList, not_and_or, not_and_or] at h
    rcases h with hopens | hcomment | hbraces
    · rw [Bool.not_eq_false] at hopens
      have hletter := opensTag_of_begins hbegins hopens
      rw [hs] at hletter
      rcases hy with rfl | rfl <;> cases hletter
    · rw [Classical.not_imp] at hcomment
      have hopen := hcomment.1.trans hbegins
      rcases hpat with ⟨-, hne⟩ | ⟨rfl, -⟩
      · exact absurd hopen hne
      · refine ⟨_, disturbs_element hopen fun hclosed => hcomment.2 ?_⟩
        obtain ⟨u, r, -, hthrough, -⟩ := through_append (by decide) hclosed
        rw [hthrough]
        exact (List.suffix_append ..).isInfix
    · rw [Classical.not_imp] at hbraces
      have hopen := hbraces.1.trans hbegins
      rw [hs] at hopen
      exact absurd (List.cons_prefix_cons.1 hopen).1 (by decide)
  · obtain ⟨name, u, -, rfl, -⟩ := closing?_append hclosing
    exact absurd trivial h
  · exact ⟨[], disturbs_of_isMarkup (by simp) (by rwa [List.append_nil]) (isMarkup_opening? hopening)⟩
  · exact ⟨[], disturbs_of_isMarkup (by simp) (by rwa [List.append_nil]) (isMarkup_code? hcode)⟩
  · have hbegins : c :: (breakAt mayBegin s).1 <+: c :: s :=
      ⟨(breakAt mayBegin s).2, by rw [List.cons_append, breakAt_append]⟩
    rw [Token.Inert, String.toList_ofList, not_and_or, not_and_or] at h
    rcases h with hopens | hcomment | hbraces
    · rw [Bool.not_eq_false] at hopens
      obtain ⟨t, ht, k, r, hopening⟩ := exists_opening (opensTag_of_begins hbegins hopens)
      have hends : ∀ t ∈ tagEnds, ∀ c ∈ t, c ≠ '<' ∧ c ≠ '\x7b' := by simp [tagEnds]
      exact ⟨t, disturbs_of_isMarkup (hends t ht) (next_opening? hopening) (isMarkup_opening? hopening)⟩
    · rw [Classical.not_imp] at hcomment
      obtain ⟨w, hw⟩ := hcomment.1.trans hbegins
      rw [← hw] at haside
      cases haside
    · rw [Classical.not_imp] at hbraces
      have hopen := hbraces.1.trans hbegins
      refine ⟨_, disturbs_braces hend hopen fun hclosed => hbraces.2 ?_⟩
      obtain ⟨w, hw⟩ := hopen
      cases hw
      have hclosed' : closingBraces <:+: w := by
        simpa [closingBraces, List.infix_cons_iff, List.cons_prefix_cons] using hclosed
      exact (infix_blank hcode hclosed').trans (List.suffix_cons ..).isInfix

/-- A source that is not inert disturbs some other behind it. -/
theorem exists_disturbs (hend : ∀ c, s.getLast? = some c → c = '>') (h : ∃ k ∈ scan s, ¬ k.Inert) :
    ∃ t, Disturbs s t := by
  induction s using scan.induct with
  | case1 =>
    obtain ⟨k, hk, -⟩ := h
    rw [scan] at hk
    cases hk
  | case2 c s x ih =>
    rcases hnext : next c s with ⟨k, r⟩
    simp only [x, hnext] at ih
    have hlast := getLast?_of_forall hend
    by_cases hbraces : interpolation <+: c :: s → closingBraces <:+: c :: s
    · by_cases hk : k.Inert
      · obtain ⟨u, hu, hlevels⟩ := levels_inert hlast hbraces hnext hk
        have hrest : ∃ k ∈ scan r, ¬ k.Inert := by
          simpa [scan, hnext, hk] using h
        obtain ⟨t, ht⟩ := ih (fun y hy => hend y (by rw [hu, List.getLast?_append, hy]; rfl)) hrest
        refine ⟨t, fun lead d => ?_⟩
        rw [content_of_levels (hlevels lead d t), allText_prependText]
        exact ht lead d
      · exact exists_disturbs_next hlast hnext hk
    · rw [Classical.not_imp] at hbraces
      exact ⟨_, disturbs_braces hlast hbraces.1 hbraces.2⟩

/-- A source that ends with a bracket is text in front of every other exactly if it is inert. -/
theorem content_append_iff (lead : String) (d : Dialect) (hend : ∀ c, s.getLast? = some c → c = '>') :
    (∀ t, content lead d (String.ofList (s ++ t)) =
      prependText (String.ofList s) (content lead d (String.ofList t))) ↔ ∀ k ∈ scan s, k.Inert := by
  constructor
  · intro h
    by_contra hinert
    push Not at hinert
    obtain ⟨t, ht⟩ := exists_disturbs hend hinert
    refine ht lead d ?_
    rw [h, allText_prependText]
  · exact fun h t => content_of_levels (levels_of_inert hend h lead d t)

/-- An instruction with what stands between its marks. -/
def instruction (body : String) : String :=
  "<?" ++ body ++ "?>"

/-- The text of an instruction ends at the first bracket; what follows is source. -/
theorem content_instruction (lead : String) (d : Dialect) {b p q : String} (hx : instruction b = p ++ ">" ++ q)
    (hp : '>' ∉ p.toList) (t : String) :
    content lead d (instruction b ++ t) = prependText (p ++ ">") (content lead d (q ++ t)) := by
  have hlist : '<' :: '?' :: (b.toList ++ ['?', '>']) = p.toList ++ '>' :: q.toList := by
    have h := congrArg String.toList hx
    simpa [instruction] using h
  obtain ⟨w, hw⟩ : ∃ w, p.toList = '<' :: '?' :: w := by
    rcases hlistp : p.toList with _ | ⟨x, _ | ⟨y, w⟩⟩
    · simp [hlistp] at hlist
    · simp [hlistp] at hlist
    · rw [hlistp] at hlist
      simp only [List.cons_append, List.cons.injEq] at hlist
      exact ⟨w, by rw [hlist.1, hlist.2.1]⟩
  have hsource : (instruction b ++ t).toList = '<' :: '?' :: (w ++ '>' :: (q ++ t).toList) := by
    rw [String.toList_append, hx]
    simp [hw]
  have htext : String.ofList ('<' :: '?' :: (w ++ ['>'])) = p ++ ">" := String.toList_inj.1 (by simp [hw])
  have hlevels := levels_eq_content lead d (instruction b ++ t)
  have hbracket : '>' ∉ w := fun h => hp (by simp [hw, h])
  rw [hsource, scan_aside (aside?_instruction hbracket _), levels, levels_eq_content, htext] at hlevels
  exact (List.singleton_inj.1 hlevels).symm

theorem ofContent_injective {f g : Forest Kind} (h : Tree.ofContent f = Tree.ofContent g) : f = g := by
  have hkinds := congrArg (fun t => Tree.kindsAt t Tree.root) h
  simp only [kindsAt_ofContent] at hkinds
  exact (Forest.cons.inj hkinds).2.1

/-- An instruction is text up to its first bracket, and what follows that is read as source. So it passes
through untouched if it holds no bracket of its own, and in front of every source exactly if all tokens that it
is read as are inert. -/
theorem parse_instruction (lead : String) (d : Dialect) (b : String) :
    (∀ p q t : String, instruction b = p ++ ">" ++ q → '>' ∉ p.toList →
      parse lead d (instruction b ++ t) = Tree.ofContent (prependText (p ++ ">") (content lead d (q ++ t)))) ∧
    ('>' ∉ b.toList → ∀ t, parse lead d (instruction b ++ t) =
      Tree.ofContent (prependText (instruction b) (content lead d t))) ∧
    ((∀ t, parse lead d (instruction b ++ t) =
        Tree.ofContent (prependText (instruction b) (content lead d t))) ↔
      ∀ token ∈ Token.scan (instruction b).toList, token.Inert) := by
  refine ⟨fun p q t hx hp => congrArg Tree.ofContent (content_instruction lead d hx hp t), fun hb t => ?_, ?_⟩
  · have hwhole : "<?" ++ b ++ "?" ++ ">" = instruction b := String.toList_inj.1 (by simp [instruction])
    have hx : instruction b = "<?" ++ b ++ "?" ++ ">" ++ "" := by rw [hwhole, String.append_empty]
    have hp : '>' ∉ ("<?" ++ b ++ "?").toList := by simpa using hb
    have hcontent := content_instruction lead d hx hp t
    rw [String.empty_append, hwhole] at hcontent
    exact congrArg Tree.ofContent hcontent
  · have hend : ∀ c, (instruction b).toList.getLast? = some c → c = '>' := by
      intro c hc
      rw [instruction, String.toList_append, List.getLast?_append] at hc
      exact (Option.some.inj hc).symm
    rw [← content_append_iff lead d hend]
    constructor
    · intro h t
      have hparse := ofContent_injective (h (String.ofList t))
      rwa [String.ofList_append, String.ofList_toList]
    · intro h t
      have hcontent := h t.toList
      rw [String.ofList_append, String.ofList_toList, String.ofList_toList] at hcontent
      exact congrArg Tree.ofContent hcontent

/-- A condition that compares, and an instruction that does not. -/
theorem parse_instruction_condition :
    (instruction "php if ($a > 1): " = "<?php if ($a " ++ ">" ++ " 1): ?>" ∧ '>' ∉ "<?php if ($a ".toList ∧
      parse "j:" .php (instruction "php if ($a > 1): " ++ "<br>") =
        Tree.ofContent (cons (.text "<?php if ($a > 1): ?>") nil (cons (.element ⟨"br", []⟩) nil nil))) ∧
    ('>' ∉ "php echo '<b \x7b\x7b $x \x7d\x7d'; ".toList ∧
      parse "j:" .php (instruction "php echo '<b \x7b\x7b $x \x7d\x7d'; " ++ "<br>") =
        Tree.ofContent (cons (.text "<?php echo '<b \x7b\x7b $x \x7d\x7d'; ?>") nil
          (cons (.element ⟨"br", []⟩) nil nil))) := by
  have hx : instruction "php if ($a > 1): " = "<?php if ($a " ++ ">" ++ " 1): ?>" := by decide
  have hp : '>' ∉ "<?php if ($a ".toList := by decide +kernel
  have hb : '>' ∉ "php echo '<b \x7b\x7b $x \x7d\x7d'; ".toList := by decide +kernel
  have hbr : content "j:" .php "<br>" = cons (.element ⟨"br", []⟩) nil nil := by decide +kernel
  have hrest : content "j:" .php (" 1): ?>" ++ "<br>") =
      cons (.text " 1): ?>") nil (cons (.element ⟨"br", []⟩) nil nil) := by decide +kernel
  refine ⟨⟨hx, hp, ((parse_instruction "j:" .php _).1 _ _ "<br>" hx hp).trans ?_⟩,
    hb, ((parse_instruction "j:" .php _).2.1 hb "<br>").trans ?_⟩
  · rw [hrest]
    rfl
  · rw [hbr]
    rfl

/-- The braces of an instruction are read as an interpolation, if there is a bracket before them. -/
theorem instruction_interpolates :
    ¬ "?>".toList <:+: "php echo $a > 1 ? '\x7b\x7b $x \x7d\x7d' : ''; ".toList ∧
    parse "j:" .php (instruction "php echo $a > 1 ? '\x7b\x7b $x \x7d\x7d' : ''; " ++ "") ≠
      Tree.ofContent (prependText (instruction "php echo $a > 1 ? '\x7b\x7b $x \x7d\x7d' : ''; ")
        (content "j:" .php "")) := by
  constructor
  · decide +kernel
  · decide +kernel

end Markup

end HtmlTemplate
