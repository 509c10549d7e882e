import HtmlTemplate.Proofs.Markup.RoundTrip

/-! # Passages that are not looked into

Comments, declarations and the bodies of scripts and styles are not looked into: what they hold is text, and
what follows them is read as if it stood alone.
-/

namespace HtmlTemplate

open Forest Chars

/-! ## Tokens of passages -/

namespace Token

variable {k : Token} {c : Char} {s r t : List Char}

theorem scan_aside (h : aside? (c :: s) = some (k, r)) : scan (c :: s) = k :: scan r := by
  rw [scan, next, h]
  rfl

theorem aside?_comment (h : ¬ ['-', '-', '>'] <:+: '<' :: '!' :: '-' :: '-' :: (s ++ ['-', '-'])) (r : List Char) :
    aside? ('<' :: '!' :: '-' :: '-' :: (s ++ '-' :: '-' :: '>' :: r)) =
      some (text (String.ofList ('<' :: '!' :: '-' :: '-' :: (s ++ ['-', '-', '>']))), r) := by
  have hlast : ('<' :: '!' :: '-' :: '-' :: s ++ ['-', '-', '>']).dropLast =
      '<' :: '!' :: '-' :: '-' :: (s ++ ['-', '-']) :=
    List.dropLast_append_of_ne_nil (List.cons_ne_nil _ _)
  have hcut : cut ['-', '-', '>'] ('<' :: '!' :: '-' :: '-' :: (s ++ '-' :: '-' :: '>' :: r)) =
      some ('<' :: '!' :: '-' :: '-' :: s, r) :=
    cut_first (by decide) (hlast ▸ h) r
  have hthrough : through "-->".toList ('<' :: '!' :: '-' :: '-' :: (s ++ '-' :: '-' :: '>' :: r)) =
      ('<' :: '!' :: '-' :: '-' :: (s ++ ['-', '-', '>']), r) := by
    rw [through, show "-->".toList = ['-', '-', '>'] from rfl, hcut]
    rfl
  rw [aside?, hthrough]

/-- A declaration ends at its first bracket. -/
theorem aside?_declaration (hcomment : ¬ ['-', '-'] <+: s) (hs : '>' ∉ s) (r : List Char) :
    aside? ('<' :: '!' :: (s ++ '>' :: r)) =
      some (text (String.ofList ('<' :: '!' :: (s ++ ['>']))), r) := by
  have hthrough := through_bracket (s := '<' :: '!' :: s) (by simpa using hs) r
  simp only [List.cons_append] at hthrough
  rw [aside?, hthrough]
  rintro s' heq
  rcases s with _ | ⟨a, _ | ⟨b, s⟩⟩
  · cases heq
  · cases heq
  · cases heq
    exact hcomment ⟨s, rfl⟩

/-- So does an instruction. -/
theorem aside?_instruction (hs : '>' ∉ s) (r : List Char) :
    aside? ('<' :: '?' :: (s ++ '>' :: r)) =
      some (text (String.ofList ('<' :: '?' :: (s ++ ['>']))), r) := by
  have hthrough := through_bracket (s := '<' :: '?' :: s) (by simpa using hs) r
  simp only [List.cons_append] at hthrough
  rw [aside?, hthrough]

end Token

namespace Markup

variable {lead : String} {d : Dialect} {x t : String}

/-- What is scanned as one text stands in front of the rest. -/
theorem content_passage (h : Token.scan (x ++ t).toList = .text x :: Token.scan t.toList) :
    content lead d (x ++ t) = prependText x (content lead d t) := by
  have hlevels := levels_eq_content lead d (x ++ t)
  rw [h, levels, levels_eq_content] at hlevels
  exact (List.singleton_inj.1 hlevels).symm

theorem content_comment (c : String) (h : ¬ "-->".toList <:+: ("<!--" ++ c ++ "--").toList) (t : String) :
    content lead d ("<!--" ++ c ++ "-->" ++ t) =
      prependText ("<!--" ++ c ++ "-->") (content lead d t) := by
  have hsource : ("<!--" ++ c ++ "-->" ++ t).toList =
      '<' :: '!' :: '-' :: '-' :: (c.toList ++ '-' :: '-' :: '>' :: t.toList) := by simp
  have htext : String.ofList ('<' :: '!' :: '-' :: '-' :: (c.toList ++ ['-', '-', '>'])) =
      "<!--" ++ c ++ "-->" := String.toList_inj.1 (by simp)
  rw [String.toList_append, String.toList_append] at h
  refine content_passage ?_
  rw [hsource, Token.scan_aside (Token.aside?_comment (s := c.toList) h t.toList), htext]

theorem content_declaration (c : String) (hc : '>' ∉ c.toList)
    (hcomment : ¬ "<!--".toList <+: ("<!" ++ c ++ ">").toList) (t : String) :
    content lead d ("<!" ++ c ++ ">" ++ t) = prependText ("<!" ++ c ++ ">") (content lead d t) := by
  have hsource : ("<!" ++ c ++ ">" ++ t).toList = '<' :: '!' :: (c.toList ++ '>' :: t.toList) := by simp
  have htext : String.ofList ('<' :: '!' :: (c.toList ++ ['>'])) = "<!" ++ c ++ ">" :=
    String.toList_inj.1 (by simp)
  have hdash : ¬ ['-', '-'] <+: c.toList := by
    rintro ⟨w, hw⟩
    refine hcomment ⟨w ++ ['>'], ?_⟩
    simp [← hw]
  refine content_passage ?_
  rw [hsource, Token.scan_aside (Token.aside?_declaration hdash hc t.toList), htext]

theorem content_raw {tag : String} (htag : tag ∈ rawTextTags) (body : String)
    (h : ¬ ("</" ++ tag).toList <:+: lower body.toList) (t : String) :
    content lead d ("<" ++ tag ++ ">" ++ body ++ "</" ++ tag ++ ">" ++ t) =
      cons (.element (Element.ofTag tag)) (if body = "" then nil else cons (.text body) nil nil)
        (content lead d t) := by
  have hplain : isPlainTag tag = true ∧ isVoid tag = false :=
    (by decide : ∀ tag ∈ rawTextTags, isPlainTag tag = true ∧ isVoid tag = false) tag htag
  have hraw : isRawText tag = true := List.contains_iff_mem.2 htag
  have hsource : ("<" ++ tag ++ ">" ++ body ++ "</" ++ tag ++ ">" ++ t).toList =
      '<' :: (inside tag [] ++ '>' :: (body.toList ++ '<' :: '/' :: (tag.toList ++ '>' :: t.toList))) := by
    simp [inside]
  have hend : ¬ ('<' :: '/' :: tag.toList) <:+: lower body.toList := by
    rwa [String.toList_append] at h
  have hlevels := levels_eq_content lead d
    ("<" ++ tag ++ ">" ++ body ++ "</" ++ tag ++ ">" ++ t)
  rw [hsource, Token.scan_opening hplain.1 (List.forall_mem_nil _), if_neg (by simp [hplain.2]), if_pos hraw,
    Token.rawBody_append hplain.1 hend, levels, levels_eq_content, String.ofList_toList] at hlevels
  exact (List.singleton_inj.1 hlevels).symm

/-- What a comment, a declaration or the body of a script or style holds is text, whatever it looks like, and
what follows is read as if it stood alone. -/
theorem parse_passage (lead : String) (d : Dialect) (t : String) :
    (∀ c : String, ¬ "-->".toList <:+: ("<!--" ++ c ++ "--").toList →
      parse lead d ("<!--" ++ c ++ "-->" ++ t) =
        Tree.ofContent (prependText ("<!--" ++ c ++ "-->") (content lead d t))) ∧
    (∀ c : String, '>' ∉ c.toList → ¬ "<!--".toList <+: ("<!" ++ c ++ ">").toList →
      parse lead d ("<!" ++ c ++ ">" ++ t) =
        Tree.ofContent (prependText ("<!" ++ c ++ ">") (content lead d t))) ∧
    ∀ tag ∈ rawTextTags, ∀ body : String, ¬ ("</" ++ tag).toList <:+: lower body.toList →
      parse lead d ("<" ++ tag ++ ">" ++ body ++ "</" ++ tag ++ ">" ++ t) =
        Tree.ofContent (cons (.element (Element.ofTag tag))
          (if body = "" then nil else cons (.text body) nil nil) (content lead d t)) :=
  ⟨fun c hc => congrArg Tree.ofContent (content_comment c hc t),
    fun c hc hcomment => congrArg Tree.ofContent (content_declaration c hc hcomment t),
    fun _ htag body hbody => congrArg Tree.ofContent (content_raw htag body hbody t)⟩

/-- A comment around a directive, a declaration with a quote, and a script that looks like a template. -/
theorem parse_passage_template :
    (¬ "-->".toList <:+: ("<!--" ++ " <p j:if=\"x\"> -- >" ++ "--").toList ∧
      parse "j:" .php ("<!--" ++ " <p j:if=\"x\"> -- >" ++ "-->" ++ "<br>") =
        Tree.ofContent (cons (.text "<!-- <p j:if=\"x\"> -- >-->") nil (cons (.element ⟨"br", []⟩) nil nil))) ∧
    ('>' ∉ "DOCTYPE \"".toList ∧ ¬ "<!--".toList <+: ("<!" ++ "DOCTYPE \"" ++ ">").toList ∧
      parse "j:" .php ("<!" ++ "DOCTYPE \"" ++ ">" ++ "a<br>") =
        Tree.ofContent (cons (.text "<!DOCTYPE \">a") nil (cons (.element ⟨"br", []⟩) nil nil))) ∧
    "script" ∈ rawTextTags ∧ ¬ ("</" ++ "script").toList <:+: lower "\"</p>\x7b\x7b a \x7d\x7d".toList ∧
      parse "j:" .php ("<" ++ "script" ++ ">" ++ "\"</p>\x7b\x7b a \x7d\x7d" ++ "</" ++ "script" ++ ">" ++ "b") =
        Tree.ofContent (cons (.element ⟨"script", []⟩) (cons (.text "\"</p>\x7b\x7b a \x7d\x7d") nil nil)
          (cons (.text "b") nil nil)) := by
  have hbr : content "j:" .php "<br>" = cons (.element ⟨"br", []⟩) nil nil := by decide +kernel
  have habr : content "j:" .php "a<br>" = cons (.text "a") nil (cons (.element ⟨"br", []⟩) nil nil) := by
    decide +kernel
  have hb : content "j:" .php "b" = cons (.text "b") nil nil := by decide +kernel
  have hcomment : ¬ "-->".toList <:+: ("<!--" ++ " <p j:if=\"x\"> -- >" ++ "--").toList := by decide +kernel
  have hbracket : '>' ∉ "DOCTYPE \"".toList := by decide +kernel
  have hdeclaration : ¬ "<!--".toList <+: ("<!" ++ "DOCTYPE \"" ++ ">").toList := by decide +kernel
  have hscript : "script" ∈ rawTextTags := by decide
  have hbody : ¬ ("</" ++ "script").toList <:+: lower "\"</p>\x7b\x7b a \x7d\x7d".toList := by decide +kernel
  refine ⟨⟨hcomment, ((parse_passage "j:" .php "<br>").1 _ hcomment).trans ?_⟩,
    ⟨hbracket, hdeclaration, ((parse_passage "j:" .php "a<br>").2.1 _ hbracket hdeclaration).trans ?_⟩,
    hscript, hbody, ((parse_passage "j:" .php "b").2.2 _ hscript _ hbody).trans ?_⟩
  · rw [hbr]
    rfl
  · rw [habr]
    rfl
  · rw [hb]
    rfl

end Markup

end HtmlTemplate
