import HtmlTemplate.Proofs.Markup.Tag

/-! # Text in front of a source

Where nothing but text begins, the first character of a source is text in front of what the rest of it reads
as (`levels_char`). So a run of text is read character by character (`levels_run`), wherever the scanner cuts
it into tokens, and what follows it is read as if it stood alone.
-/

namespace HtmlTemplate

open Chars

namespace Markup

/-! ## Putting text in front -/

/-- Text stands at the front of a forest, or what is put there becomes a text of its own. -/
theorem prependText_cases (f : Forest Kind) :
    (∃ t r, f = .cons (.text t) .nil r) ∨
      ∀ s, prependText s f = if s = "" then f else .cons (.text s) .nil f := by
  by_cases h : ∃ t r, f = .cons (.text t) .nil r
  · exact Or.inl h
  · refine Or.inr fun s => ?_
    unfold prependText
    split
    · rename_i t r
      exact absurd ⟨t, r, rfl⟩ h
    · rfl

@[simp] theorem prependText_empty (f : Forest Kind) : prependText "" f = f := by
  rcases prependText_cases f with ⟨t, r, rfl⟩ | h
  · rw [prependText, String.empty_append]
  · rw [h, if_pos rfl]

theorem prependText_append (s t : String) (f : Forest Kind) :
    prependText (s ++ t) f = prependText s (prependText t f) := by
  rcases prependText_cases f with ⟨u, r, rfl⟩ | h
  · rw [prependText, prependText, prependText, String.append_assoc]
  · by_cases ht : t = ""
    · rw [ht, String.append_empty, prependText_empty]
    · have hst : s ++ t ≠ "" := fun h => ht (String.append_eq_empty_iff.1 h).2
      rw [h, h, if_neg ht, if_neg hst, prependText]

theorem prependText_ofList_append (s r : List Char) :
    prependText (String.ofList (s ++ r)) = prependText (String.ofList s) ∘ prependText (String.ofList r) := by
  funext f
  rw [String.ofList_append, prependText_append, Function.comp_apply]

theorem modifyHead_prependText_nil (fs : List (Forest Kind)) :
    fs.modifyHead (prependText (String.ofList [])) = fs := by
  rw [String.ofList_nil, funext prependText_empty]
  exact congrFun List.modifyHead_id fs

/-! ## Levels -/

/-- There is a level for each open element, and one for the document. -/
theorem length_levels (lead : String) (d : Dialect) (opened : List String) (ts : List Token) :
    (levels lead d opened ts).length = opened.length + 1 := by
  induction ts generalizing opened with
  | nil => simp [levels]
  | cons token ts ih =>
    have htree (k : Kind) (c : Forest Kind) (fs : List (Forest Kind)) :
        (prependTree k c fs).length = fs.length := by
      cases fs <;> rfl
    cases token with
    | text s => rw [levels, List.length_modifyHead, ih]
    | code e => rw [levels, htree, ih]
    | leaf tag => rw [levels, htree, ih]
    | raw tag body => rw [levels, htree, ih]
    | opening tag =>
      have hin := ih (tag.name :: opened)
      rw [levels]
      split
      · rename_i inner fs hlevels
        rw [hlevels, List.length_cons, List.length_cons] at hin
        rw [htree]
        omega
      · rename_i hlevels
        rw [hlevels] at hin
        cases hin
    | closing name source =>
      rw [levels]
      split
      · rename_i hmem
        have hlt := List.idxOf_lt_length_of_mem hmem
        rw [List.length_append, List.length_replicate, ih, List.length_drop]
        omega
      · rw [List.length_modifyHead, ih]

/-- What a source adds to the levels, when it is content of the document. -/
theorem levels_eq_content (lead : String) (d : Dialect) (source : String) :
    levels lead d [] (Token.scan source.toList) = [content lead d source] := by
  obtain ⟨f, hf⟩ := List.length_eq_one_iff.1 (length_levels lead d [] (Token.scan source.toList))
  rw [content, hf]
  rfl

end Markup

/-! ## Reading text character by character -/

/-- What ends an interpolation. -/
def closingBraces : List Char := ['\x7d', '\x7d']

namespace Token

variable {c : Char} {s : List Char}

/-- Where no token of another kind begins, there is text up to the next place where one may. -/
theorem next_of_none (haside : aside? (c :: s) = none) (hclosing : closing? (c :: s) = none)
    (hopening : opening? (c :: s) = none) (hcode : code? (c :: s) = none) :
    next c s = (text (String.ofList (c :: (breakAt mayBegin s).1)), (breakAt mayBegin s).2) := by
  rw [next, haside, hclosing, hopening, hcode]
  rfl

/-- Away from markup there is text unless an interpolation begins. -/
theorem next_of_code? (hc : c ≠ '<') (hcode : code? (c :: s) = none) :
    next c s = (text (String.ofList (c :: (breakAt mayBegin s).1)), (breakAt mayBegin s).2) := by
  refine next_of_none ?_ ?_ ?_ hcode
  · unfold aside?
    split <;> simp_all
  · unfold closing?
    split <;> simp_all
  · unfold opening?
    split <;> simp_all

/-- Where nothing may begin, no token but text does. -/
theorem next_text (h : mayBegin (c :: s) = false) :
    next c s = (text (String.ofList (c :: (breakAt mayBegin s).1)), (breakAt mayBegin s).2) := by
  have hc : c ≠ '<' := by
    rintro rfl
    cases h
  refine next_of_code? hc ?_
  unfold code?
  split
  · rename_i heq
    rw [heq] at h
    cases h
  · rfl

/-- An interpolation begins with braces, and so nothing else does. -/
theorem next_code? {k : Token} {r : List Char} (h : code? (c :: s) = some (k, r)) : next c s = (k, r) := by
  obtain rfl : c = '\x7b' := by
    unfold code? at h
    split at h
    · rename_i heq
      exact (List.cons_eq_cons.1 heq).1
    · cases h
  rw [next, show aside? ('\x7b' :: s) = none from rfl, show closing? ('\x7b' :: s) = none from rfl,
    show opening? ('\x7b' :: s) = none from rfl, h]
  rfl

theorem mayBegin_of_ne (hc : c ≠ '<') (hbrace : c ≠ '\x7b') : mayBegin (c :: s) = false := by
  unfold mayBegin
  split <;> simp_all

/-- Between blank braces nothing begins, nor with the second of the braces that open. -/
theorem mayBegin_blank {inner r : List Char} (h : trim inner = []) :
    ∀ u c v, '\x7b' :: (inner ++ ['\x7d', '\x7d']) = u ++ c :: v → mayBegin (c :: (v ++ r)) = false := by
  have hne : ∀ c ∈ inner ++ ['\x7d', '\x7d'], c ≠ '<' ∧ c ≠ '\x7b' := by
    intro c hc
    rcases List.mem_append.1 hc with hc | hc
    · have hblank := isBlank_of_trim h c hc
      constructor
      all_goals
        rintro rfl
        exact absurd hblank (by decide)
    · obtain rfl : c = '\x7d' := by simpa using hc
      decide
  rintro (_ | ⟨x, u⟩) c v hs
  · obtain ⟨rfl, rfl⟩ := List.cons_eq_cons.1 hs
    obtain ⟨y, w, hw⟩ : ∃ y w, inner ++ ['\x7d', '\x7d'] = y :: w := List.exists_cons_of_ne_nil (by simp)
    have hy := (hne y (by simp [hw])).2
    rw [hw, List.cons_append]
    unfold mayBegin
    split <;> simp_all
  · have hc := hne c (by simp [(List.cons_eq_cons.1 hs).2])
    exact mayBegin_of_ne hc.1 hc.2

/-- Blank braces are no expression. -/
theorem code?_blank {inner after : List Char} (hcut : cut ['\x7d', '\x7d'] s = some (inner, after))
    (hblank : trim inner = []) : code? ('\x7b' :: '\x7b' :: s) = none := by
  simp [code?, hcut, hblank]

end Token

namespace Markup

open Token

variable {lead : String} {d : Dialect} {opened : List String} {c : Char} {s r : List Char}

/-- A character that begins no token of another kind is text in front of the rest. -/
theorem levels_char
    (h : next c s = (text (String.ofList (c :: (breakAt mayBegin s).1)), (breakAt mayBegin s).2)) :
    levels lead d opened (scan (c :: s)) =
      (levels lead d opened (scan s)).modifyHead (prependText (String.ofList [c])) := by
  rw [scan, h, levels]
  cases s with
  | nil => rfl
  | cons c' s =>
    cases hmay : mayBegin (c' :: s) with
    | true => rw [breakAt_self hmay]
    | false =>
      -- The scanner goes on with the same token, which is put together again here.
      have hbreak : breakAt mayBegin (c' :: s) = (c' :: (breakAt mayBegin s).1, (breakAt mayBegin s).2) := by
        rw [breakAt, hmay]
        rfl
      rw [hbreak, scan, next_text hmay, levels, List.modifyHead_modifyHead, ← prependText_ofList_append]
      rfl

/-- Text in which nothing may begin stands in front of what follows it. -/
theorem levels_run (h : ∀ u c v, s = u ++ c :: v → mayBegin (c :: (v ++ r)) = false) :
    levels lead d opened (scan (s ++ r)) =
      (levels lead d opened (scan r)).modifyHead (prependText (String.ofList s)) := by
  induction s with
  | nil => rw [List.nil_append, modifyHead_prependText_nil]
  | cons c s ih =>
    have hrest := ih fun u c' v hs => h (c :: u) c' v (by rw [hs]; rfl)
    rw [List.cons_append, levels_char (next_text (h [] c s rfl)), hrest, List.modifyHead_modifyHead,
      ← prependText_ofList_append]
    rfl

/-- Braces with nothing between them are text in front of what follows. -/
theorem levels_blank {inner after : List Char} (hcut : cut ['\x7d', '\x7d'] s = some (inner, after))
    (hblank : trim inner = []) :
    levels lead d opened (scan ('\x7b' :: '\x7b' :: s)) = (levels lead d opened (scan after)).modifyHead
      (prependText (String.ofList ('\x7b' :: '\x7b' :: (inner ++ ['\x7d', '\x7d'])))) := by
  have hrun : levels lead d opened (scan ('\x7b' :: s)) = (levels lead d opened (scan after)).modifyHead
      (prependText (String.ofList ('\x7b' :: (inner ++ ['\x7d', '\x7d'])))) := by
    rw [← levels_run (mayBegin_blank (r := after) hblank), (cut_spec hcut).1]
    simp
  rw [levels_char (next_of_code? (by decide) (code?_blank hcut hblank)), hrun, List.modifyHead_modifyHead,
    ← prependText_ofList_append]
  rfl

/-- Text in which no interpolation ends stands in front of nothing. -/
theorem levels_open (hs : '<' ∉ s) (h : ¬ closingBraces <:+: s) :
    levels lead d opened (scan s) = (levels lead d opened []).modifyHead (prependText (String.ofList s)) := by
  induction s with
  | nil => rw [scan, modifyHead_prependText_nil]
  | cons c s ih =>
    obtain ⟨hc, hs⟩ := List.ne_and_not_mem_of_not_mem_cons hs
    have hrest : ¬ closingBraces <:+: s := fun hclosed => h (hclosed.trans (List.suffix_cons ..).isInfix)
    have hcode : code? (c :: s) = none := by
      unfold code?
      split
      · rename_i w heq
        have hcut : cut ['\x7d', '\x7d'] w = none :=
          (cut_eq_none_iff (by decide)).2 fun hclosed => h (heq ▸ hclosed.trans ⟨['\x7b', '\x7b'], [], by simp⟩)
        rw [hcut]
      · rfl
    rw [levels_char (next_of_code? (Ne.symm hc) hcode), ih hs hrest, List.modifyHead_modifyHead,
      ← prependText_ofList_append]
    rfl

/-- A source reads as text in front of another source, if the levels say so. -/
theorem content_of_levels {x : String} (h : levels lead d [] (scan s) =
    (levels lead d [] (scan r)).modifyHead (prependText x)) :
    content lead d (String.ofList s) = prependText x (content lead d (String.ofList r)) := by
  have hs := levels_eq_content lead d (String.ofList s)
  have hr := levels_eq_content lead d (String.ofList r)
  rw [String.toList_ofList] at hs hr
  rw [hs, hr] at h
  exact List.singleton_inj.1 h

end Markup

end HtmlTemplate
