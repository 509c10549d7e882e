import HtmlTemplate.Proofs.Markup.Aside

/-! # Tokens that stay what they are

A token is inert if it is text and stays so whatever follows it. A source that ends with a bracket, and all of
whose tokens are inert, is text in front of every other source (`levels_of_inert`).
-/

namespace HtmlTemplate

open Forest Chars

namespace Token

/-- A token that is text and stays so whatever follows it: no start tag, comment or interpolation that only
lacks its end. -/
def Inert : Token → Prop
  | text s => opensTag s.toList = false ∧ ("<!--".toList <+: s.toList → "-->".toList <:+: s.toList) ∧
      (interpolation <+: s.toList → closingBraces <:+: s.toList)
  | closing _ _ => True
  | _ => False

instance : (k : Token) → Decidable k.Inert
  | text s => inferInstanceAs (Decidable (opensTag s.toList = false ∧
      ("<!--".toList <+: s.toList → "-->".toList <:+: s.toList) ∧
      (interpolation <+: s.toList → closingBraces <:+: s.toList)))
  | closing _ _ => isTrue trivial
  | code _ | leaf _ | raw _ _ | opening _ => isFalse id

/-- A token that becomes an element or code. -/
def isMarkup : Token → Bool
  | code _ | leaf _ | raw _ _ | opening _ => true
  | text _ | closing _ _ => false

variable {c : Char} {s r : List Char} {k : Token}

theorem not_inert_of_isMarkup (h : k.isMarkup = true) : ¬ k.Inert := by
  cases k with
  | text x | closing name x => cases h
  | code e | leaf tag | raw tag body | opening tag => exact id

/-! ## What is read in front of more source -/

/-- After a bracket nothing begins that has not begun. -/
theorem mayBegin_append (h : s.getLast? = some '>') (t : List Char) : mayBegin (s ++ t) = mayBegin s := by
  rcases s with _ | ⟨x, _ | ⟨y, s⟩⟩
  · cases h
  · obtain rfl : x = '>' := by simpa using h
    rfl
  · simp only [List.cons_append]
    unfold mayBegin
    split <;> split <;> simp_all

theorem exists_mark (h : aside? s = some (k, r)) : ∃ y w, s = '<' :: y :: w ∧ (y = '!' ∨ y = '?') := by
  unfold aside? at h
  split at h
  · exact ⟨_, _, rfl, Or.inl rfl⟩
  · exact ⟨_, _, rfl, Or.inl rfl⟩
  · exact ⟨_, _, rfl, Or.inr rfl⟩
  · cases h

/-- Comments go up to `-->`, all other passages up to the next bracket. -/
theorem aside?_through (hend : s.getLast? = some '>') (h : aside? s = some (k, r)) :
    ∃ pat, (pat = ['>'] ∧ ¬ "<!--".toList <+: s ∨ pat = "-->".toList ∧ "<!--".toList <+: s) ∧
      k = text (String.ofList (through pat s).1) ∧ r = (through pat s).2 ∧
      ∀ t, aside? (s ++ t) =
        some (text (String.ofList (through pat (s ++ t)).1), (through pat (s ++ t)).2) := by
  unfold aside? at h
  split at h
  · rename_i s'
    obtain ⟨hk, hr⟩ := Prod.mk.inj (Option.some.inj h)
    exact ⟨"-->".toList, Or.inr ⟨rfl, s', rfl⟩, hk.symm, hr.symm, fun t => rfl⟩
  · rename_i s' hcomment
    obtain ⟨hk, hr⟩ := Prod.mk.inj (Option.some.inj h)
    have hopen : ¬ "<!--".toList <+: '<' :: '!' :: s' := by
      rintro ⟨w, hw⟩
      cases hw
      exact hcomment _ rfl
    refine ⟨['>'], Or.inl ⟨rfl, hopen⟩, hk.symm, hr.symm, fun t => ?_⟩
    simp only [List.cons_append]
    rw [aside?]
    -- No comment comes about by what follows, for there is a bracket before that.
    rintro s'' heq
    rcases s' with _ | ⟨a, _ | ⟨b, s'⟩⟩
    · simp at hend
    · obtain rfl : a = '>' := by simpa using hend
      cases heq
    · cases heq
      exact hcomment _ rfl
  · obtain ⟨hk, hr⟩ := Prod.mk.inj (Option.some.inj h)
    refine ⟨['>'], Or.inl ⟨rfl, ?_⟩, hk.symm, hr.symm, fun t => rfl⟩
    rintro ⟨w, hw⟩
    cases hw
  · cases h

/-- A passage that has its end is the same whatever follows. -/
theorem aside?_append (hend : s.getLast? = some '>') (h : aside? s = some (k, r)) (hinert : k.Inert) :
    ∃ u, s = u ++ r ∧ k = text (String.ofList u) ∧ ∀ t, aside? (s ++ t) = some (k, r ++ t) := by
  obtain ⟨pat, hpat, rfl, rfl, happend⟩ := aside?_through hend h
  have hne : pat ≠ [] := by
    rcases hpat with ⟨rfl, -⟩ | ⟨rfl, -⟩ <;> decide
  have hoccurs : pat <:+: s := by
    rcases hpat with ⟨rfl, -⟩ | ⟨rfl, hcomment⟩
    · exact (List.singleton_infix_iff _ _).2 (List.mem_of_getLast? hend)
    · by_contra hopen
      have hthrough : through "-->".toList s = (s, []) := by
        rw [through, (cut_eq_none_iff (by decide)).2 hopen]
      have hclosed := hinert.2.1
      simp only [hthrough, String.toList_ofList] at hclosed
      exact hopen (hclosed hcomment)
  obtain ⟨u, r, hu, hthrough, ht⟩ := through_append hne hoccurs
  refine ⟨u ++ pat, by rw [hthrough, hu, List.append_assoc], by rw [hthrough], fun t => ?_⟩
  rw [happend, ht, hthrough]

theorem closing?_append (h : closing? s = some (k, r)) :
    ∃ name u, s = u ++ r ∧ k = closing name (String.ofList u) ∧
      ∀ t, aside? (s ++ t) = none ∧ closing? (s ++ t) = some (k, r ++ t) := by
  unfold closing? at h
  split at h
  · rename_i s'
    obtain ⟨⟨before, after⟩, hcut, hk⟩ := Option.map_eq_some_iff.1 h
    obtain ⟨rfl, rfl⟩ := Prod.mk.inj hk
    have hs := (cut_spec hcut).1
    refine ⟨_, '<' :: '/' :: (before ++ ['>']), by rw [hs]; simp, rfl, fun t => ⟨rfl, ?_⟩⟩
    simp only [List.cons_append]
    rw [closing?, cut_append (by decide) hcut]
    rfl
  · cases h

theorem isMarkup_opening? (h : opening? s = some (k, r)) : k.isMarkup = true := by
  unfold opening? at h
  split at h
  · split at h
    · obtain ⟨⟨a, b⟩, -, hk⟩ := Option.map_eq_some_iff.1 h
      dsimp only at hk
      split at hk
      · cases hk
        rfl
      · split at hk <;> cases hk <;> rfl
    · cases h
  · cases h

theorem isMarkup_code? (h : code? s = some (k, r)) : k.isMarkup = true := by
  unfold code? at h
  split at h
  · split at h
    · split at h <;> cases h
      rfl
    · cases h
  · cases h

/-- The next token by what begins. -/
theorem next_cases (h : next c s = (k, r)) :
    aside? (c :: s) = some (k, r) ∨ closing? (c :: s) = some (k, r) ∨ opening? (c :: s) = some (k, r) ∨
    code? (c :: s) = some (k, r) ∨
    aside? (c :: s) = none ∧ closing? (c :: s) = none ∧ opening? (c :: s) = none ∧ code? (c :: s) = none ∧
      k = text (String.ofList (c :: (breakAt mayBegin s).1)) ∧ r = (breakAt mayBegin s).2 := by
  cases haside : aside? (c :: s) with
  | some x =>
    rw [next, haside] at h
    exact Or.inl (congrArg some h)
  | none =>
    cases hclosing : closing? (c :: s) with
    | some x =>
      rw [next, haside, hclosing] at h
      exact Or.inr (Or.inl (congrArg some h))
    | none =>
      cases hopening : opening? (c :: s) with
      | some x =>
        rw [next, haside, hclosing, hopening] at h
        exact Or.inr (Or.inr (Or.inl (congrArg some h)))
      | none =>
        cases hcode : code? (c :: s) with
        | some x =>
          rw [next, haside, hclosing, hopening, hcode] at h
          exact Or.inr (Or.inr (Or.inr (Or.inl (congrArg some h))))
        | none =>
          rw [next_of_none haside hclosing hopening hcode, Prod.mk.injEq] at h
          exact Or.inr (Or.inr (Or.inr (Or.inr ⟨rfl, rfl, rfl, rfl, h.1.symm, h.2.symm⟩)))

/-- Closed braces that are no expression are blank. -/
theorem exists_inner (hcode : code? ('\x7b' :: '\x7b' :: s) = none) (h : closingBraces <:+: s) :
    ∃ inner after, cut ['\x7d', '\x7d'] s = some (inner, after) ∧ trim inner = [] := by
  cases hcut : cut ['\x7d', '\x7d'] s with
  | none => exact absurd h ((cut_eq_none_iff (by decide)).1 hcut)
  | some x =>
    refine ⟨x.1, x.2, rfl, ?_⟩
    by_contra hne
    simp [code?, hcut, hne] at hcode

/-- They stay so whatever follows. -/
theorem code?_append (hend : (c :: s).getLast? = some '>')
    (hbraces : interpolation <+: c :: s → closingBraces <:+: c :: s) (h : code? (c :: s) = none)
    (t : List Char) : code? (c :: (s ++ t)) = none := by
  rcases s with _ | ⟨y, s⟩
  · obtain rfl : c = '>' := by simpa using hend
    rfl
  · by_cases hopen : c = '\x7b' ∧ y = '\x7b'
    · obtain ⟨rfl, rfl⟩ := hopen
      have hclosed : closingBraces <:+: s := by
        simpa [closingBraces, List.infix_cons_iff, List.cons_prefix_cons] using hbraces ⟨s, rfl⟩
      obtain ⟨inner, after, hcut, hblank⟩ := exists_inner h hclosed
      exact code?_blank (cut_append (by decide) hcut t) hblank
    · unfold code?
      split
      · rename_i heq
        simp only [List.cons_append, List.cons.injEq] at heq
        exact absurd ⟨heq.1, heq.2.1⟩ hopen
      · rfl

/-- Nothing but text begins where an inert text does, whatever follows. -/
theorem next_append (hend : (c :: s).getLast? = some '>')
    (hbraces : interpolation <+: c :: s → closingBraces <:+: c :: s)
    (hinert : (text (String.ofList (c :: (breakAt mayBegin s).1))).Inert) (haside : aside? (c :: s) = none)
    (hclosing : closing? (c :: s) = none) (hcode : code? (c :: s) = none) (t : List Char) :
    next c (s ++ t) = (text (String.ofList (c :: (breakAt mayBegin (s ++ t)).1)),
      (breakAt mayBegin (s ++ t)).2) := by
  have hcode' := code?_append hend hbraces hcode t
  by_cases hc : c = '<'
  · subst hc
    rcases s with _ | ⟨y, s⟩
    · cases hend
    · have hmarks : y ≠ '!' ∧ y ≠ '?' := by
        constructor
        · rintro rfl
          unfold aside? at haside
          split at haside <;> simp_all
        · rintro rfl
          cases haside
      have hslash : y ≠ '/' := by
        rintro rfl
        have hlast : '>' ∈ s := by
          have := List.mem_of_getLast? hend
          simpa using this
        rw [closing?, Option.map_eq_none_iff, cut_eq_none_iff (by decide), List.singleton_infix_iff] at hclosing
        exact hclosing hlast
      have halpha : y.isAlpha = false := by
        have hmay : y.isAlpha = true → mayBegin (y :: s) = false := by
          intro hletter
          unfold mayBegin
          split
          · rename_i heq
            cases heq
            cases hletter
          · rename_i heq
            cases heq
            cases hletter
          · rfl
        by_contra hletter
        rw [Bool.not_eq_false] at hletter
        have hopens := hinert.1
        rw [String.toList_ofList, breakAt, hmay hletter] at hopens
        exact absurd (hletter.symm.trans hopens) (by decide)
      refine next_of_none ?_ ?_ ?_ hcode'
      · unfold aside?
        split <;> simp_all
      · unfold closing?
        split <;> simp_all
      · simp [opening?, halpha]
  · exact next_of_code? hc hcode'

end Token

namespace Markup

open Token

variable {c : Char} {s r : List Char} {k : Token}

/-- An inert token is text in front of the rest, whatever follows. -/
theorem levels_inert (hend : (c :: s).getLast? = some '>')
    (hbraces : interpolation <+: c :: s → closingBraces <:+: c :: s) (hnext : next c s = (k, r))
    (h : k.Inert) :
    ∃ u, c :: s = u ++ r ∧ ∀ lead d t, levels lead d [] (scan (c :: s ++ t)) =
      (levels lead d [] (scan (r ++ t))).modifyHead (prependText (String.ofList u)) := by
  rcases next_cases hnext with haside | hclosing | hopening | hcode | ⟨haside, hclosing, -, hcode, rfl, rfl⟩
  · obtain ⟨u, hu, hk, happend⟩ := aside?_append hend haside h
    refine ⟨u, hu, fun lead d t => ?_⟩
    have hscan := happend t
    rw [List.cons_append] at hscan ⊢
    rw [scan_aside hscan, hk, levels]
  · obtain ⟨name, u, hu, hk, happend⟩ := closing?_append hclosing
    refine ⟨u, hu, fun lead d t => ?_⟩
    obtain ⟨haside', hclosing'⟩ := happend t
    rw [List.cons_append] at haside' hclosing' ⊢
    have hnext' : next c (s ++ t) = (k, r ++ t) := by
      rw [next, haside', hclosing']
      rfl
    rw [scan, hnext', hk, levels, if_neg List.not_mem_nil]
  · exact absurd h (not_inert_of_isMarkup (isMarkup_opening? hopening))
  · exact absurd h (not_inert_of_isMarkup (isMarkup_code? hcode))
  · have happend := breakAt_append mayBegin s
    have hskip := (breakAt_spec mayBegin s).1
    refine ⟨c :: (breakAt mayBegin s).1, by rw [List.cons_append, happend], fun lead d t => ?_⟩
    have hrun : levels lead d [] (scan (s ++ t)) =
        (levels lead d [] (scan ((breakAt mayBegin s).2 ++ t))).modifyHead
          (prependText (String.ofList (breakAt mayBegin s).1)) := by
      conv_lhs => rw [← happend, List.append_assoc]
      refine levels_run fun u c' v hu => ?_
      have hlast : (c' :: (v ++ (breakAt mayBegin s).2)).getLast? = some '>' := by
        have hsplit : c :: s = (c :: u) ++ c' :: (v ++ (breakAt mayBegin s).2) := by
          conv_lhs => rw [← happend, hu]
          simp
        rwa [hsplit, List.getLast?_append_of_ne_nil _ (List.cons_ne_nil _ _)] at hend
      have hmay := mayBegin_append hlast t
      rw [hskip u c' v hu] at hmay
      simpa using hmay
    rw [List.cons_append, levels_char (next_append hend hbraces h haside hclosing hcode t), hrun,
      List.modifyHead_modifyHead, ← prependText_ofList_append]
    rfl

/-- Braces that are not closed are not inert. -/
theorem exists_not_inert (hopen : interpolation <+: s) (h : ¬ closingBraces <:+: s) : ∃ k ∈ scan s, ¬ k.Inert := by
  induction s with
  | nil => cases List.prefix_nil.1 hopen
  | cons c s ih =>
    obtain ⟨rfl, y, s, rfl, rfl⟩ : c = '\x7b' ∧ ∃ y s', s = y :: s' ∧ y = '\x7b' := by
      obtain ⟨w, hw⟩ := hopen
      cases hw
      exact ⟨rfl, _, _, rfl, rfl⟩
    have hcut : cut ['\x7d', '\x7d'] s = none :=
      (cut_eq_none_iff (by decide)).2 fun hs => h (hs.trans ⟨['\x7b', '\x7b'], [], by simp⟩)
    have hcode : code? ('\x7b' :: '\x7b' :: s) = none := by simp [code?, hcut]
    rw [scan, next_of_code? (by decide) hcode]
    cases hmay : mayBegin ('\x7b' :: s) with
    | true =>
      -- A third brace opens as well, one character further on.
      rw [breakAt_self hmay]
      have hbraces : interpolation <+: '\x7b' :: s := by
        unfold mayBegin at hmay
        split at hmay <;> simp_all [interpolation]
      obtain ⟨k, hk, hinert⟩ := ih hbraces fun hs => h (hs.trans ⟨['\x7b'], [], by simp⟩)
      exact ⟨k, List.mem_cons_of_mem _ hk, hinert⟩
    | false =>
      refine ⟨_, List.mem_cons_self, fun hinert => h ?_⟩
      have hclosed := hinert.2.2
      rw [String.toList_ofList, breakAt, hmay] at hclosed
      refine (hclosed ⟨_, rfl⟩).trans (List.IsPrefix.isInfix ⟨(breakAt mayBegin s).2, ?_⟩)
      simp

theorem getLast?_of_forall (h : ∀ x, (c :: s).getLast? = some x → x = '>') : (c :: s).getLast? = some '>' := by
  have hsome := List.getLast?_eq_some_getLast (List.cons_ne_nil c s)
  rw [hsome, h _ hsome]

/-- A source all of whose tokens are inert is text in front of any other. -/
theorem levels_of_inert (hend : ∀ c, s.getLast? = some c → c = '>') (h : ∀ k ∈ scan s, k.Inert) (lead : String)
    (d : Dialect) (t : List Char) : levels lead d [] (scan (s ++ t)) =
      (levels lead d [] (scan t)).modifyHead (prependText (String.ofList s)) := by
  induction s using scan.induct with
  | case1 => rw [List.nil_append, modifyHead_prependText_nil]
  | case2 c s x ih =>
    rcases hnext : next c s with ⟨k, r⟩
    simp only [x, hnext] at ih
    have hlast := getLast?_of_forall hend
    have hbraces : interpolation <+: c :: s → closingBraces <:+: c :: s := by
      intro hopen
      by_contra hclosed
      obtain ⟨k, hk, hinert⟩ := exists_not_inert hopen hclosed
      exact hinert (h k hk)
    rw [scan, hnext, List.forall_mem_cons] at h
    obtain ⟨u, hu, hlevels⟩ := levels_inert hlast hbraces hnext h.1
    have hrest := ih (fun y hy => hend y (by rw [hu, List.getLast?_append, hy]; rfl)) h.2
    rw [hlevels, hrest, List.modifyHead_modifyHead, ← prependText_ofList_append, ← hu]

end Markup

end HtmlTemplate
