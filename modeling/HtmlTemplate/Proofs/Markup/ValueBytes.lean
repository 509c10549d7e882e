import HtmlTemplate.Proofs.Markup.Interpolation
import HtmlTemplate.Proofs.Text.Bytes

/-! # Reading attribute values by their bytes

The interpolations of a value may be looked for from one place to the next, each cut out between the
places where its braces are found. No cut fails, and what comes out are the parts of the value
(`partsOf?_eq`), the value itself (`AttrValue.ofBytes?_eq`) and the element of a tag
(`Element.ofBytes?_eq`).
-/

namespace HtmlTemplate

open Chars

namespace Part

/-- The loop over the interpolations of a value: its parts up to the last of them, and the rest. There
is no answer if a round does not move on. -/
def partsOf? (s : List Char) : Option (List Part × List Char) :=
  match find? ['\x7b', '\x7b'] s with
  | none => some ([], s)
  | some start => do
    let found ← from? s start
    match find? ['\x7d', '\x7d'] found with
    | none => some ([], s)
    | some length => do
      let inner ← slice? s (start + 2) (start + length)
      if trim inner = [] then some ([], s)
      else do
        let before ← upTo? s start
        let after ← from? s (start + length + 2)
        if after.length < s.length then
          let rest ← partsOf? after
          return (literalOf before ++ code (String.ofList (trim inner)) :: rest.1, rest.2)
        else none
termination_by s.length

variable {s before inner after : List Char}

theorem find?_braces (h : braces? s = some (before, inner, after)) :
    find? ['\x7b', '\x7b'] s = some (size before) ∧
      find? ['\x7d', '\x7d'] ('\x7b' :: '\x7b' :: (inner ++ '\x7d' :: '\x7d' :: after)) = some (2 + size inner) := by
  obtain ⟨hs, hskip, hcut⟩ := braces?_eq_some h
  have hopen : cut ['\x7b', '\x7b'] s = some (before, inner ++ '\x7d' :: '\x7d' :: after) :=
    hs ▸ cut_of_skip (by decide) hskip
  rw [find?_eq_cut (by decide) (by decide), find?_cons_cons (by decide) (by decide) (by decide) (by decide) rfl rfl,
    hopen, hcut]
  exact ⟨rfl, rfl⟩

theorem cut_braces (before inner after : List Char) :
    slice? (before ++ '\x7b' :: '\x7b' :: (inner ++ '\x7d' :: '\x7d' :: after)) (size before + 2)
      (size before + (2 + size inner)) = some inner := by
  have hcut := slice?_append (before ++ ['\x7b', '\x7b']) inner ('\x7d' :: '\x7d' :: after)
  rw [size_append, List.append_assoc, Nat.add_assoc] at hcut
  exact hcut

theorem from_braces (before inner after : List Char) :
    from? (before ++ '\x7b' :: '\x7b' :: (inner ++ '\x7d' :: '\x7d' :: after))
      (size before + (2 + size inner) + 2) = some after := by
  have hfrom := from?_append (before ++ ['\x7b', '\x7b'] ++ inner ++ ['\x7d', '\x7d']) after
  rw [size_append, size_append, size_append, List.append_assoc, List.append_assoc, List.append_assoc,
    Nat.add_assoc (size before)] at hfrom
  exact hfrom

/-- Where no braces are closed, the loop ends. -/
theorem partsOf?_of_none (h : braces? s = none) : partsOf? s = some ([], s) := by
  have hopen : find? ['\x7b', '\x7b'] s = border (breakAt ['\x7b', '\x7b'].isPrefixOf s) :=
    find?_eq_border (by decide) (by decide) s
  have happend := breakAt_append ['\x7b', '\x7b'].isPrefixOf s
  have hfound := (breakAt_spec ['\x7b', '\x7b'].isPrefixOf s).2
  unfold braces? at h
  rw [partsOf?]
  rcases hbreak : breakAt ['\x7b', '\x7b'].isPrefixOf s with ⟨before, _ | ⟨c, found⟩⟩
  · rw [hbreak] at hopen
    rw [hopen]
    rfl
  · rw [hbreak] at h hopen happend hfound
    obtain ⟨w, hw⟩ : ∃ w, ['\x7b', '\x7b'] ++ w = c :: found :=
      List.isPrefixOf_iff_prefix.1 (hfound (List.cons_ne_nil c found))
    rw [← hw] at h happend
    have hcut : cut ['\x7d', '\x7d'] w = none := Option.map_eq_none_iff.1 h
    have hclose : find? ['\x7d', '\x7d'] (['\x7b', '\x7b'] ++ w) = none := by
      rw [List.cons_append, List.singleton_append,
        find?_cons_cons (by decide) (by decide) (by decide) (by decide) rfl rfl, hcut]
      rfl
    have hopen : find? ['\x7b', '\x7b'] s = some (size before) := hopen
    rw [hopen]
    simp only [← happend, from?_append, Option.bind_eq_bind, Option.bind_some, hclose]

/-- Blank braces end the loop. -/
theorem partsOf?_of_blank (h : braces? s = some (before, inner, after)) (hinner : trim inner = []) :
    partsOf? s = some ([], s) := by
  obtain ⟨hopen, hclose⟩ := find?_braces h
  obtain ⟨rfl, -, -⟩ := braces?_eq_some h
  rw [partsOf?, hopen]
  simp only [from?_append, Option.bind_eq_bind, Option.bind_some, hclose, cut_braces, if_pos hinner]

theorem partsOf?_of_some (h : braces? s = some (before, inner, after)) (hinner : trim inner ≠ [])
    {rest : List Part × List Char} (hrest : partsOf? after = some rest) :
    partsOf? s = some (literalOf before ++ code (String.ofList (trim inner)) :: rest.1, rest.2) := by
  obtain ⟨hopen, hclose⟩ := find?_braces h
  obtain ⟨rfl, -, -⟩ := braces?_eq_some h
  have hshorter : after.length < (before ++ '\x7b' :: '\x7b' :: (inner ++ '\x7d' :: '\x7d' :: after)).length := by
    simp only [List.length_append, List.length_cons]
    omega
  rw [partsOf?, hopen]
  simp only [from?_append, upTo?_append, Option.bind_eq_bind, Option.bind_some, hclose, cut_braces, if_neg hinner,
    from_braces, if_pos hshorter, hrest]
  rfl

/-- No cut fails, and what is left behind the last interpolation is one literal. -/
theorem partsOf?_eq (s : List Char) : ∃ parts rest, partsOf? s = some (parts, rest) ∧
    ofChars s = parts ++ literalOf rest ∧ (parts = [] ∨ parts.any isCode = true) := by
  fun_induction ofChars s with
  | case1 s hfirst =>
    refine ⟨[], s, ?_, rfl, Or.inl rfl⟩
    rw [first?_eq] at hfirst
    cases hbraces : braces? s with
    | none => exact partsOf?_of_none hbraces
    | some r =>
      obtain ⟨before, inner, after⟩ := r
      refine partsOf?_of_blank hbraces ?_
      simpa [hbraces] using hfirst
  | case2 s before inner after hfirst ih =>
    obtain ⟨parts, rest, hparts, hchars, -⟩ := ih
    rw [first?_eq] at hfirst
    obtain ⟨⟨b, i, a⟩, hbraces, hinner⟩ := Option.bind_eq_some_iff.1 hfirst
    obtain ⟨hne, hinner⟩ := Option.ite_none_left_eq_some.1 hinner
    obtain ⟨rfl, rfl, rfl⟩ : b = before ∧ trim i = inner ∧ a = after := by simpa using hinner
    refine ⟨_, _, partsOf?_of_some hbraces hne hparts, ?_, Or.inr ?_⟩
    · rw [hchars]
      simp
    · rw [List.any_append, any_code, Bool.or_true]

theorem any_literalOf (s : List Char) : (literalOf s).any isCode = false := by
  unfold literalOf
  split
  · rfl
  · rfl

end Part

/-- The value of an attribute as written, its interpolations found by their bytes. -/
def AttrValue.ofBytes? (lead : String) (d : Dialect) (name : String) (value : Option String) : Option AttrValue :=
  let value := value.getD ""
  if lead.toList.isPrefixOf name.toList then
    some (if trim value.toList = [] then .text "" else .code (Fragment.expression value))
  else if find? ['\x7b', '\x7b'] value.toList = none then some (.text value)
  else do
    let found ← Part.partsOf? value.toList
    if found.1 = [] then some (.text value)
    else
      match (found.1 ++ Part.literalOf found.2).map (Part.expression d) with
      | [] => some (.text value)
      | x :: xs => some (.code (Fragment.expression (xs.foldl d.concat x)))

theorem AttrValue.ofBytes?_eq (lead : String) (d : Dialect) (name : String) (value : Option String) :
    ofBytes? lead d name value = some (ofSource lead d name value) := by
  obtain ⟨parts, rest, hparts, hchars, hcode⟩ := Part.partsOf?_eq (value.getD "").toList
  have hfind (h : find? ['\x7b', '\x7b'] (value.getD "").toList = none) : parts = [] := by
    rw [Part.partsOf?, h] at hparts
    exact (congrArg Prod.fst (Option.some.inj hparts)).symm
  unfold ofBytes? ofSource
  dsimp only
  split
  · rfl
  rw [hparts, hchars, List.any_append, Part.any_literalOf, Bool.or_false, Option.bind_eq_bind, Option.bind_some]
  dsimp only
  rcases hcode with rfl | hcode
  · rw [if_pos rfl]
    split
    · rfl
    · rfl
  · have hne : parts ≠ [] := by
      rintro rfl
      cases hcode
    rw [if_neg fun h => hne (hfind h), if_neg hne, hcode]
    cases (parts ++ Part.literalOf rest).map (Part.expression d) with
    | nil => rfl
    | cons x xs => rfl

/-- The element of a start tag, its values read by their bytes. -/
def Element.ofBytes? (lead : String) (d : Dialect) (tag : Tag) : Option Element :=
  tag.attributes.foldlM (fun e a => (AttrValue.ofBytes? lead d a.1 a.2).map (e.set a.1)) (Element.ofTag tag.name)

theorem Element.ofBytes?_eq (lead : String) (d : Dialect) (tag : Tag) :
    ofBytes? lead d tag = some (ofMarkup lead d tag) := by
  unfold ofBytes? ofMarkup
  generalize Element.ofTag tag.name = e
  induction tag.attributes generalizing e with
  | nil => rfl
  | cons a attributes ih =>
    rw [List.foldlM_cons, AttrValue.ofBytes?_eq, Option.map_some, Option.bind_eq_bind, Option.bind_some, ih,
      List.foldl_cons]

end HtmlTemplate
