import HtmlTemplate.Proofs.Markup.Building
import HtmlTemplate.Proofs.Markup.TagBytes
import HtmlTemplate.Proofs.Markup.ValueBytes

/-! # Reading a source by its bytes

A source may be read with one place that moves over its bytes: each round looks at what begins there,
cuts it out, puts it into the document that is built, and moves the place behind it. A round may stay
where it is, which would go on for ever, and a cut may fail; then there is no answer. Neither happens:
a round takes the next token (`round?_eq`), so every round moves the place on by at least one byte, up
to the end of the source, and what has been built by then is the document (`readsAll`).
-/

namespace HtmlTemplate

open Chars

/-- The place of the `>` that ends a start tag, when `i` is the place in front of the text and `quote`
is open there. -/
def tagEnd? (quote : Option Char) (i : Nat) : List Char → Option Nat
  | [] => none
  | c :: s =>
    match quote with
    | some q => tagEnd? (if c = q then none else some q) (i + c.utf8Size) s
    | none =>
      if c = '"' ∨ c = '\'' then tagEnd? (some c) (i + c.utf8Size) s
      else if c = '>' then some i
      else tagEnd? none (i + c.utf8Size) s

namespace Builder

/-! Each of the following looks for one construct at a place of the source, given what `remains` from there
on. A cut that fails gives no answer; a construct that does not begin there gives the answer `none`. -/

section Rounds

variable (lead : String) (d : Dialect) (source : List Char) (pos : Nat) (remains : List Char) (b : Builder)

/-- Text up to the end of `pat`, or to the end of the source. -/
def passage? (pat : List Char) : Option (Option (Nat × Builder)) := do
  let stop := ((find? pat remains).map (· + pat.length)).getD (size remains)
  let text ← upTo? remains stop
  return some (pos + stop, b.putText (String.ofList text))

def asideAt? : Option (Option (Nat × Builder)) :=
  if ['<', '!', '-', '-'].isPrefixOf remains then passage? pos remains b "-->".toList
  else if ['<', '!'].isPrefixOf remains || ['<', '?'].isPrefixOf remains then passage? pos remains b ['>']
  else some none

def closingAt? : Option (Option (Nat × Builder)) :=
  match if ['<', '/'].isPrefixOf remains then find? ['>'] remains else none with
  | none => some none
  | some stop => do
    let name ← slice? remains 2 stop
    let text ← upTo? remains (stop + 1)
    return some (pos + (stop + 1),
      b.step lead d (.closing (String.ofList (lower (trim name))) (String.ofList text)))

/-- The body of a raw text element that begins at `start`, and the place behind its end tag. -/
def rawBodyAt? (tag : String) (start : Nat) : Option (List Char × Nat) := do
  let body ← from? source start
  let stop := (findFolded? ('<' :: '/' :: tag.toList) body).getD (size body)
  let text ← upTo? body stop
  let after ← from? source (start + stop)
  return (text, start + stop + ((find? ['>'] after).map (· + 1)).getD 0)

/-- The element of a start tag with the given inside, when `next` is the place behind the tag. -/
def elementAt? (inside : List Char) (next : Nat) : Option (Nat × Builder) := do
  let tag ← Tag.tagOf? (dropTail (· == '/') inside)
  let element ← Element.ofBytes? lead d tag.2
  if inside.getLast? = some '/' ∨ isVoid tag.2.name then return (next, b.put (.element element))
  else if isRawText tag.2.name then
    let body ← rawBodyAt? source tag.2.name next
    return (body.2, ((b.enter tag.2.name element).putText (String.ofList body.1)).leave 1)
  else return (next, b.enter tag.2.name element)

def openingAt? : Option (Option (Nat × Builder)) :=
  match if Token.opensTag remains then tagEnd? none 0 remains else none with
  | none => some none
  | some stop => do
    let inside ← slice? remains 1 stop
    let found ← elementAt? lead d source b inside (pos + (stop + 1))
    return some found

def codeAt? : Option (Option (Nat × Builder)) :=
  match if ['\x7b', '\x7b'].isPrefixOf remains then find? ['\x7d', '\x7d'] remains else none with
  | none => some none
  | some stop => do
    let inner ← slice? remains 2 stop
    if trim inner = [] then some none
    else return some (pos + (stop + 2),
      b.put (.code (Fragment.expression (d.escape (String.ofList (trim inner))))))

/-- Text up to the next place behind the first character where something else may begin. -/
def textAt? : Option (Nat × Builder) := do
  let first := (remains.head?.map Char.utf8Size).getD 1
  let rest ← from? remains first
  let tag := ((find? ['<'] rest).map (· + first)).getD (size remains)
  let braces := ((find? ['\x7b', '\x7b'] rest).map (· + first)).getD (size remains)
  let text ← upTo? remains (min tag braces)
  return (pos + min tag braces, b.putText (String.ofList text))

/-- Looks for one construct, and for another if it does not begin here. -/
def orElse? {α : Type} (first second : Option (Option α)) : Option (Option α) :=
  first.bind fun
    | some r => some (some r)
    | none => second

/-- One round at a place: the next place, and what is built by then. -/
def round? : Option (Nat × Builder) := do
  let remains ← from? source pos
  let found ← orElse? (asideAt? pos remains b) (orElse? (closingAt? lead d pos remains b)
    (orElse? (openingAt? lead d source pos remains b) (codeAt? d pos remains b)))
  match found with
  | some r => return r
  | none => textAt? pos remains b

end Rounds

/-- All rounds from a place on: the places at which they begin and the last one, and what is built in
the end. There is no answer if a round does not move on. -/
def rounds? (lead : String) (d : Dialect) (source : List Char) (pos : Nat) (b : Builder) :
    Option (List Nat × Tree) :=
  if pos < size source then do
    let next ← round? lead d source pos b
    if pos < next.1 then
      let rest ← rounds? lead d source next.1 next.2
      return (pos :: rest.1, rest.2)
    else none
  else some ([pos], b.tree)
termination_by size source - pos

/-! ## What a round takes -/

section Takes

variable {lead : String} {d : Dialect} {pos : Nat} {remains : List Char} {b : Builder}

/-- What is found at a place is the token that begins there. -/
def Takes (lead : String) (d : Dialect) (pos : Nat) (remains : List Char) (b : Builder)
    (found : Option (Option (Nat × Builder))) : Option (Token × List Char) → Prop
  | none => found = some none
  | some k => ∃ taken, remains = taken ++ k.2 ∧ found = some (some (pos + size taken, b.step lead d k.1))

theorem Takes.orElse {found found' : Option (Option (Nat × Builder))} {k k' : Option (Token × List Char)}
    (h : Takes lead d pos remains b found k) (h' : Takes lead d pos remains b found' k') :
    Takes lead d pos remains b (orElse? found found') (k <|> k') := by
  cases k with
  | none =>
    obtain rfl : found = some none := h
    exact h'
  | some k =>
    obtain ⟨taken, htaken, rfl⟩ := h
    exact ⟨taken, htaken, rfl⟩

theorem through_append_eq (pat s : List Char) : (through pat s).1 ++ (through pat s).2 = s := by
  unfold through
  split
  · rename_i hcut
    rw [(cut_spec hcut).1, List.append_assoc]
  · exact List.append_nil s

theorem takes_passage {pat : List Char} (hne : pat ≠ []) (hpat : isAscii pat = true) (lead : String) (d : Dialect)
    (pos : Nat) (remains : List Char) (b : Builder) :
    Takes lead d pos remains b (passage? pos remains b pat)
      (some (.text (String.ofList (through pat remains).1), (through pat remains).2)) := by
  have happend := through_append_eq pat remains
  have hstop : ((find? pat remains).map (· + pat.length)).getD (size remains) = size (through pat remains).1 := by
    rw [find?_eq_cut hne hpat, through]
    cases cut pat remains with
    | none => rfl
    | some r => simp [size_of_isAscii hpat]
  have hcut := upTo?_append (through pat remains).1 (through pat remains).2
  rw [happend] at hcut
  refine ⟨_, happend.symm, ?_⟩
  rw [passage?, hstop, hcut]
  rfl

theorem isPrefixOf_eq_false {pat s : List Char} (h : ∀ t, s = pat ++ t → False) : pat.isPrefixOf s = false := by
  refine Bool.eq_false_iff.2 fun hpat => ?_
  obtain ⟨t, ht⟩ := List.isPrefixOf_iff_prefix.1 hpat
  exact h t ht.symm

/-- What passes through as text, by how it begins. -/
theorem aside?_eq (s : List Char) : Token.aside? s =
    if ['<', '!', '-', '-'].isPrefixOf s then
      some (.text (String.ofList (through "-->".toList s).1), (through "-->".toList s).2)
    else if ['<', '!'].isPrefixOf s || ['<', '?'].isPrefixOf s then
      some (.text (String.ofList (through ['>'] s).1), (through ['>'] s).2)
    else none := by
  unfold Token.aside?
  split
  · rfl
  · rename_i s hnot
    have hcomment : ['<', '!', '-', '-'].isPrefixOf ('<' :: '!' :: s) = false :=
      isPrefixOf_eq_false fun t ht => hnot t (by simpa using ht)
    rw [hcomment]
    rfl
  · rfl
  · rename_i hcomment hdeclaration hinstruction
    rw [isPrefixOf_eq_false hcomment, isPrefixOf_eq_false hdeclaration, isPrefixOf_eq_false hinstruction]
    rfl

theorem takes_aside (lead : String) (d : Dialect) (pos : Nat) (remains : List Char) (b : Builder) :
    Takes lead d pos remains b (asideAt? pos remains b) (Token.aside? remains) := by
  rw [asideAt?, aside?_eq]
  split
  · exact takes_passage (List.cons_ne_nil _ _) rfl lead d pos remains b
  · split
    · exact takes_passage (List.cons_ne_nil _ _) rfl lead d pos remains b
    · rfl

theorem takes_closing (lead : String) (d : Dialect) (pos : Nat) (remains : List Char) (b : Builder) :
    Takes lead d pos remains b (closingAt? lead d pos remains b) (Token.closing? remains) := by
  unfold Token.closing?
  split
  · rename_i s
    have hfind : find? ['>'] ('<' :: '/' :: s) = (cut ['>'] s).map fun r => 2 + size r.1 :=
      find?_cons_cons (by decide) (by decide) (by decide) (by decide) rfl rfl
    have hprefix : ['<', '/'].isPrefixOf ('<' :: '/' :: s) = true := rfl
    rw [closingAt?, hprefix, if_pos rfl, hfind]
    cases hcut : cut ['>'] s with
    | none => rfl
    | some r =>
      obtain ⟨name, after⟩ := r
      obtain rfl : s = name ++ '>' :: after := (cut_spec hcut).1
      have hname : slice? ('<' :: '/' :: (name ++ '>' :: after)) 2 (2 + size name) = some name :=
        slice?_append ['<', '/'] name ('>' :: after)
      have hsize : size ('<' :: '/' :: (name ++ ['>'])) = 2 + size name + 1 := size_between ['<', '/'] name ['>']
      have htext := upTo?_append ('<' :: '/' :: (name ++ ['>'])) after
      have hsplit : '<' :: '/' :: (name ++ '>' :: after) = '<' :: '/' :: (name ++ ['>']) ++ after := by simp
      rw [hsize, ← hsplit] at htext
      refine ⟨'<' :: '/' :: (name ++ ['>']), hsplit, ?_⟩
      simp only [Option.map_some, Option.bind_eq_bind, hname, htext, hsize, Option.bind_some]
      rfl
  · rename_i hnot
    rw [closingAt?, isPrefixOf_eq_false hnot]
    rfl

theorem takes_code (lead : String) (d : Dialect) (pos : Nat) (remains : List Char) (b : Builder) :
    Takes lead d pos remains b (codeAt? d pos remains b) (Token.code? remains) := by
  unfold Token.code?
  split
  · rename_i s
    have hfind : find? ['\x7d', '\x7d'] ('\x7b' :: '\x7b' :: s) = (cut ['\x7d', '\x7d'] s).map fun r => 2 + size r.1 :=
      find?_cons_cons (by decide) (by decide) (by decide) (by decide) rfl rfl
    have hprefix : ['\x7b', '\x7b'].isPrefixOf ('\x7b' :: '\x7b' :: s) = true := rfl
    rw [codeAt?, hprefix, if_pos rfl, hfind]
    cases hcut : cut ['\x7d', '\x7d'] s with
    | none => rfl
    | some r =>
      obtain ⟨inner, after⟩ := r
      obtain rfl : s = inner ++ '\x7d' :: '\x7d' :: after := (cut_spec hcut).1
      have hinner : slice? ('\x7b' :: '\x7b' :: (inner ++ '\x7d' :: '\x7d' :: after)) 2 (2 + size inner) = some inner :=
        slice?_append ['\x7b', '\x7b'] inner ('\x7d' :: '\x7d' :: after)
      simp only [Option.map_some, Option.bind_eq_bind, hinner, Option.bind_some]
      split
      · rfl
      · refine ⟨'\x7b' :: '\x7b' :: (inner ++ ['\x7d', '\x7d']), by simp, ?_⟩
        have hsize : size ('\x7b' :: '\x7b' :: (inner ++ ['\x7d', '\x7d'])) = 2 + size inner + 2 :=
          size_between ['\x7b', '\x7b'] inner ['\x7d', '\x7d']
        rw [hsize]
        rfl
  · rename_i hnot
    rw [codeAt?, isPrefixOf_eq_false hnot]
    rfl

theorem tagEnd?_eq (quote : Option Char) (i : Nat) (s : List Char) :
    tagEnd? quote i s = (Token.cutTag quote s).map fun r => i + size r.1 := by
  induction s generalizing quote i with
  | nil => rfl
  | cons c s ih =>
    have hnext (x : Option (List Char × List Char)) :
        (x.map fun r => (c :: r.1, r.2)).map (fun r => i + size r.1) = x.map fun r => i + c.utf8Size + size r.1 := by
      rw [Option.map_map]
      refine congrArg (Option.map · x) (funext fun r => ?_)
      simp only [Function.comp_apply, size_cons, Nat.add_assoc]
    cases quote with
    | some q => rw [tagEnd?, Token.cutTag, ih, hnext]
    | none =>
      by_cases hquote : c = '"' ∨ c = '\''
      · have hend : c ≠ '>' := by rcases hquote with rfl | rfl <;> decide
        rw [tagEnd?, if_pos hquote, Token.cutTag, if_neg hend, if_pos hquote, ih, hnext]
      · by_cases hend : c = '>'
        · rw [tagEnd?, if_neg hquote, if_pos hend, Token.cutTag, if_pos hend]
          rfl
        · rw [tagEnd?, if_neg hquote, if_neg hend, Token.cutTag, if_neg hend, if_neg hquote, ih, hnext]

theorem cutTag_split {quote : Option Char} {s inside after : List Char}
    (h : Token.cutTag quote s = some (inside, after)) : s = inside ++ '>' :: after := by
  induction s generalizing quote inside with
  | nil => cases h
  | cons c s ih =>
    have hnext {quote : Option Char}
        (h : ((Token.cutTag quote s).map fun r => (c :: r.1, r.2)) = some (inside, after)) :
        c :: s = inside ++ '>' :: after := by
      obtain ⟨⟨i, a⟩, hcut, heq⟩ := Option.map_eq_some_iff.1 h
      obtain ⟨rfl, rfl⟩ := Prod.mk.inj heq
      rw [ih hcut]
      rfl
    unfold Token.cutTag at h
    split at h
    · exact hnext h
    · split at h
      · rename_i hend
        obtain ⟨rfl, rfl⟩ := Prod.mk.inj (Option.some.inj h)
        rw [hend]
        rfl
      · exact hnext h

/-- The body of a raw text element, and what follows its end tag. -/
theorem rawBodyAt?_eq {tag : String} (htag : isRawText tag = true) (a s : List Char) :
    ∃ taken, s = taken ++ (Token.rawBody tag s).2 ∧
      rawBodyAt? (a ++ s) tag (size a) = some ((Token.rawBody tag s).1, size a + size taken) := by
  have hascii : isAscii ('<' :: '/' :: tag.toList) = true := by
    have hcases : tag = "script" ∨ tag = "style" := by simpa [isRawText, rawTextTags] using htag
    rcases hcases with rfl | rfl
    · decide
    · decide
  have hstop : (findFolded? ('<' :: '/' :: tag.toList) s).getD (size s) =
      size (breakAt (beginsFolded ('<' :: '/' :: tag.toList)) s).1 := by
    rw [findFolded?_eq (List.cons_ne_nil _ _) hascii, getD_border]
  have happend := breakAt_append (beginsFolded ('<' :: '/' :: tag.toList)) s
  unfold Token.rawBody rawBodyAt?
  rw [from?_append, Option.bind_eq_bind, Option.bind_some, hstop]
  generalize breakAt (beginsFolded ('<' :: '/' :: tag.toList)) s = r at happend ⊢
  obtain ⟨body, found⟩ := r
  obtain rfl : body ++ found = s := happend
  have hfrom := from?_append (a ++ body) found
  rw [size_append, List.append_assoc] at hfrom
  dsimp only
  rw [upTo?_append, Option.bind_some, hfrom, Option.bind_some, find?_eq_cut (by decide) (by decide)]
  cases hcut : cut ['>'] found with
  | none => exact ⟨body, rfl, rfl⟩
  | some r =>
    obtain ⟨mark, after⟩ := r
    obtain rfl : found = mark ++ '>' :: after := (cut_spec hcut).1
    refine ⟨body ++ (mark ++ ['>']), by simp, ?_⟩
    rw [size_append, size_append, ← Nat.add_assoc]
    rfl

/-- The token of a start tag with the given inside, and what follows it. -/
def tokenOf (inside after : List Char) : Token × List Char :=
  let tag := Tag.ofChars (dropTail (· == '/') inside)
  if inside.getLast? = some '/' ∨ isVoid tag.name then (.leaf tag, after)
  else if isRawText tag.name then
    let body := Token.rawBody tag.name after
    (.raw tag (String.ofList body.1), body.2)
  else (.opening tag, after)

theorem elementAt?_eq (lead : String) (d : Dialect) (a after : List Char) (b : Builder) (inside : List Char) :
    ∃ taken, after = taken ++ (tokenOf inside after).2 ∧
      elementAt? lead d (a ++ after) b inside (size a) =
        some (size a + size taken, b.step lead d (tokenOf inside after).1) := by
  obtain ⟨places, htag, -⟩ := Tag.tagOf?_eq (dropTail (· == '/') inside)
  rw [elementAt?, htag, Option.bind_eq_bind, Option.bind_some, Element.ofBytes?_eq, Option.bind_eq_bind,
    Option.bind_some]
  unfold tokenOf
  dsimp only
  generalize Tag.ofChars (dropTail (· == '/') inside) = tag
  split
  · exact ⟨[], rfl, rfl⟩
  · split
    · rename_i hraw
      obtain ⟨taken, hafter, hbody⟩ := rawBodyAt?_eq hraw a after
      refine ⟨taken, hafter, ?_⟩
      rw [hbody]
      rfl
    · exact ⟨[], rfl, rfl⟩

/-- Behind `<` and a letter, a tag is found as it is read. -/
theorem takes_tag {c : Char} (hletter : c.isAlpha = true) (lead : String) (d : Dialect) (a s : List Char)
    (b : Builder) : Takes lead d (size a) ('<' :: c :: s) b
      (openingAt? lead d (a ++ '<' :: c :: s) (size a) ('<' :: c :: s) b) (Token.opening? ('<' :: c :: s)) := by
  have hstarts : Token.opensTag ('<' :: c :: s) = true := hletter
  have hend : tagEnd? none 0 ('<' :: c :: s) = (Token.cutTag none (c :: s)).map fun r => 1 + size r.1 :=
    tagEnd?_eq none 1 (c :: s)
  have hopening : Token.opening? ('<' :: c :: s) =
      (Token.cutTag none (c :: s)).map fun r => tokenOf r.1 r.2 := if_pos hletter
  rw [openingAt?, hstarts, if_pos rfl, hend, hopening]
  cases hcut : Token.cutTag none (c :: s) with
  | none => rfl
  | some r =>
    obtain ⟨inside, after⟩ := r
    have hs : c :: s = inside ++ '>' :: after := cutTag_split hcut
    rw [hs]
    have hinside : slice? ('<' :: (inside ++ '>' :: after)) 1 (1 + size inside) = some inside :=
      slice?_append ['<'] inside ('>' :: after)
    have hsplit : a ++ '<' :: (inside ++ '>' :: after) = a ++ '<' :: (inside ++ ['>']) ++ after := by simp
    have hsize : size a + (1 + size inside + 1) = size (a ++ '<' :: (inside ++ ['>'])) := by
      rw [size_append]
      exact congrArg (size a + ·) (size_between ['<'] inside ['>']).symm
    obtain ⟨taken, hafter, helement⟩ := elementAt?_eq lead d (a ++ '<' :: (inside ++ ['>'])) after b inside
    refine ⟨'<' :: (inside ++ '>' :: taken), ?_, ?_⟩
    · rw [List.cons_append, List.append_assoc, List.cons_append, ← hafter]
    · simp only [Option.map_some, Option.bind_eq_bind, hinside, Option.bind_some, hsize, hsplit, helement]
      rw [size_append, Nat.add_assoc, ← size_append]
      simp

theorem takes_opening (lead : String) (d : Dialect) (a remains : List Char) (b : Builder) :
    Takes lead d (size a) remains b (openingAt? lead d (a ++ remains) (size a) remains b)
      (Token.opening? remains) := by
  have hnone (hstarts : Token.opensTag remains = false) (hopening : Token.opening? remains = none) :
      Takes lead d (size a) remains b (openingAt? lead d (a ++ remains) (size a) remains b)
        (Token.opening? remains) := by
    rw [openingAt?, hstarts, hopening]
    rfl
  by_cases hshape : ∃ c s, remains = '<' :: c :: s
  · obtain ⟨c, s, rfl⟩ := hshape
    cases hletter : c.isAlpha with
    | true => exact takes_tag hletter lead d a s b
    | false => exact hnone hletter (if_neg (Bool.eq_false_iff.1 hletter))
  · refine hnone ?_ ?_
    · unfold Token.opensTag
      split
      · exact absurd ⟨_, _, rfl⟩ hshape
      · rfl
    · unfold Token.opening?
      split
      · exact absurd ⟨_, _, rfl⟩ hshape
      · rfl

theorem mayBegin_eq : Token.mayBegin = fun s => ['<'].isPrefixOf s || ['\x7b', '\x7b'].isPrefixOf s := by
  funext s
  unfold Token.mayBegin
  split
  · rfl
  · rfl
  · rename_i htag hbraces
    rw [isPrefixOf_eq_false htag, isPrefixOf_eq_false hbraces]
    rfl

/-- A search behind the first character. -/
theorem getD_find? {pat : List Char} (hne : pat ≠ []) (hpat : isAscii pat = true) (c : Char) (s : List Char) :
    ((find? pat s).map (· + c.utf8Size)).getD (size (c :: s)) =
      size (breakAt pat.isPrefixOf s).1 + c.utf8Size := by
  rw [find?_eq_border hne hpat, size_cons, Nat.add_comm, Option.getD_map (· + c.utf8Size), getD_border]

/-- Text is taken up to the next place where something else may begin. -/
theorem textAt?_eq (pos : Nat) (c : Char) (s : List Char) (b : Builder) :
    textAt? pos (c :: s) b = some (pos + size (c :: (breakAt Token.mayBegin s).1),
      b.putText (String.ofList (c :: (breakAt Token.mayBegin s).1))) := by
  have hrest : from? (c :: s) c.utf8Size = some s := by
    have h := from?_append [c] s
    rwa [size_cons, size_nil, Nat.add_zero] at h
  have hstop : min (size (breakAt ['<'].isPrefixOf s).1 + c.utf8Size)
      (size (breakAt ['\x7b', '\x7b'].isPrefixOf s).1 + c.utf8Size) = size (c :: (breakAt Token.mayBegin s).1) := by
    rw [Nat.add_min_add_right, ← size_breakAt_or, mayBegin_eq, size_cons, Nat.add_comm]
  have htext := upTo?_append (c :: (breakAt Token.mayBegin s).1) (breakAt Token.mayBegin s).2
  rw [List.cons_append, breakAt_append] at htext
  rw [textAt?]
  simp only [List.head?_cons, Option.map_some, Option.getD_some, Option.bind_eq_bind, hrest, Option.bind_some,
    getD_find? (List.cons_ne_nil _ _) (rfl : isAscii ['<'] = true),
    getD_find? (List.cons_ne_nil _ _) (rfl : isAscii ['\x7b', '\x7b'] = true), hstop, htext]
  rfl

/-- A round takes the next token, and ends behind it. -/
theorem round?_eq (lead : String) (d : Dialect) (a : List Char) (c : Char) (s : List Char) (b : Builder) :
    ∃ taken, c :: s = taken ++ (Token.next c s).2 ∧
      round? lead d (a ++ c :: s) (size a) b =
        some (size a + size taken, b.step lead d (Token.next c s).1) := by
  have hfound := (takes_aside lead d (size a) (c :: s) b).orElse ((takes_closing lead d (size a) (c :: s) b).orElse
    ((takes_opening lead d a (c :: s) b).orElse (takes_code lead d (size a) (c :: s) b)))
  unfold Token.next round?
  rw [from?_append, Option.bind_eq_bind, Option.bind_some]
  generalize (Token.aside? (c :: s) <|> Token.closing? (c :: s) <|> Token.opening? (c :: s) <|>
    Token.code? (c :: s)) = k at hfound ⊢
  cases k with
  | some k =>
    obtain ⟨taken, htaken, hfound⟩ := hfound
    refine ⟨taken, htaken, ?_⟩
    rw [hfound]
    rfl
  | none =>
    have hfound : _ = some none := hfound
    refine ⟨c :: (breakAt Token.mayBegin s).1, ?_, ?_⟩
    · rw [List.cons_append, breakAt_append]
    · rw [hfound]
      exact textAt?_eq (size a) c s b

/-- A token is at least one byte long. -/
theorem size_taken_pos {taken : List Char} {c : Char} {s : List Char} (h : c :: s = taken ++ (Token.next c s).2) :
    0 < size taken := by
  refine size_pos ?_
  rintro rfl
  have hlength := Token.length_next c s
  rw [← List.nil_append (Token.next c s).2, ← h, List.length_cons] at hlength
  omega

end Takes

/-! ## All rounds -/

/-- The rounds come to an end at the end of the source, each begins behind the one before and between
two characters, and they take all tokens. -/
theorem rounds?_eq (lead : String) (d : Dialect) (a s : List Char) (b : Builder) :
    ∃ places, rounds? lead d (a ++ s) (size a) b =
        some (size a :: places, ((Token.scan s).foldl (step lead d) b).tree) ∧
      (size a :: places).IsChain (· < ·) ∧ (size a :: places).getLast? = some (size (a ++ s)) ∧
      ∀ i ∈ size a :: places, (splitAt? (a ++ s) i).isSome = true := by
  have hplace (a s : List Char) : (splitAt? (a ++ s) (size a)).isSome = true := by
    rw [splitAt?_append]
    rfl
  fun_induction Token.scan s generalizing a b with
  | case1 =>
    refine ⟨[], ?_, List.IsChain.singleton _, ?_, ?_⟩
    · rw [rounds?, List.append_nil, if_neg (Nat.lt_irrefl _)]
      rfl
    · rw [List.append_nil]
      rfl
    · intro i hi
      obtain rfl := List.mem_singleton.1 hi
      exact hplace a []
  | case2 c s r ih =>
    obtain ⟨taken, htaken, hround⟩ := round?_eq lead d a c s b
    have hmore : size a < size (a ++ c :: s) := by
      rw [size_append]
      exact Nat.lt_add_of_pos_right (size_pos (List.cons_ne_nil c s))
    have hsplit : a ++ c :: s = a ++ taken ++ r.2 := by rw [List.append_assoc, ← htaken]
    obtain ⟨places, hrest, hchain, hlast, hvalid⟩ := ih (a ++ taken) (b.step lead d r.1)
    rw [← hsplit] at hrest hlast hvalid
    rw [size_append] at hrest hchain hlast hvalid
    have hon : size a < size a + size taken := Nat.lt_add_of_pos_right (size_taken_pos htaken)
    refine ⟨(size a + size taken) :: places, ?_, ?_, ?_, ?_⟩
    · rw [rounds?, if_pos hmore, hround, Option.bind_eq_bind, Option.bind_some, if_pos hon, hrest]
      rfl
    · exact List.isChain_cons_cons.2 ⟨hon, hchain⟩
    · exact hlast
    · rintro i (_ | ⟨_, hi⟩)
      · exact hplace a (c :: s)
      · exact hvalid i hi

end Builder

/-- Reading by bytes always comes to an end, and no cut fails. Over a source, the rounds begin at its
start and between two of its characters, each behind the one before, and end where the source ends
with the document. Over the inside of a tag, the rounds go on in the same way and find its name and
attributes. The value of each attribute is found in the end, too. -/
theorem Markup.readsAll (lead : String) (d : Dialect) (source : String) :
    (∃ places, Builder.rounds? lead d source.toList 0 Builder.start = some (places, Markup.parse lead d source) ∧
      places.head? = some 0 ∧ places.getLast? = some source.utf8ByteSize ∧ places.IsChain (· < ·) ∧
      ∀ i ∈ places, String.Pos.Raw.IsValid source ⟨i⟩) ∧
    (∀ inside, ∃ places, Tag.tagOf? inside = some (places, Tag.ofChars inside) ∧ places.IsChain (· < ·)) ∧
    ∀ name value, AttrValue.ofBytes? lead d name value = some (AttrValue.ofSource lead d name value) := by
  refine ⟨?_, Tag.tagOf?_eq, AttrValue.ofBytes?_eq lead d⟩
  obtain ⟨places, hrounds, hchain, hlast, hvalid⟩ := Builder.rounds?_eq lead d [] source.toList Builder.start
  rw [List.nil_append, size_nil] at hrounds
  rw [List.nil_append, size_nil, size_toList] at hlast
  refine ⟨0 :: places, ?_, rfl, hlast, hchain, ?_⟩
  · rw [hrounds, ← Builder.tree_build]
    rfl
  · intro i hi
    exact (isSome_splitAt?_iff source i).1 (hvalid i hi)

end HtmlTemplate
