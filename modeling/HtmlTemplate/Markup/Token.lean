import HtmlTemplate.Markup.Tag

/-! # The tokens of template source

Source is cut into tokens from the front. What cannot begin anything else is text, so every source
can be cut: `Token.next` takes off at least one character, and `Token.scan` repeats it to the end.
-/

namespace HtmlTemplate

/-- A piece of template source. -/
inductive Token where
  /-- Text, and whatever passes through as text. -/
  | text (text : String)
  /-- An interpolated expression. -/
  | code (expression : String)
  /-- An element without content. -/
  | leaf (tag : Tag)
  /-- An element with a raw text body. -/
  | raw (tag : Tag) (body : String)
  | opening (tag : Tag)
  /-- An end tag by its name, and as it is written. -/
  | closing (name : String) (source : String)
  deriving DecidableEq, Repr

namespace Token

open Chars

/-- Comments, declarations and processing instructions pass through up to their end, or to the
end of the source. -/
def aside? : List Char → Option (Token × List Char)
  | '<' :: '!' :: '-' :: '-' :: s =>
    let r := through "-->".toList ('<' :: '!' :: '-' :: '-' :: s)
    some (text (String.ofList r.1), r.2)
  | '<' :: '!' :: s =>
    let r := through ['>'] ('<' :: '!' :: s)
    some (text (String.ofList r.1), r.2)
  | '<' :: '?' :: s =>
    let r := through ['>'] ('<' :: '?' :: s)
    some (text (String.ofList r.1), r.2)
  | _ => none

/-- An end tag reaches to the next `>`; its name is trimmed and in small letters. -/
def closing? : List Char → Option (Token × List Char)
  | '<' :: '/' :: s =>
    (cut ['>'] s).map fun r =>
      (closing (String.ofList (lower (trim r.1)))
        (String.ofList ('<' :: '/' :: (r.1 ++ ['>']))), r.2)
  | _ => none

/-- Cuts at the first `>` that is not between quotes; `quote` is the quote that is open. -/
def cutTag (quote : Option Char) : List Char → Option (List Char × List Char)
  | [] => none
  | c :: s =>
    match quote with
    | some q => (cutTag (if c = q then none else some q) s).map fun r => (c :: r.1, r.2)
    | none =>
      if c = '>' then some ([], s)
      else (cutTag (if c = '"' ∨ c = '\'' then some c else none) s).map fun r => (c :: r.1, r.2)

/-- The body of a raw text element, and what follows its end tag. An end tag without `>` is left
to be read as text. -/
def rawBody (tag : String) (s : List Char) : List Char × List Char :=
  let r := breakAt (beginsFolded ('<' :: '/' :: tag.toList)) s
  match cut ['>'] r.2 with
  | some (_, rest) => (r.1, rest)
  | none => r

/-- A start tag: `<` and a letter, up to the `>` that is not between quotes. A slash at the end,
like a void tag, leaves the element without content. -/
def opening? : List Char → Option (Token × List Char)
  | '<' :: c :: s =>
    if c.isAlpha then
      (cutTag none (c :: s)).map fun r =>
        let tag := Tag.ofChars (dropTail (· == '/') r.1)
        if r.1.getLast? = some '/' ∨ isVoid tag.name then (leaf tag, r.2)
        else if isRawText tag.name then
          let b := rawBody tag.name r.2
          (raw tag (String.ofList b.1), b.2)
        else (opening tag, r.2)
    else none
  | _ => none

/-- An expression between double braces, unless it is blank. -/
def code? : List Char → Option (Token × List Char)
  | '\x7b' :: '\x7b' :: s =>
    match cut ['\x7d', '\x7d'] s with
    | some (inner, rest) =>
      if trim inner = [] then none else some (code (String.ofList (trim inner)), rest)
    | none => none
  | _ => none

/-- Whether something other than text may begin here. -/
def mayBegin : List Char → Bool
  | '<' :: _ => true
  | '\x7b' :: '\x7b' :: _ => true
  | _ => false

/-- The token at the front of the source `c :: s`, and the rest. -/
def next (c : Char) (s : List Char) : Token × List Char :=
  match aside? (c :: s) <|> closing? (c :: s) <|> opening? (c :: s) <|> code? (c :: s) with
  | some r => r
  | none =>
    let r := breakAt mayBegin s
    (text (String.ofList (c :: r.1)), r.2)

/-! ## Every token takes off at least one character -/

theorem length_aside {s r : List Char} {t : Token} (h : aside? s = some (t, r)) :
    r.length < s.length := by
  unfold aside? at h
  split at h
  · cases h; exact length_through_lt (by decide) (by simp)
  · cases h; exact length_through_lt (by decide) (by simp)
  · cases h; exact length_through_lt (by decide) (by simp)
  · cases h

theorem length_closing {s r : List Char} {t : Token} (h : closing? s = some (t, r)) :
    r.length < s.length := by
  unfold closing? at h
  split at h
  · obtain ⟨⟨b, a⟩, hcut, he⟩ := Option.map_eq_some_iff.1 h
    have := (length_cut hcut).1
    obtain rfl : a = r := congrArg Prod.snd he
    simp only [List.length_cons]
    omega
  · cases h

theorem length_cutTag {quote : Option Char} {s a b : List Char}
    (h : cutTag quote s = some (a, b)) : b.length < s.length := by
  induction s generalizing quote a with
  | nil => simp [cutTag] at h
  | cons c s ih =>
    unfold cutTag at h
    split at h
    · obtain ⟨⟨a', b'⟩, hr, he⟩ := Option.map_eq_some_iff.1 h
      obtain rfl : b' = b := congrArg Prod.snd he
      have := ih hr
      simp only [List.length_cons]
      omega
    · split at h
      · cases h; simp
      · obtain ⟨⟨a', b'⟩, hr, he⟩ := Option.map_eq_some_iff.1 h
        obtain rfl : b' = b := congrArg Prod.snd he
        have := ih hr
        simp only [List.length_cons]
        omega

theorem length_rawBody_le (tag : String) (s : List Char) : (rawBody tag s).2.length ≤ s.length := by
  have hlen := length_breakAt (beginsFolded ('<' :: '/' :: tag.toList)) s
  simp only [rawBody]
  split
  · rename_i hcut
    have := (length_cut hcut).1
    simp only
    omega
  · omega

theorem length_opening {s r : List Char} {t : Token} (h : opening? s = some (t, r)) :
    r.length < s.length := by
  unfold opening? at h
  split at h
  · rename_i c s
    split at h
    · obtain ⟨⟨a, b⟩, hcut, he⟩ := Option.map_eq_some_iff.1 h
      have hlt := length_cutTag hcut
      simp only [List.length_cons] at hlt ⊢
      simp only at he
      split at he
      · obtain rfl : b = r := congrArg Prod.snd he
        omega
      · split at he
        · have hr : (rawBody _ b).2 = r := congrArg Prod.snd he
          rw [← hr]
          exact Nat.lt_of_le_of_lt (length_rawBody_le _ b) (by omega)
        · obtain rfl : b = r := congrArg Prod.snd he
          omega
    · cases h
  · cases h

theorem length_code {s r : List Char} {t : Token} (h : code? s = some (t, r)) :
    r.length < s.length := by
  unfold code? at h
  split at h
  · split at h
    · rename_i hcut
      split at h
      · cases h
      · have := (length_cut hcut).1
        cases h
        simp only [List.length_cons]
        omega
    · cases h
  · cases h

theorem length_next (c : Char) (s : List Char) : (next c s).2.length ≤ s.length := by
  unfold next
  split
  · rename_i r h
    have hlt : r.2.length < (c :: s).length := by
      simp only [Option.orElse_eq_orElse, Option.orElse_eq_or, Option.or_eq_some_iff] at h
      rcases h with h | ⟨_, h | ⟨_, h | ⟨_, h⟩⟩⟩
      · exact length_aside (r := r.2) (t := r.1) h
      · exact length_closing (r := r.2) (t := r.1) h
      · exact length_opening (r := r.2) (t := r.1) h
      · exact length_code (r := r.2) (t := r.1) h
    simpa [Nat.lt_succ_iff] using hlt
  · have := length_breakAt mayBegin s
    simp only
    omega

/-- The tokens of a source. -/
def scan : List Char → List Token
  | [] => []
  | c :: s =>
    let r := next c s
    r.1 :: scan r.2
termination_by s => s.length
decreasing_by
  have := length_next c s
  simp only [List.length_cons]
  omega

end Token

end HtmlTemplate
