import HtmlTemplate.Proofs.Text.Cut

/-! # Text as bytes

A place in a text may be given by the number of bytes before it in UTF-8, and then it may be past the
end or inside a character. Text is cut only at places that are neither (`isSome_splitAt?_iff`). A
search for bytes that begin with an ASCII character (`search_eq`), and a loop over bytes that tells
characters apart (`skip_eq`), end at places between characters, and at those where a search and a
loop over the characters end.
-/

namespace HtmlTemplate.Chars

/-- The bytes of a text in UTF-8. -/
def bytes (s : List Char) : List UInt8 :=
  s.flatMap String.utf8EncodeChar

/-- The number of bytes of a text. -/
def size (s : List Char) : Nat :=
  (bytes s).length

/-- The byte of an ASCII character. -/
def byte (c : Char) : UInt8 :=
  UInt8.ofNat c.toNat

variable {c x : Char} {a b s : List Char} {i : Nat}

@[simp] theorem bytes_nil : bytes [] = [] := rfl

@[simp] theorem bytes_cons (c : Char) (s : List Char) : bytes (c :: s) = String.utf8EncodeChar c ++ bytes s :=
  List.flatMap_cons

@[simp] theorem bytes_append (a b : List Char) : bytes (a ++ b) = bytes a ++ bytes b :=
  List.flatMap_append

@[simp] theorem size_nil : size [] = 0 := rfl

@[simp] theorem size_cons (c : Char) (s : List Char) : size (c :: s) = c.utf8Size + size s := by
  simp [size]

@[simp] theorem size_append (a b : List Char) : size (a ++ b) = size a + size b := by
  simp [size]

theorem size_between (before inner after : List Char) :
    size (before ++ (inner ++ after)) = size before + size inner + size after := by
  rw [size_append, size_append, Nat.add_assoc]

theorem exists_bytes (c : Char) : ∃ b bs, String.utf8EncodeChar c = b :: bs :=
  List.exists_cons_of_length_pos (by rw [String.length_utf8EncodeChar]; exact c.utf8Size_pos)

theorem size_pos (h : s ≠ []) : 0 < size s := by
  obtain ⟨c, s, rfl⟩ := List.exists_cons_of_ne_nil h
  rw [size_cons]
  exact Nat.add_pos_left c.utf8Size_pos _

theorem size_toList (s : String) : size s.toList = s.utf8ByteSize := by
  rw [← String.size_toByteArray, ← String.utf8Encode_toList, List.utf8Encode, List.size_toByteArray]
  rfl

/-! ## ASCII characters and others -/

theorem utf8EncodeChar_of_lt (h : c.toNat < 128) : String.utf8EncodeChar c = [byte c] := by
  unfold String.utf8EncodeChar
  exact if_pos (Nat.le_of_lt_succ h)

theorem le_of_mem_utf8EncodeChar (h : 128 ≤ c.toNat) {b : UInt8} (hb : b ∈ String.utf8EncodeChar c) :
    128 ≤ b.toNat := by
  have hc : c.val.toNat = c.toNat := rfl
  unfold String.utf8EncodeChar at hb
  simp only [hc] at hb
  rw [if_neg (by omega)] at hb
  split at hb
  · simp only [List.mem_cons, List.not_mem_nil, or_false] at hb
    rcases hb with rfl | rfl <;> simp only [UInt8.toNat_ofNat'] <;> omega
  · split at hb
    · simp only [List.mem_cons, List.not_mem_nil, or_false] at hb
      rcases hb with rfl | rfl | rfl <;> simp only [UInt8.toNat_ofNat'] <;> omega
    · simp only [List.mem_cons, List.not_mem_nil, or_false] at hb
      rcases hb with rfl | rfl | rfl | rfl <;> simp only [UInt8.toNat_ofNat'] <;> omega

theorem toNat_byte (h : c.toNat < 128) : (byte c).toNat = c.toNat := by
  rw [byte, UInt8.toNat_ofNat']
  omega

theorem byte_inj (hc : c.toNat < 128) (hx : x.toNat < 128) : byte c = byte x ↔ c = x := by
  refine ⟨fun h => Char.toNat_inj.1 ?_, fun h => h ▸ rfl⟩
  rw [← toNat_byte hc, ← toNat_byte hx, h]

theorem utf8Size_of_lt (h : c.toNat < 128) : c.utf8Size = 1 := by
  rw [← String.length_utf8EncodeChar, utf8EncodeChar_of_lt h]
  rfl

def isAscii (s : List Char) : Bool :=
  s.all (·.toNat < 128)

theorem isAscii_cons : isAscii (c :: s) = true ↔ c.toNat < 128 ∧ isAscii s = true := by
  simp [isAscii]

theorem size_of_isAscii (h : isAscii s = true) : size s = s.length := by
  induction s with
  | nil => rfl
  | cons c s ih =>
    obtain ⟨hc, hs⟩ := isAscii_cons.1 h
    rw [size_cons, utf8Size_of_lt hc, ih hs, List.length_cons, Nat.add_comm]

/-! ## Cutting at a place -/

/-- Cuts a text behind `n` bytes. There is no such cut past the end or inside a character. -/
def splitAt? : List Char → Nat → Option (List Char × List Char)
  | s, 0 => some ([], s)
  | [], _ + 1 => none
  | c :: s, n + 1 =>
    if c.utf8Size ≤ n + 1 then (splitAt? s (n + 1 - c.utf8Size)).map fun r => (c :: r.1, r.2) else none

/-- The text up to a place. -/
def upTo? (s : List Char) (stop : Nat) : Option (List Char) :=
  (splitAt? s stop).map Prod.fst

/-- The text from a place on. -/
def from? (s : List Char) (start : Nat) : Option (List Char) :=
  (splitAt? s start).map Prod.snd

/-- The text between two places, the first of which is not behind the second. -/
def slice? (s : List Char) (start stop : Nat) : Option (List Char) :=
  if start ≤ stop then (from? s start).bind (upTo? · (stop - start)) else none

theorem splitAt?_append (a b : List Char) : splitAt? (a ++ b) (size a) = some (a, b) := by
  induction a with
  | nil =>
    unfold splitAt?
    rfl
  | cons c a ih =>
    obtain ⟨n, hn⟩ : ∃ n, size (c :: a) = n + 1 := Nat.exists_eq_add_one.2 (size_pos (List.cons_ne_nil c a))
    have hsize := size_cons c a
    rw [hn] at hsize ⊢
    rw [List.cons_append, splitAt?, if_pos (hsize ▸ Nat.le_add_right ..), hsize, Nat.add_sub_cancel_left, ih]
    rfl

theorem eq_of_splitAt? {r : List Char × List Char} (h : splitAt? s i = some r) :
    s = r.1 ++ r.2 ∧ i = size r.1 := by
  induction s generalizing i r with
  | nil =>
    cases i with
    | zero =>
      obtain rfl : ([], []) = r := Option.some.inj h
      exact ⟨rfl, rfl⟩
    | succ i => cases h
  | cons c s ih =>
    cases i with
    | zero =>
      obtain rfl : ([], c :: s) = r := Option.some.inj h
      exact ⟨rfl, rfl⟩
    | succ i =>
      rw [splitAt?] at h
      split at h
      · rename_i hle
        obtain ⟨r', hr', rfl⟩ := Option.map_eq_some_iff.1 h
        obtain ⟨hs, hi⟩ := ih hr'
        refine ⟨congrArg (c :: ·) hs, ?_⟩
        simp only [size_cons]
        omega
      · cases h

/-- A text is cut at all valid places, and at no others. -/
theorem isSome_splitAt?_iff (s : String) (i : Nat) :
    (splitAt? s.toList i).isSome = true ↔ String.Pos.Raw.IsValid s ⟨i⟩ := by
  rw [Option.isSome_iff_exists, String.Pos.Raw.isValid_iff_exists_append]
  constructor
  · rintro ⟨⟨a, b⟩, h⟩
    obtain ⟨hs, rfl⟩ := eq_of_splitAt? h
    refine ⟨String.ofList a, String.ofList b, ?_, ?_⟩
    · rw [← String.ofList_append, ← hs, String.ofList_toList]
    · rw [← String.toList_ofList (l := a), size_toList, String.toList_ofList]
      rfl
  · rintro ⟨a, b, rfl, ha⟩
    obtain rfl : i = a.utf8ByteSize := congrArg String.Pos.Raw.byteIdx ha
    exact ⟨(a.toList, b.toList), by rw [String.toList_append, ← size_toList, splitAt?_append]⟩

theorem upTo?_append (a b : List Char) : upTo? (a ++ b) (size a) = some a := by
  rw [upTo?, splitAt?_append]
  rfl

theorem from?_append (a b : List Char) : from? (a ++ b) (size a) = some b := by
  rw [from?, splitAt?_append]
  rfl

theorem slice?_append (a b r : List Char) : slice? (a ++ (b ++ r)) (size a) (size a + size b) = some b := by
  rw [slice?, if_pos (Nat.le_add_right ..), from?_append, Nat.add_sub_cancel_left]
  exact upTo?_append b r

theorem slice?_takeWhile (q : Char → Bool) (a s : List Char) :
    slice? (a ++ s) (size a) (size (a ++ s.takeWhile q)) = some (s.takeWhile q) := by
  have h := slice?_append a (s.takeWhile q) (s.dropWhile q)
  rwa [List.takeWhile_append_dropWhile, ← size_append] at h

/-! ## Loops over bytes -/

/-- The first place from `i` on where a byte is not in `p`, or the end. -/
def skip (p : UInt8 → Bool) (bs : List UInt8) (i : Nat) : Nat :=
  if h : i < bs.length then
    if p bs[i] then skip p bs (i + 1) else i
  else i
termination_by bs.length - i

theorem le_skip (p : UInt8 → Bool) (bs : List UInt8) (i : Nat) : i ≤ skip p bs i := by
  fun_induction skip p bs i with
  | case1 i hlt hp ih => exact Nat.le_of_succ_le ih
  | case2 i hlt hp => exact Nat.le_refl i
  | case3 i hlt => exact Nat.le_refl i

/-- A test of bytes that agrees with a test of characters on each byte of a character. -/
def Agrees (p : UInt8 → Bool) (q : Char → Bool) : Prop :=
  ∀ c, ∀ b ∈ String.utf8EncodeChar c, p b = q c

section Agrees

variable {p p' : UInt8 → Bool} {q q' : Char → Bool}

theorem agrees_byte (hx : x.toNat < 128) : Agrees (· == byte x) (· == x) := by
  intro c b hb
  dsimp only
  rcases Nat.lt_or_ge c.toNat 128 with hc | hc
  · rw [utf8EncodeChar_of_lt hc, List.mem_singleton] at hb
    rw [hb, Bool.beq_eq_decide_eq, Bool.beq_eq_decide_eq, decide_eq_decide]
    exact byte_inj hc hx
  · have hne : b ≠ byte x := fun h => by
      have hle := le_of_mem_utf8EncodeChar hc hb
      rw [h, toNat_byte hx] at hle
      omega
    have hne' : c ≠ x := fun h => by
      rw [h] at hc
      omega
    rw [beq_false_of_ne hne, beq_false_of_ne hne']

theorem getElem?_bytes (hx : x.toNat < 128) (a s : List Char) :
    (bytes (a ++ s))[size a]? = some (byte x) ↔ s.head? = some x := by
  rw [bytes_append, List.getElem?_append_right (Nat.le_refl (size a)), size, Nat.sub_self]
  cases s with
  | nil => simp
  | cons c s =>
    obtain ⟨b, bs, hbs⟩ := exists_bytes c
    have hbyte : (b == byte x) = (c == x) := agrees_byte hx c b (hbs ▸ List.mem_cons_self)
    rw [bytes_cons, hbs, List.cons_append, List.getElem?_cons_zero, List.head?_cons, Option.some.injEq,
      Option.some.injEq, ← beq_iff_eq, hbyte, beq_iff_eq]

theorem Agrees.or (h : Agrees p q) (h' : Agrees p' q') :
    Agrees (fun b => p b || p' b) fun c => q c || q' c :=
  fun c b hb => congrArg₂ Bool.or (h c b hb) (h' c b hb)

theorem Agrees.and (h : Agrees p q) (h' : Agrees p' q') :
    Agrees (fun b => p b && p' b) fun c => q c && q' c :=
  fun c b hb => congrArg₂ Bool.and (h c b hb) (h' c b hb)

theorem Agrees.not (h : Agrees p q) : Agrees (fun b => !p b) fun c => !q c :=
  fun c b hb => congrArg Bool.not (h c b hb)

theorem skip_of_le {bs : List UInt8} (h : bs.length ≤ i) : skip p bs i = i := by
  rw [skip, dif_neg (Nat.not_lt.2 h)]

theorem skip_cons_of_neg {b : UInt8} (h : p b = false) (u w : List UInt8) :
    skip p (u ++ b :: w) u.length = u.length := by
  have hlt : u.length < (u ++ b :: w).length := by simp
  have hget : (u ++ b :: w)[u.length] = b := by simp
  rw [skip, dif_pos hlt, hget, h]
  rfl

theorem skip_append {v : List UInt8} (h : ∀ b ∈ v, p b = true) (u w : List UInt8) :
    skip p (u ++ (v ++ w)) u.length = skip p (u ++ v ++ w) (u ++ v).length := by
  induction v generalizing u with
  | nil => simp
  | cons b v ih =>
    obtain ⟨hb, hv⟩ := List.forall_mem_cons.1 h
    have hlt : u.length < (u ++ (b :: v ++ w)).length := by simp
    have hget : (u ++ (b :: v ++ w))[u.length] = b := by simp
    have hrest := ih hv (u ++ [b])
    rw [skip, dif_pos hlt, hget, if_pos hb]
    simpa using hrest

/-- A loop over the bytes ends where the loop over the characters ends. -/
theorem skip_eq (h : Agrees p q) (a s : List Char) :
    skip p (bytes (a ++ s)) (size a) = size (a ++ s.takeWhile q) := by
  induction s generalizing a with
  | nil =>
    rw [List.takeWhile_nil, List.append_nil]
    exact skip_of_le (Nat.le_refl (size a))
  | cons c s ih =>
    rw [bytes_append, bytes_cons, size]
    cases hc : q c with
    | true =>
      have hpass : ∀ b ∈ String.utf8EncodeChar c, p b = true := fun b hb => (h c b hb).trans hc
      have hrest := ih (a ++ [c])
      rw [skip_append hpass, List.takeWhile_cons_of_pos hc]
      simpa [size] using hrest
    | false =>
      obtain ⟨b, bs, hbs⟩ := exists_bytes c
      have hstop : p b = false := (h c b (hbs ▸ List.mem_cons_self)).trans hc
      rw [hbs, List.cons_append, skip_cons_of_neg hstop, List.takeWhile_cons_of_neg (by simp [hc]),
        List.append_nil]
      rfl

end Agrees

/-! ## Searching for bytes -/

/-- The first place where `pat` stands. -/
def search (pat : List UInt8) : List UInt8 → Option Nat
  | [] => if pat.isEmpty then some 0 else none
  | b :: bs => if pat.isPrefixOf (b :: bs) then some 0 else (search pat bs).map (· + 1)

/-- The place between two parts of a text, if the second is not empty. -/
def border (r : List Char × List Char) : Option Nat :=
  if r.2 = [] then none else some (size r.1)

theorem search_skip {x : UInt8} {u : List UInt8} (h : ∀ b ∈ u, b ≠ x) (pat v : List UInt8) :
    search (x :: pat) (u ++ v) = (search (x :: pat) v).map (u.length + ·) := by
  induction u with
  | nil => simp
  | cons b u ih =>
    obtain ⟨hb, hu⟩ := List.forall_mem_cons.1 h
    have hnot : (x :: pat).isPrefixOf (b :: u ++ v) = false := by
      rw [List.cons_append, List.isPrefixOf, beq_false_of_ne (Ne.symm hb)]
      rfl
    rw [List.cons_append] at hnot ⊢
    rw [search, hnot, ih hu, Option.map_map]
    refine congrArg (Option.map · _) (funext fun n => ?_)
    simp only [Function.comp_apply, List.length_cons]
    omega

/-- A search for bytes that begin with an ASCII character finds the first place where these stand in
front of a character. -/
theorem search_eq {pat : List UInt8} {x : UInt8} (hx : x.toNat < 128) {p : List Char → Bool}
    (hp : ∀ s, (x :: pat).isPrefixOf (bytes s) = p s) (s : List Char) :
    search (x :: pat) (bytes s) = border (breakAt p s) := by
  induction s with
  | nil => rfl
  | cons c s ih =>
    have hbytes := bytes_cons c s
    obtain ⟨b, bs, hbs⟩ := exists_bytes c
    cases hfirst : p (c :: s) with
    | true =>
      rw [breakAt_self hfirst, hbytes, hbs, List.cons_append, search, ← List.cons_append, ← hbs, ← hbytes, hp,
        if_pos hfirst]
      rfl
    | false =>
      have hbreak : breakAt p (c :: s) = (c :: (breakAt p s).1, (breakAt p s).2) := by
        rw [breakAt, hfirst]
        rfl
      have hskip : search (x :: pat) (bytes (c :: s)) =
          (search (x :: pat) (bytes s)).map (c.utf8Size + ·) := by
        rcases Nat.lt_or_ge c.toNat 128 with hc | hc
        · have hnot := hp (c :: s)
          rw [hfirst, hbytes, utf8EncodeChar_of_lt hc, List.singleton_append] at hnot
          rw [hbytes, utf8EncodeChar_of_lt hc, List.singleton_append, search, hnot, utf8Size_of_lt hc]
          simp only [Nat.add_comm]
          rfl
        · rw [hbytes, search_skip, String.length_utf8EncodeChar]
          rintro b hb rfl
          exact absurd (le_of_mem_utf8EncodeChar hc hb) (Nat.not_le.2 hx)
      rw [hskip, ih, hbreak, border, border]
      simp only [size_cons]
      split
      · rfl
      · rfl

/-- The first place where a text stands in another. -/
def find? (pat s : List Char) : Option Nat :=
  search (bytes pat) (bytes s)

theorem isPrefixOf_bytes {pat : List Char} (hpat : isAscii pat = true) (s : List Char) :
    (bytes pat).isPrefixOf (bytes s) = pat.isPrefixOf s := by
  induction pat generalizing s with
  | nil => rfl
  | cons x pat ih =>
    obtain ⟨hx, hpat⟩ := isAscii_cons.1 hpat
    rw [bytes_cons, utf8EncodeChar_of_lt hx, List.singleton_append]
    cases s with
    | nil => rfl
    | cons c s =>
      rw [bytes_cons, List.isPrefixOf]
      by_cases h : c = x
      · rw [h, utf8EncodeChar_of_lt hx, List.singleton_append, List.isPrefixOf, ih hpat, beq_self_eq_true,
          beq_self_eq_true]
      · obtain ⟨b, bs, hbs⟩ := exists_bytes c
        have hbyte : (b == byte x) = (c == x) := agrees_byte hx c b (hbs ▸ List.mem_cons_self)
        rw [hbs, List.cons_append, List.isPrefixOf, Bool.beq_comm, hbyte, Bool.beq_comm (a := x),
          beq_false_of_ne h]
        rfl

theorem find?_eq_border {pat : List Char} (hne : pat ≠ []) (hpat : isAscii pat = true) (s : List Char) :
    find? pat s = border (breakAt pat.isPrefixOf s) := by
  obtain ⟨x, pat, rfl⟩ := List.exists_cons_of_ne_nil hne
  have hx := (isAscii_cons.1 hpat).1
  have hprefix := isPrefixOf_bytes hpat
  have hbytes : bytes (x :: pat) = byte x :: bytes pat := by
    rw [bytes_cons, utf8EncodeChar_of_lt hx, List.singleton_append]
  rw [hbytes] at hprefix
  rw [find?, hbytes]
  exact search_eq (by rw [toNat_byte hx]; exact hx) hprefix s

theorem find?_eq_cut {pat : List Char} (hne : pat ≠ []) (hpat : isAscii pat = true) (s : List Char) :
    find? pat s = (cut pat s).map fun r => size r.1 := by
  rw [find?_eq_border hne hpat, cut]
  rcases breakAt pat.isPrefixOf s with ⟨before, _ | ⟨c, found⟩⟩
  · rfl
  · rfl

theorem cut_cons {pat : List Char} (h : pat.isPrefixOf (c :: s) = false) :
    cut pat (c :: s) = (cut pat s).map fun r => (c :: r.1, r.2) := by
  have hbreak : breakAt pat.isPrefixOf (c :: s) =
      (c :: (breakAt pat.isPrefixOf s).1, (breakAt pat.isPrefixOf s).2) := by
    rw [breakAt, h]
    rfl
  rw [cut, cut, hbreak]
  rcases breakAt pat.isPrefixOf s with ⟨before, _ | ⟨x, found⟩⟩
  · rfl
  · rfl

/-- A search passes over two characters in front. -/
theorem find?_cons_cons {pat : List Char} (hne : pat ≠ []) (hpat : isAscii pat = true)
    (hc : c.toNat < 128) (hx : x.toNat < 128) (hfirst : pat.isPrefixOf (c :: x :: s) = false)
    (hsecond : pat.isPrefixOf (x :: s) = false) :
    find? pat (c :: x :: s) = (cut pat s).map fun r => 2 + size r.1 := by
  rw [find?_eq_cut hne hpat, cut_cons hfirst, cut_cons hsecond, Option.map_map, Option.map_map]
  refine congrArg (Option.map · _) (funext fun r => ?_)
  simp only [Function.comp_apply, size_cons, utf8Size_of_lt hc, utf8Size_of_lt hx]
  omega

/-- Where a search ends that goes to the end if it finds nothing. -/
theorem getD_border (p : List Char → Bool) (s : List Char) :
    (border (breakAt p s)).getD (size s) = size (breakAt p s).1 := by
  have happend := breakAt_append p s
  unfold border
  split
  · rename_i h
    rw [h, List.append_nil] at happend
    rw [happend]
    rfl
  · rfl

/-- The first of two things to be found. -/
theorem size_breakAt_or (p q : List Char → Bool) (s : List Char) :
    size (breakAt (fun s => p s || q s) s).1 = min (size (breakAt p s).1) (size (breakAt q s).1) := by
  induction s with
  | nil => rfl
  | cons c s ih =>
    simp only [breakAt]
    cases p (c :: s) <;> cases q (c :: s) <;> simp [ih, Nat.add_min_add_left]

/-! ## Searching in small letters -/

/-- An ASCII capital made small, as a byte. -/
def lowerByte (b : UInt8) : UInt8 :=
  if byte 'A' ≤ b ∧ b ≤ byte 'Z' then b + 32 else b

/-- The first place where a text stands in another, ASCII capitals counting as small letters. -/
def findFolded? (pat s : List Char) : Option Nat :=
  search ((bytes pat).map lowerByte) ((bytes s).map lowerByte)

theorem toNat_toLower (c : Char) :
    c.toLower.toNat = if 65 ≤ c.toNat ∧ c.toNat ≤ 90 then c.toNat + 32 else c.toNat := by
  unfold Char.toLower
  by_cases h : 65 ≤ c.toNat ∧ c.toNat ≤ 90
  · rw [dif_pos (by exact h), if_pos h]
    change (c.val + 32).toNat = c.toNat + 32
    rw [UInt32.toNat_add]
    change (c.toNat + 32) % 2 ^ 32 = c.toNat + 32
    omega
  · rw [dif_neg (by exact h), if_neg h]

theorem isUpper_toLower (c : Char) : c.toLower.isUpper = false := by
  have hlower := toNat_toLower c
  have hiff : c.toLower.isUpper = true ↔ 65 ≤ c.toLower.toNat ∧ c.toLower.toNat ≤ 90 := by
    unfold Char.isUpper
    simp [UInt32.le_iff_toNat_le]
  rw [Bool.eq_false_iff, Ne, hiff]
  split at hlower <;> omega

theorem toLower_of_le (h : 128 ≤ c.toNat) : c.toLower = c := by
  apply Char.toNat_inj.1
  rw [toNat_toLower, if_neg (by omega)]

theorem toLower_lt (h : c.toNat < 128) : c.toLower.toNat < 128 := by
  rw [toNat_toLower]
  split
  · omega
  · exact h

theorem isAscii_lower (h : isAscii s = true) : isAscii (lower s) = true := by
  induction s with
  | nil => rfl
  | cons c s ih =>
    obtain ⟨hc, hs⟩ := isAscii_cons.1 h
    exact isAscii_cons.2 ⟨toLower_lt hc, ih hs⟩

theorem lowerByte_byte (h : c.toNat < 128) : lowerByte (byte c) = byte c.toLower := by
  have hcase : byte 'A' ≤ byte c ∧ byte c ≤ byte 'Z' ↔ 65 ≤ c.toNat ∧ c.toNat ≤ 90 := by
    rw [UInt8.le_iff_toNat_le, UInt8.le_iff_toNat_le, toNat_byte h]
    rfl
  have hlower : byte c.toLower = if 65 ≤ c.toNat ∧ c.toNat ≤ 90 then byte c + 32 else byte c := by
    rw [byte, toNat_toLower]
    split
    · rw [UInt8.ofNat_add]
      rfl
    · rfl
  rw [hlower, lowerByte]
  exact if_congr hcase rfl rfl

theorem map_lowerByte_char (c : Char) :
    (String.utf8EncodeChar c).map lowerByte = String.utf8EncodeChar c.toLower := by
  rcases Nat.lt_or_ge c.toNat 128 with hc | hc
  · rw [utf8EncodeChar_of_lt hc, utf8EncodeChar_of_lt (toLower_lt hc), List.map_singleton, lowerByte_byte hc]
  · rw [toLower_of_le hc]
    refine List.map_congr_left (g := id) (fun b hb => ?_) |>.trans (List.map_id _)
    have hle := le_of_mem_utf8EncodeChar hc hb
    refine if_neg fun h => ?_
    have hZ : b.toNat ≤ 90 := h.2
    omega

theorem map_lowerByte (s : List Char) : (bytes s).map lowerByte = bytes (lower s) := by
  induction s with
  | nil => rfl
  | cons c s ih =>
    rw [bytes_cons, List.map_append, map_lowerByte_char, ih, lower, lower, List.map_cons, bytes_cons]

theorem size_lower (s : List Char) : size (lower s) = size s := by
  rw [size, ← map_lowerByte, List.length_map]
  rfl

theorem beginsFolded_eq (pat s : List Char) : beginsFolded pat s = (lower pat).isPrefixOf (lower s) := by
  rw [beginsFolded, Bool.eq_iff_iff, List.isPrefixOf_iff_prefix, List.isPrefixOf_iff_prefix, lower, lower, lower,
    List.map_take, List.prefix_take_iff, List.length_map]
  exact and_iff_left (Nat.le_refl _)

theorem breakAt_lower (pat s : List Char) : breakAt (lower pat).isPrefixOf (lower s) =
    (lower (breakAt (beginsFolded pat) s).1, lower (breakAt (beginsFolded pat) s).2) := by
  induction s with
  | nil => rfl
  | cons c s ih =>
    have hcons : lower (c :: s) = c.toLower :: lower s := rfl
    have hfirst := beginsFolded_eq pat (c :: s)
    rw [hcons] at hfirst ⊢
    rw [breakAt, breakAt, hfirst]
    split
    · rfl
    · rw [ih]
      rfl

theorem findFolded?_eq {pat : List Char} (hne : pat ≠ []) (hpat : isAscii pat = true) (s : List Char) :
    findFolded? pat s = border (breakAt (beginsFolded pat) s) := by
  have hlower := isAscii_lower hpat
  have hnil (s : List Char) : lower s = [] ↔ s = [] := List.map_eq_nil_iff
  rw [findFolded?, map_lowerByte, map_lowerByte, ← find?, find?_eq_border (fun h => hne ((hnil pat).1 h)) hlower,
    breakAt_lower, border, border]
  simp only [size_lower, hnil]

end HtmlTemplate.Chars
