/-! # Hashes of texts

The hash of a text is SipHash with one round for each word and three at the end, under the key of
zeros. It is taken of the UTF-8 bytes of the text, followed by a byte that occurs in none.
-/

namespace HtmlTemplate

/-- The four words that a hash is computed in. -/
structure HashState where
  a : UInt64
  b : UInt64
  c : UInt64
  d : UInt64
  deriving DecidableEq, Repr

namespace HashState

/-- The state before any word. -/
def start : HashState :=
  ⟨0x736f6d6570736575, 0x646f72616e646f6d, 0x6c7967656e657261, 0x7465646279746573⟩

/-- Turns a word to the left by `n` bits. -/
def turn (w : UInt64) (n : UInt64) : UInt64 :=
  (w <<< n) ||| (w >>> (64 - n))

/-- Mixes the words of a state. -/
def round (s : HashState) : HashState :=
  let a := s.a + s.b
  let c := s.c + s.d
  let b := turn s.b 13 ^^^ a
  let d := turn s.d 16 ^^^ c
  let a := turn a 32 + d
  let c := c + b
  ⟨a, turn b 17 ^^^ c, turn c 32, turn d 21 ^^^ a⟩

/-- Takes one word of the input in. -/
def absorb (s : HashState) (w : UInt64) : HashState :=
  let s := round { s with d := s.d ^^^ w }
  { s with a := s.a ^^^ w }

/-- The word of at most eight bytes, the first of them the lowest. -/
def wordOf (bytes : List UInt8) : UInt64 :=
  bytes.foldr (fun byte w => (w <<< 8) ||| byte.toUInt64) 0

/-- Takes bytes in, eight at a time. The last word has the number of all bytes above those that are
left. -/
def absorbBytes (size : Nat) (s : HashState) : List UInt8 → HashState
  | b₀ :: b₁ :: b₂ :: b₃ :: b₄ :: b₅ :: b₆ :: b₇ :: rest =>
    absorbBytes size (s.absorb (wordOf [b₀, b₁, b₂, b₃, b₄, b₅, b₆, b₇])) rest
  | rest => s.absorb ((UInt64.ofNat size <<< 56) ||| wordOf rest)

/-- The hash that a state comes to. -/
def finish (s : HashState) : UInt64 :=
  let s := round (round (round { s with c := s.c ^^^ 0xff }))
  s.a ^^^ s.b ^^^ s.c ^^^ s.d

end HashState

/-- The hash of a text. -/
def contentHash (text : String) : UInt64 :=
  let bytes := text.toList.flatMap String.utf8EncodeChar ++ [0xff]
  (HashState.start.absorbBytes bytes.length bytes).finish

end HtmlTemplate
