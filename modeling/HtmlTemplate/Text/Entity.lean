/-! # Character entities

The five characters that markup gives a meaning are written as named entities. `escapeMarkup` stands for
the function of the quick-xml library that does so, and follows its documented behaviour.
-/

namespace HtmlTemplate

/-- The entity of a character that markup gives a meaning. -/
def entity? : Char → Option String
  | '<' => some "&lt;"
  | '>' => some "&gt;"
  | '&' => some "&amp;"
  | '\'' => some "&apos;"
  | '"' => some "&quot;"
  | _ => none

/-- Text as markup that shows it. -/
def escapeMarkup (text : String) : String :=
  String.ofList (text.toList.flatMap fun c => ((entity? c).map String.toList).getD [c])

/-- Static text inside a double-quoted attribute, with the quote written as an entity. -/
def escapeQuotes (text : String) : String :=
  String.ofList (text.toList.flatMap fun c => if c = '"' then "&quot;".toList else [c])

end HtmlTemplate
