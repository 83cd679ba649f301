import Dependence.Text.Quoted
import Dependence.Value.Basic

/-!
# Values as text

`Value.quoted` spells a value so that its kind can be seen: text in quotes, items in brackets.
`Value.plain` is the same, except that text stands as it is.
-/

namespace Dependence.Value

/-- Several words, separated by commas. -/
def commaSeparated (words : List String) : String := ", ".intercalate words

mutual

/-- The value with its kind visible. -/
def quoted : Value → String
  | .none => "None"
  | .number n => n.text
  | .text s => Text.quoted s
  | .list items => "[" ++ commaSeparated (quotedItems items) ++ "]"
  | .tuple [item] => "(" ++ item.quoted ++ ",)"
  | .tuple items => "(" ++ commaSeparated (quotedItems items) ++ ")"
  | .dict entries => "\x7b" ++ commaSeparated (quotedEntries entries) ++ "\x7d"

/-- Each of several values as `quoted` shows it. -/
def quotedItems : List Value → List String
  | [] => []
  | v :: rest => v.quoted :: quotedItems rest

/-- Each entry of a dictionary, key before value. -/
def quotedEntries : List (String × Value) → List String
  | [] => []
  | (k, v) :: rest => (Text.quoted k ++ ": " ++ v.quoted) :: quotedEntries rest

end

/-- The value as it stands in a sentence: a text as it is, any other value as `quoted` shows it. -/
def plain : Value → String
  | .text s => s
  | v => v.quoted

end Dependence.Value
