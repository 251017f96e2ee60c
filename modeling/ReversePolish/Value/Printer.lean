/-
The text of values, as it is shown to a reader. Doubles have four places. A body shows its items between `<<` and `>>`,
a loop after the word FOR and its variable.
-/
import ReversePolish.Value.Basic

namespace ReversePolish

mutual

def Value.text : Value → String
  | .boolean b => if b then "<true>" else "<false>"
  | .integer n => Decimal.integer n.toInt
  | .double x => Decimal.fixed 4 x
  | .string s => s
  | .vec3 v => v.text
  | .fraction q => q.text
  | .timecode t => t.text
  | .list items => "[" ++ ", ".intercalate (Value.texts items) ++ "]"
  | .map entries => "\x7b" ++ ", ".intercalate (Value.entryTexts entries) ++ "\x7d"
  | .body b => b.text

def Value.texts : List Value → List String
  | [] => []
  | v :: rest => v.text :: Value.texts rest

def Value.entryTexts : List (String × Value) → List String
  | [] => []
  | (key, v) :: rest => (key ++ ":" ++ v.text) :: Value.entryTexts rest

def Body.text : Body → String
  | ⟨.word, _, items, _⟩ => "<<" ++ Item.texts items ++ " >>"
  | ⟨.loop, ident, items, _⟩ => "FOR " ++ ident ++ " <<" ++ Item.texts items ++ " >>"

/-- each item after a space -/
def Item.texts : List Item → String
  | [] => ""
  | .word w :: rest => " " ++ w ++ Item.texts rest
  | .block b :: rest => " " ++ b.text ++ Item.texts rest

end

end ReversePolish
