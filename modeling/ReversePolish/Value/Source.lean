/-
Source text of values: a line that pushes an equal value when it is evaluated.

Doubles are written as literals, containers as their parts followed by the word that builds them. There is no source for
a text or a map key with a double quote, for the empty map, for a double that is no number, and for bodies. A vector
with unset components is a sum of vectors on single axes.
-/
import ReversePolish.Value.Basic

namespace ReversePolish

/-- a text as a literal, unless it holds the closing quote -/
def quoted? (s : String) : Option String :=
  if s.toList.contains '"' then none else some (".\" " ++ s ++ "\"")

/-- the word that puts a number on one axis -/
def Axis.word : Axis → String
  | .x => "->\x7bx\x7d"
  | .y => "->\x7by\x7d"
  | .z => "->\x7bz\x7d"

/-- one axis after the other, the second and third added to what stands before -/
def Vec3.sumOfAxes : List String → Option String
  | [] => none
  | first :: rest => some (rest.foldl (fun text part => text ++ " " ++ part ++ " +") first)

def Vec3.source? (v : Vec3) : Option String :=
  match Decimal.literal? v.x, Decimal.literal? v.y, Decimal.literal? v.z with
  | some x, some y, some z => some (x ++ " " ++ y ++ " " ++ z ++ " ->VEC3")
  | x, y, z =>
    Vec3.sumOfAxes ([(x, Axis.x), (y, Axis.y), (z, Axis.z)].filterMap fun (part, axis) =>
      part.map fun p => p ++ " " ++ axis.word)

def Fraction.source (q : Fraction) : String :=
  Decimal.integer q.num.toInt ++ " " ++ Decimal.integer q.den.toInt ++ " ->FRAC"

def Timecode.source (t : Timecode) : String :=
  t.rate.source ++ " " ++ Decimal.integer t.toFrames.toInt ++ " ->TC"

mutual

def Value.source? : Value → Option String
  | .boolean b => some (if b then "<true>" else "<false>")
  | .integer n => some (Decimal.integer n.toInt)
  | .double x => Decimal.literal? x
  | .string s => quoted? s
  | .vec3 v => v.source?
  | .fraction q => some q.source
  | .timecode t => some t.source
  | .list items =>
    (Value.itemSources? items).map fun parts =>
      " ".intercalate (parts ++ [Decimal.integer items.length ++ " ->ARRAY"])
  | .map entries =>
    match Value.entrySources? "->OBJECT" entries with
    | none => none
    | some [] => none
    | some parts => some (" ".intercalate parts)
  | .body _ => none

def Value.itemSources? : List Value → Option (List String)
  | [] => some []
  | v :: rest =>
    match v.source?, Value.itemSources? rest with
    | some text, some texts => some (text :: texts)
    | _, _ => none

/-- the first entry makes a map, every other is added to it -/
def Value.entrySources? (joiner : String) : List (String × Value) → Option (List String)
  | [] => some []
  | (key, v) :: rest =>
    match quoted? key, v.source?, Value.entrySources? "+" rest with
    | some name, some text, some texts => some ((text ++ " " ++ name ++ " " ++ joiner) :: texts)
    | _, _, _ => none

end

end ReversePolish
