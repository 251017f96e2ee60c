/-
Values of the data stack, and the bodies of captured words.

A body is what a definition or a counted loop captures: a name, the items to run and values bound from the start. Items
are words, kept as text, and nested bodies. Bodies are values too, so values, bodies and items are one mutual family.
Maps and the values a body binds are tables in increasing order of their names.
-/
import ReversePolish.Keyed
import ReversePolish.Timecode
import ReversePolish.Vec3

namespace ReversePolish

/-- the kinds of values -/
inductive Kind where
  | boolean
  | integer
  | double
  | string
  | vec3
  | fraction
  | timecode
  | list
  | map
  | body
deriving DecidableEq

/-- the name a kind is known by in messages -/
def Kind.name : Kind → String
  | .boolean => "boolean"
  | .integer => "integer"
  | .double => "double"
  | .string => "string"
  | .vec3 => "vec3"
  | .fraction => "fraction"
  | .timecode => "timecode"
  | .list => "array"
  | .map => "object"
  | .body => "progn"

/-- a named word runs its items once, a loop once for each count -/
inductive BodyKind where
  | word
  | loop
deriving DecidableEq

mutual

inductive Value where
  | boolean (b : Bool)
  | integer (n : Int64)
  | double (x : Float)
  | string (s : String)
  | vec3 (v : Vec3)
  | fraction (q : Fraction)
  | timecode (t : Timecode)
  | list (items : List Value)
  | map (entries : List (String × Value))
  | body (b : Body)

/-- `ident` names the word or the loop variable and is empty until it is captured -/
structure Body where
  kind : BodyKind
  ident : String
  items : List Item
  locals : List (String × Value)

inductive Item where
  | word (text : String)
  | block (body : Body)

end

instance : Inhabited Value := ⟨.boolean false⟩

namespace Body

/-- a body of which nothing is captured yet -/
def empty (kind : BodyKind) : Body := ⟨kind, "", [], []⟩

/-- does the body give the name a meaning, as its own name or as a value it binds? -/
def binds (b : Body) (name : String) : Bool := b.ident == name || Keyed.contains name b.locals

def push (b : Body) (item : Item) : Body := { b with items := b.items ++ [item] }

end Body

namespace Value

def kind : Value → Kind
  | .boolean _ => .boolean
  | .integer _ => .integer
  | .double _ => .double
  | .string _ => .string
  | .vec3 _ => .vec3
  | .fraction _ => .fraction
  | .timecode _ => .timecode
  | .list _ => .list
  | .map _ => .map
  | .body _ => .body

/-- integers and doubles as doubles -/
def number? : Value → Option Float
  | .integer n => some (Double.ofInt64 n)
  | .double x => some x
  | _ => none

def isNumber (v : Value) : Bool := v.number?.isSome

/-- the number, or NaN -/
def asDouble (v : Value) : Float := v.number?.getD Double.nan

/-- numbers other than zero and texts other than the empty one are true; NaN is no zero -/
def asBoolean : Value → Bool
  | .boolean b => b
  | .integer n => n != 0
  | .double x => !(x == 0.0)
  | .string s => !s.isEmpty
  | _ => false

end Value

end ReversePolish
