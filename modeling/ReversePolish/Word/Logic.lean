/-
Words that compare, choose and combine truth values or bits.
-/
import ReversePolish.Stack.Shuffle
import ReversePolish.Value.Order
import ReversePolish.Word.Effect
import ReversePolish.Word.Validator

namespace ReversePolish

/-- a test of how the lower of two values stands to the upper -/
inductive OrderTest where
  | greater
  | greaterEqual
  | less
  | lessEqual
deriving DecidableEq

namespace OrderTest

def name : OrderTest → String
  | .greater => ">"
  | .greaterEqual => ">="
  | .less => "<"
  | .lessEqual => "<="

def holds : OrderTest → Ordering → Bool
  | .greater, o => o == .gt
  | .greaterEqual, o => o != .lt
  | .less, o => o == .lt
  | .lessEqual, o => o != .gt

end OrderTest

inductive LogicWord where
  | choose
  | equal
  | different
  | order (test : OrderTest)
  | not
  | and
  | or
  | bitAnd
  | bitOr
  | bitXor
  | complement
deriving DecidableEq

namespace LogicWord

/-- two truth values to one -/
def onBooleans (f : Bool → Bool → Bool) : Effect Unit := do
  let b ← Stack.popBoolean
  let a ← Stack.popBoolean
  Stack.push (.boolean (f a b))

/-- two integers to one -/
def onIntegers (f : Int64 → Int64 → Int64) : Effect Unit := do
  let b ← Stack.popInteger
  let a ← Stack.popInteger
  Stack.push (.integer (f a b))

/-- two values that cannot be ordered stay where they are -/
def compareTop (test : OrderTest) : Effect Unit := do
  let a ← Stack.peek 2
  let b ← Stack.peek 1
  match a.compare? b with
  | none => throw (.noMatch test.name)
  | some o => do
    Stack.dropN 2
    Stack.push (.boolean (test.holds o))

def run : LogicWord → Effect Unit
  | .choose => do
    let flag ← Stack.popBoolean
    let (a, b) ← Effect.popPair
    Stack.push (if flag then a else b)
  | .equal => do
    let (a, b) ← Effect.popPair
    Stack.push (.boolean (a.same b))
  | .different => do
    let (a, b) ← Effect.popPair
    Stack.push (.boolean (!a.same b))
  | .order test => compareTop test
  | .not => do Stack.push (.boolean (!(← Stack.popBoolean)))
  | .and => onBooleans (· && ·)
  | .or => onBooleans (· || ·)
  | .bitAnd => onIntegers (· &&& ·)
  | .bitOr => onIntegers (· ||| ·)
  | .bitXor => onIntegers (· ^^^ ·)
  | .complement => do Stack.push (.integer (~~~(← Stack.popInteger)))

def entries : List (Entry LogicWord) :=
  let booleans := Validator.ofKinds [.boolean, .boolean]
  let integers := Validator.ofKinds [.integer, .integer]
  [⟨"IFTE", .kinds [.kind .boolean, .any, .any], .choose⟩, ⟨"==", .depth 2, .equal⟩, ⟨"!=", .depth 2, .different⟩] ++
    [OrderTest.greater, .greaterEqual, .less, .lessEqual].map (fun test => ⟨test.name, .depth 2, .order test⟩) ++
    [⟨"NOT", .ofKinds [.boolean], .not⟩, ⟨"AND", booleans, .and⟩, ⟨"OR", booleans, .or⟩,
      ⟨"AND", integers, .bitAnd⟩, ⟨"OR", integers, .bitOr⟩, ⟨"XOR", integers, .bitXor⟩,
      ⟨"NEG", .ofKinds [.integer], .complement⟩]

end LogicWord

end ReversePolish
