/-
Words on maps and lists. Taking a container apart pushes its parts one after the other and then their number; a map
gives each value followed by its key, in the order of the keys.
-/
import ReversePolish.Word.Effect
import ReversePolish.Word.Validator

namespace ReversePolish

inductive MapWord where
  | make
  /-- a value, a key, and a map on top -/
  | insertBelow
  /-- a map, a value, and a key on top -/
  | insertAbove
  | parts
deriving DecidableEq

namespace MapWord

def run : MapWord → Effect Unit
  | .make => do
    let key ← Stack.popString
    let v ← Stack.pop
    Stack.push (.map [(key, v)])
  | .insertBelow => do
    let entries ← Stack.popMap
    let key ← Stack.popString
    let v ← Stack.pop
    Stack.push (.map (Keyed.insert key v entries))
  | .insertAbove => do
    let key ← Stack.popString
    let v ← Stack.pop
    let entries ← Stack.popMap
    Stack.push (.map (Keyed.insert key v entries))
  | .parts => do
    let entries ← Stack.popMap
    Effect.pushAll (entries.flatMap fun (key, v) => [v, .string key])
    Stack.push (Effect.count entries.length)

def entries : List (Entry MapWord) :=
  [⟨"->OBJECT", .kinds [.kind .string, .any], .make⟩,
    ⟨"+", .kinds [.kind .map, .kind .string, .any], .insertBelow⟩,
    ⟨"+", .kinds [.kind .string, .any, .kind .map], .insertAbove⟩,
    ⟨"OBJECT->", .ofKinds [.map], .parts⟩, ⟨"OBJ->", .ofKinds [.map], .parts⟩]

end MapWord

inductive ListWord where
  | make
  | parts
  /-- a list and a value above it -/
  | append
  /-- a value and a list above it -/
  | prepend
deriving DecidableEq

namespace ListWord

def run : ListWord → Effect Unit
  | .make => do
    let (_, count) ← Effect.popCount
    Stack.push (.list (← Stack.popN count))
  | .parts => do
    let items ← Stack.popList
    Effect.pushAll items
    Stack.push (Effect.count items.length)
  | .append => do
    let v ← Stack.pop
    let items ← Stack.popList
    Stack.push (.list (items ++ [v]))
  | .prepend => do
    let items ← Stack.popList
    let v ← Stack.pop
    Stack.push (.list (v :: items))

def entries : List (Entry ListWord) :=
  [⟨"->ARRAY", .countOnTop, .make⟩, ⟨"ARRAY->", .ofKinds [.list], .parts⟩, ⟨"OBJ->", .ofKinds [.list], .parts⟩,
    ⟨"+", .kinds [.any, .kind .list], .append⟩, ⟨"+", .kinds [.kind .list, .any], .prepend⟩]

end ListWord

end ReversePolish
