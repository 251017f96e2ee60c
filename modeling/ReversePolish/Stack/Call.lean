/-
The operations of the stack as data: a call names an operation with its arguments, and `Call.run` performs it. A run of
calls goes on after a failing one, with whatever stack that call left.
-/
import ReversePolish.Stack.Shuffle

namespace ReversePolish.Stack

inductive Call where
  | push (v : Value)
  | pop
  | popN (n : Nat)
  | popKind (kind : Kind)
  | popAsDouble
  | popAsBoolean
  | popAsString
  | top
  | peek (n : Nat)
  | peekKind (kind : Kind) (n : Nat)
  | peekAsDouble (n : Nat)
  | peekAsBoolean (n : Nat)
  | peekAsString (n : Nat)
  | replace (n : Nat) (v : Value)
  | swap
  | drop
  | dup
  | copySecond
  | rollUp
  | rollDown
  | rotateUp
  | rotateDown
  | reverse
  | clear
  | dropN (n : Nat)
  | dupN (n : Nat)
  | pick (n : Nat)
  | nipN (n : Nat)
  | rollUpN (n : Nat)
  | rollDownN (n : Nat)
  | tuckN (n : Nat)
  | reverseN (n : Nat)

/-- what a call gives back -/
inductive Reply where
  | done
  | value (v : Value)
  | values (vs : List Value)
  | double (x : Float)
  | boolean (b : Bool)
  | string (s : String)

def Call.run : Call → StackM Reply
  | .push v => do Stack.push v; return .done
  | .pop => return .value (← Stack.pop)
  | .popN n => return .values (← Stack.popN n)
  | .popKind kind => return .value (← Stack.popKind kind)
  | .popAsDouble => return .double (← Stack.popAsDouble)
  | .popAsBoolean => return .boolean (← Stack.popAsBoolean)
  | .popAsString => return .string (← Stack.popAsString)
  | .top => return .value (← Stack.top)
  | .peek n => return .value (← Stack.peek n)
  | .peekKind kind n => return .value (← Stack.peekKind kind n)
  | .peekAsDouble n => return .double (← Stack.peekAsDouble n)
  | .peekAsBoolean n => return .boolean (← Stack.peekAsBoolean n)
  | .peekAsString n => return .string (← Stack.peekAsString n)
  | .replace n v => do Stack.replace n v; return .done
  | .swap => do Stack.swap; return .done
  | .drop => do Stack.drop; return .done
  | .dup => do Stack.dup; return .done
  | .copySecond => do Stack.copySecond; return .done
  | .rollUp => do Stack.rollUp; return .done
  | .rollDown => do Stack.rollDown; return .done
  | .rotateUp => do Stack.rotateUp; return .done
  | .rotateDown => do Stack.rotateDown; return .done
  | .reverse => do Stack.reverse; return .done
  | .clear => do Stack.clear; return .done
  | .dropN n => do Stack.dropN n; return .done
  | .dupN n => do Stack.dupN n; return .done
  | .pick n => do Stack.pick n; return .done
  | .nipN n => return .value (← Stack.nipN n)
  | .rollUpN n => do Stack.rollUpN n; return .done
  | .rollDownN n => do Stack.rollDownN n; return .done
  | .tuckN n => do Stack.tuckN n; return .done
  | .reverseN n => do Stack.reverseN n; return .done

/-- the stack that a call leaves, whether it succeeds or fails -/
def Call.after (c : Call) (s : Stack) : Stack :=
  match c.run s with
  | .ok _ s' => s'
  | .error _ s' => s'

/-- the stack that a sequence of calls leaves -/
def runCalls (calls : List Call) (s : Stack) : Stack := calls.foldl (fun s c => c.after s) s

end ReversePolish.Stack
