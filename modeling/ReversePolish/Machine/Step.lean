/-
What single words do to the machine.

A word that runs a body or evaluates a line asks for it: the steps below take a function that answers such requests. How
deep requests may nest is decided where that function is made.
-/
import ReversePolish.Machine.State
import ReversePolish.Token.Literal

namespace ReversePolish

/-- what a word may ask of the machine -/
inductive Request where
  | body (b : Body)
  | line (text : List Char)

abbrev Answer := Request → MachineM Unit

/-- the word that opens a text; in a body the text is the item after it -/
def stringWord : String := ".\""

/-! ## Structural words outside a compilation -/

def CoreWord.run : CoreWord → MachineM Unit
  | .define => modify (·.mapCompilation (·.start .word))
  | .comment => Machine.skipComment
  | .string => do Machine.push (.string (← Machine.takeString))
  | .loop => modify (·.mapCompilation (·.start .loop))
  | .trace => do
    let on ← Stack.popBoolean
    modify ({ · with tracing := on })
  | .boolean b => Machine.push (.boolean b)
  | .strayEnd => throw .strayEnd
  | .strayNext => throw .strayNext

/-! ## Random numbers and the display of the stack -/

/-- advances the generator -/
def nextRandom : MachineM Int64 := modifyGet fun m =>
  let state := Random.advance m.seed
  (state, { m with seed := state })

def RandomWord.run (context : Context) (w : RandomWord) : MachineM Unit :=
  match context, w with
  | .extension .generator, .integer => do Machine.push (.integer (← nextRandom))
  | .extension .generator, .unit => do Machine.push (.double (Random.unit (← nextRandom)))
  | .extension .generator, .seed => do
    let seed ← Stack.popInteger
    modify ({ · with seed := Random.reseed seed })
  | _, _ => throw .noGenerator

/-- the events that show a stack -/
def Stack.events (s : Stack) : List Event :=
  .stackDepth s.depth :: s.items.mapIdx fun i v => .stackItem (i + 1) v.kind v.text

def showStack : MachineM Unit := modify fun m => m.stack.events.foldl Machine.record m

/-! ## Words of a host -/

def HostStep.run (answer : Answer) (context : Context) : HostStep → MachineM Unit
  | .push v => Machine.push v
  | .drop => do let _ ← Stack.pop
  | .rest => do
    let rest ← modifyGet fun m => (m.input, { m with input := [] })
    Machine.push (.string (String.ofList rest))
  | .word => do Machine.push (.string (← Machine.nextWord))
  | .lookup name => do Machine.push (((← get).findLocal? name).getD (.string "<none>"))
  | .eval line => answer (.line line.toList)
  | .call =>
    match context.body? with
    | some b => answer (.body b)
    | none => throw (.raised .eval "no body")
  | .context => Machine.push (.string context.text)
  | .extension => Machine.push (.string (context.extensionText?.getD "<none>"))
  | .extensionIsInteger => Machine.push (.boolean false)
  | .fail fault => throw fault

def runScript (answer : Answer) (context : Context) : List HostStep → MachineM Unit
  | [] => pure ()
  | step :: rest => do
    step.run answer context
    runScript answer context rest

/-! ## Words outside a compilation -/

def Definition.run (answer : Answer) (d : Definition) : MachineM Unit :=
  match d.action with
  | .core w => w.run
  | .operator o => MachineM.ofEffect o.run
  | .random w => w.run d.context
  | .showStack => showStack
  | .compiled =>
    match d.context.body? with
    | some b => answer (.body b)
    | none => throw .noBody
  | .script steps => runScript answer d.context steps

/-- pushes a number, or runs the first definition of the word that accepts the stack -/
def runWord (answer : Answer) (word : String) : MachineM Unit := do
  match Token.literal word.toList with
  | .number v => Machine.push v
  | .malformed => throw (.malformedNumber word)
  | .name => do
    let m ← get
    match m.dictionary.lookup word m.stack with
    | some d => d.run answer
    | none => throw (if m.dictionary.contains word then .noMatch word else .notFound word)

/-! ## Words inside a compilation -/

/-- the words that act while a body is under construction -/
inductive CompileWord where
  | endDefinition
  | comment
  | string
  | loop
  | next
deriving DecidableEq

namespace CompileWord

def ofName? (name : String) : Option CompileWord :=
  if name = ";" then some .endDefinition
  else if name = "(" then some .comment
  else if name = stringWord then some .string
  else if name = "FOR" then some .loop
  else if name = "NEXT" then some .next
  else none

/-- installs the finished body as a word -/
def finishDefinition : MachineM Unit := fun m =>
  match m.compilation.close with
  | some (b, compilation) =>
    if b.kind = .word then
      let m := m.record (.defined b.ident b.text)
      .ok () { m with compilation, dictionary := m.dictionary.install b }
    else .error .unmatchedEnd m
  | none => .error .unmatchedEnd m

/-- puts the finished loop into the body around it, or runs it if there is none -/
def finishLoop (answer : Answer) : MachineM Unit := fun m =>
  match m.compilation.close with
  | some (b, compilation) =>
    if b.kind = .loop then
      if compilation.isActive then .ok () { m with compilation := compilation.append (.block b) }
      else answer (.body b) { m with compilation }
    else .error .unmatchedNext m
  | none => .error .unmatchedNext m

def run (answer : Answer) : CompileWord → MachineM Unit
  | .endDefinition => finishDefinition
  | .comment => Machine.skipComment
  | .string => do
    let text ← Machine.takeString
    modify (·.mapCompilation fun c => (c.append (.word stringWord)).append (.word text))
  | .loop => modify (·.mapCompilation (·.start .loop))
  | .next => finishLoop answer

end CompileWord

/-- the name of the innermost body; numbers and the words that act while compiling cannot be names -/
def captureIdent (word : String) : MachineM Unit :=
  if Token.isNumeric word.toList || (CompileWord.ofName? word).isSome then throw (.badName word)
  else modify (·.mapCompilation (·.setIdent word))

/-- is the word a number, a name that an open body gives a meaning, or in the dictionary? -/
def checkKnown (word : String) : MachineM Unit := do
  match Token.literal word.toList with
  | .number _ => pure ()
  | .malformed => throw (.malformedNumber word)
  | .name => do
    let m ← get
    if m.compilation.isLocal word || m.dictionary.contains word then pure () else throw (.notFound word)

/-- captures a word into the innermost body, or runs it if it acts while compiling -/
def compileWord (answer : Answer) (word : String) : MachineM Unit := do
  if (← get).compilation.needsIdent then captureIdent word
  else
    match CompileWord.ofName? word with
    | some w => w.run answer
    | none => do
      checkKnown word
      modify (·.mapCompilation (·.append (.word word)))

/-! ## A word and its outcome -/

/-- The machine after a word. A fault gives up all bodies under construction; the status quotes the rest of the line
before a parse error drops it. -/
def Machine.settle (word : String) (fault : Option Fault) (m : Machine) : Machine :=
  let m := if fault.isSome then m.mapCompilation Compilation.unwind else m
  let m := { m with status := statusLine word m.input fault }
  let m := m.traced (.done m.status)
  if fault.any (·.kind == .parse) then { m with input := [] } else m

/-- the result of a word, settled -/
def settled (word : String) (r : EStateM.Result Fault Machine Unit) : EStateM.Result Fault Machine Unit :=
  r.mapState fun fault m => m.settle word fault

/-- evaluates a word; the empty word does nothing -/
def evalWord (answer : Answer) (word : String) : MachineM Unit := fun m =>
  if word.isEmpty then .ok () m
  else
    let m := m.traced (.word word (String.ofList m.input))
    settled word ((if m.isCompiling then compileWord answer word else runWord answer word) m)

end ReversePolish
