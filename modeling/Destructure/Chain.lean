/-
Chains: clauses tried in order, and a fallback.

A chain is built up by appending clauses and is sealed by attaching its fallback;
only then does it answer.  A lazy chain defers compiling until it is asked to, or
until it is sealed, and can then be evaluated on any number of values.  An eager
chain is bound to one value: it compiles and tries each clause as it is appended
and keeps the first answer.

A clause that fails poisons the chain.  From then on the chain can only repeat the
error, so no chain is ever sealed with fewer clauses than were appended.
-/
import Destructure.Clause.Compile

namespace Destructure

/-! ## Modes, phases and errors -/

inductive ModeKind where
  | lazy
  | eager
deriving DecidableEq, Repr

def ModeKind.text : ModeKind → String
  | lazy => "lazy"
  | eager => "eager"

/-- The operations that are available in one mode only. -/
inductive Query where
  | evaluate
  | evaluateAll
  | result
deriving DecidableEq, Repr

def Query.text : Query → String
  | evaluate => "evaluate"
  | evaluateAll => "evaluate_all"
  | result => "result"

inductive ChainError where
  | clause (error : ClauseError)
  | extract (error : ExtractError)
  | duplicateFallback
  | invalidMode (query : Query) (mode : ModeKind)
  /-- Nothing can be answered before a fallback is attached. -/
  | noFallback
  /-- Nothing can be appended after the fallback. -/
  | closed
deriving DecidableEq, Repr

def ChainError.message : ChainError → String
  | clause error => error.message
  | extract error => error.message
  | duplicateFallback => "a fallback is already attached"
  | invalidMode query mode => s!"`{query.text}` is not available on a {mode.text} chain"
  | noFallback => "no fallback attached; attach one before evaluating"
  | closed => "cannot append a clause after the fallback was attached"

inductive Mode (α : Type) where
  /-- The clauses waiting to be compiled. -/
  | lazy (pending : List (Clause × Body α))
  /-- The bound value and the first answer. -/
  | eager (value : Value) (result : Option (Call α))

def Mode.kind {α : Type} : Mode α → ModeKind
  | lazy _ => .lazy
  | eager _ _ => .eager

inductive Phase (α : Type) where
  | building
  /-- A clause failed with this error. -/
  | poisoned (error : ChainError)
  /-- The fallback is attached.  It takes no arguments, so it is given by the call
  that running it amounts to. -/
  | ready (fallback : Call α)

structure Chain (α : Type) where
  registry : Registry
  /-- The limit on the depth of shapes. -/
  limit : Nat
  mode : Mode α
  phase : Phase α
  /-- The compiled clauses, in the order they were appended. -/
  arms : List (Arm α)
  /-- The number of clauses appended, compiled or not. -/
  size : Nat

/-- The result of an operation and the bodies and fallbacks that ran during it. -/
structure Report (α β : Type) where
  result : Except ChainError β
  calls : List (Call α)

namespace Chain

variable {α : Type}

/-- An unbound chain, which can be evaluated any number of times. -/
def unbound (r : Registry) (limit : Nat) : Chain α :=
  ⟨r, limit, .lazy [], .building, [], 0⟩

/-- A chain bound to one value. -/
def bound (r : Registry) (limit : Nat) (v : Value) : Chain α :=
  ⟨r, limit, .eager v none, .building, [], 0⟩

def isReady (ch : Chain α) : Bool :=
  match ch.phase with
  | .ready _ => true
  | _ => false

/-! ## Building -/

/-- The operation fails and leaves the chain as it was. -/
def refuse (ch : Chain α) (e : ChainError) : Chain α × Report α Unit := (ch, ⟨.error e, []⟩)

/-- A clause failed. -/
def poison (ch : Chain α) (e : ChainError) : Chain α × Report α Unit :=
  ({ ch with phase := .poisoned e }, ⟨.error e, []⟩)

/-- The operation succeeds with this chain, after these calls. -/
def accept (ch : Chain α) (calls : List (Call α)) : Chain α × Report α Unit :=
  (ch, ⟨.ok (), calls⟩)

/-- Append a compiled clause to an eager chain, and try it on the bound value unless
there is an answer already. -/
def tryArm (ch : Chain α) (v : Value) (result : Option (Call α)) (arm : Arm α) :
    Chain α × Report α Unit :=
  if result.isNone && arm.accepts v then
    match arm.extract v with
    | .error e => ch.poison (.extract e)
    | .ok call => accept { ch with arms := ch.arms ++ [arm], mode := .eager v (some call) } [call]
  else
    accept { ch with arms := ch.arms ++ [arm] } []

/-- Append a clause with its body.  A lazy chain puts it off; an eager chain compiles
and tries it at once.  The clause counts as appended even when it fails. -/
def append (ch : Chain α) (c : Clause) (body : Body α) : Chain α × Report α Unit :=
  match ch.phase with
  | .poisoned e => ch.refuse e
  | .ready _ => ch.refuse .closed
  | .building =>
    let ch := { ch with size := ch.size + 1 }
    match ch.mode with
    | .lazy pending => accept { ch with mode := .lazy (pending ++ [(c, body)]) } []
    | .eager v result =>
      match c.compile ch.registry ch.limit body with
      | .error e => ch.poison (.clause e)
      | .ok arm => ch.tryArm v result arm

/-- Compile clauses in order, up to the first that fails. -/
def compileAll (r : Registry) (limit : Nat) :
    List (Clause × Body α) → Except ClauseError (List (Arm α))
  | [] => .ok []
  | (c, body) :: rest =>
    match c.compile r limit body with
    | .error e => .error e
    | .ok arm => (compileAll r limit rest).map (arm :: ·)

/-- Compile the clauses that a lazy chain has put off, all of them or none. -/
def compile (ch : Chain α) : Chain α × Report α Unit :=
  match ch.phase with
  | .poisoned e => ch.refuse e
  | _ =>
    match ch.mode with
    | .eager _ _ => ch.accept []
    | .lazy pending =>
      match compileAll ch.registry ch.limit pending with
      | .error e => { ch with mode := .lazy [] }.poison (.clause e)
      | .ok arms => accept { ch with arms := ch.arms ++ arms, mode := .lazy [] } []

/-- Seal a chain whose clauses are compiled.  An eager chain without an answer takes
the fallback's. -/
def attach (ch : Chain α) (fallback : Call α) : Chain α × Report α Unit :=
  match ch.mode with
  | .eager v none =>
    accept { ch with phase := .ready fallback, mode := .eager v (some fallback) } [fallback]
  | _ => accept { ch with phase := .ready fallback } []

/-- Attach the fallback, after compiling what is still put off. -/
def attachFallback (ch : Chain α) (fallback : Call α) : Chain α × Report α Unit :=
  match ch.phase with
  | .ready _ => ch.refuse .duplicateFallback
  | _ =>
    match ch.compile with
    | (ch, ⟨.error e, calls⟩) => (ch, ⟨.error e, calls⟩)
    | (ch, ⟨.ok (), _⟩) => ch.attach fallback

/-! ## Answering -/

/-- The answer of the first clause that accepts the value, and of the fallback when
none does.  A clause that accepts the value and cannot extract its arguments is not
passed over. -/
def answer (arms : List (Arm α)) (fallback : Call α) (v : Value) : Except ChainError (Call α) :=
  match arms.find? (·.accepts v) with
  | none => .ok fallback
  | some arm =>
    match arm.extract v with
    | .error e => .error (.extract e)
    | .ok call => .ok call

/-- Evaluate a sealed lazy chain on a value.  The call in the answer is the only one
made. -/
def evaluate (ch : Chain α) (v : Value) : Except ChainError (Call α) :=
  match ch.mode, ch.phase with
  | .eager _ _, _ => .error (.invalidMode .evaluate .eager)
  | .lazy _, .ready fallback => answer ch.arms fallback v
  | .lazy _, _ => .error .noFallback

/-- Answer values one after another, up to the first error. -/
def answerAll (arms : List (Arm α)) (fallback : Call α) :
    List Value → Report α (List (Call α))
  | [] => ⟨.ok [], []⟩
  | v :: vs =>
    match answer arms fallback v with
    | .error e => ⟨.error e, []⟩
    | .ok call =>
      let rest := answerAll arms fallback vs
      ⟨rest.result.map (call :: ·), call :: rest.calls⟩

/-- Evaluate a sealed lazy chain on many values; the answers are in the order of the
values. -/
def evaluateAll (ch : Chain α) (vs : List Value) : Report α (List (Call α)) :=
  match ch.mode, ch.phase with
  | .eager _ _, _ => ⟨.error (.invalidMode .evaluateAll .eager), []⟩
  | .lazy _, .ready fallback => answerAll ch.arms fallback vs
  | .lazy _, _ => ⟨.error .noFallback, []⟩

/-- The answer of a sealed eager chain. -/
def result (ch : Chain α) : Except ChainError (Call α) :=
  match ch.mode, ch.phase with
  | .lazy _, _ => .error (.invalidMode .result .lazy)
  | .eager _ (some call), .ready _ => .ok call
  | .eager _ _, _ => .error .noFallback

end Chain
end Destructure
