/-
Histories of chains.

The operations on a chain as data, so that statements can be about every sequence
of them.  A history is run one operation after another whatever their results; a
build stops at the first error.
-/
import Destructure.Chain

namespace Destructure

inductive Operation (α : Type) where
  | append (clause : Clause) (body : Body α)
  | compile
  | attachFallback (fallback : Call α)
  | evaluate (value : Value)
  | evaluateAll (values : List Value)

/-- The report of an operation that answers nothing, with its empty list of answers. -/
def Report.noAnswers {α : Type} (report : Report α Unit) : Report α (List (Call α)) :=
  ⟨report.result.map fun _ => [], report.calls⟩

namespace Chain

variable {α : Type}

/-- Perform an operation.  The report lists the answers, none for the operations that
build. -/
def perform (ch : Chain α) : Operation α → Chain α × Report α (List (Call α))
  | .append c body => let p := ch.append c body; (p.1, Report.noAnswers p.2)
  | .compile => let p := ch.compile; (p.1, Report.noAnswers p.2)
  | .attachFallback f => let p := ch.attachFallback f; (p.1, Report.noAnswers p.2)
  | .evaluate v =>
    match ch.evaluate v with
    | .error e => (ch, ⟨.error e, []⟩)
    | .ok call => (ch, ⟨.ok [call], [call]⟩)
  | .evaluateAll vs => (ch, ch.evaluateAll vs)

/-- The chain after a history. -/
def after (ch : Chain α) : List (Operation α) → Chain α
  | [] => ch
  | op :: ops => (ch.perform op).1.after ops

/-- The reports of a history, in order. -/
def reports (ch : Chain α) : List (Operation α) → List (Report α (List (Call α)))
  | [] => []
  | op :: ops => (ch.perform op).2 :: (ch.perform op).1.reports ops

/-- Every body and fallback that ran during a history, in order. -/
def calls (ch : Chain α) (ops : List (Operation α)) : List (Call α) :=
  (ch.reports ops).flatMap (·.calls)

/-- Append clauses one after another and then attach the fallback, up to the first
error. -/
def build (ch : Chain α) : List (Clause × Body α) → Call α → Except ChainError (Chain α)
  | [], fallback =>
    match ch.attachFallback fallback with
    | (ch, ⟨.ok (), _⟩) => .ok ch
    | (_, ⟨.error e, _⟩) => .error e
  | (c, body) :: rest, fallback =>
    match ch.append c body with
    | (ch, ⟨.ok (), _⟩) => ch.build rest fallback
    | (_, ⟨.error e, _⟩) => .error e

end Chain
end Destructure
