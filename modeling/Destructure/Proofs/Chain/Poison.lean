/-
Failing operations.

An operation fails for one of two kinds of reasons.  A clause that fails poisons the
chain: nothing gets through any more, and every further attempt to build repeats the
error.  An operation that is not available, in the mode or the phase that the chain is
in, leaves no trace.

Poisoning takes nothing back.  What was compiled or answered before stays in the chain,
although it can no longer be had from it, and a compile that fails midway adds none of
the clauses that it got through.
-/
import Destructure.Proofs.Chain.Effect

namespace Destructure

/-- Whether the error is that of a clause, and not of an operation that is not
available. -/
def ChainError.ofClause : ChainError → Bool
  | clause _ => true
  | extract _ => true
  | _ => false

/-- Whether the operation compiles what is put off. -/
def Operation.compiles {α : Type} : Operation α → Bool
  | .compile => true
  | .attachFallback _ => true
  | _ => false

/-- Why a chain that is not sealed does not answer. -/
def ModeKind.unanswered : ModeKind → Query → ChainError
  | lazy, .result => .invalidMode .result .lazy
  | lazy, _ => .noFallback
  | eager, .result => .noFallback
  | eager, query => .invalidMode query .eager

namespace Chain

variable {α : Type} {ch : Chain α} {e : ChainError}

/-- The chain can only repeat the error. -/
structure Stuck (ch : Chain α) (e : ChainError) : Prop where
  notReady : ch.isReady = false
  unchanged : ∀ later, ch.after later = ch
  repeats : ∀ later op, op.builds = true → ((ch.after later).perform op).2 = ⟨.error e, []⟩
  evaluate : ∀ v, ch.evaluate v = .error (ch.mode.kind.unanswered .evaluate)
  evaluateAll : ∀ vs, ch.evaluateAll vs = ⟨.error (ch.mode.kind.unanswered .evaluateAll), []⟩
  result : ch.result = .error (ch.mode.kind.unanswered .result)

/-! ## Poisoned chains -/

theorem settled_of_poisoned (h : ch.phase = .poisoned e) : ch.Settled := by
  intro fallback pending hphase
  rw [h] at hphase
  cases hphase

theorem perform_of_poisoned (h : ch.phase = .poisoned e) (op : Operation α) :
    (ch.perform op).1 = ch ∧ (op.builds = true → (ch.perform op).2 = ⟨.error e, []⟩) := by
  have heffect := effect_perform (settled_of_poisoned h) op
  generalize (ch.perform op).1 = ch' at heffect ⊢
  generalize (ch.perform op).2 = report at heffect ⊢
  cases heffect with
  | asked asks => exact ⟨rfl, fun builds => by simp [asks] at builds⟩
  | repeated _ phase =>
    have hsame : Phase.poisoned e = Phase.poisoned (α := α) _ := h.symm.trans phase
    cases hsame
    exact ⟨rfl, fun _ => rfl⟩
  | idle phase _ => exact absurd h (phase e)
  | _ => simp_all

theorem after_of_poisoned (h : ch.phase = .poisoned e) (later : List (Operation α)) :
    ch.after later = ch := by
  induction later with
  | nil => rfl
  | cons op later ih => rw [after, (perform_of_poisoned h op).1, ih]

theorem stuck_of_poisoned (h : ch.phase = .poisoned e) : ch.Stuck e := by
  have hafter : ∀ later, ch.after later = ch := after_of_poisoned h
  refine ⟨?notReady, hafter, fun later op => ?repeats, ?evaluate, ?evaluateAll, ?result⟩
  case repeats =>
    rw [hafter later]
    exact (perform_of_poisoned h op).2
  all_goals obtain ⟨r, limit, mode, phase, arms, size⟩ := ch
  all_goals cases h
  case notReady => rfl
  case evaluate => cases mode <;> exact fun v => rfl
  case evaluateAll => cases mode <;> exact fun vs => rfl
  case result =>
    cases mode with
    | lazy pending => rfl
    | eager v result => cases result <;> rfl

/-! ## One failing operation -/

section Step

variable {op : Operation α} {ch' : Chain α} {report : Report α (List (Call α))}

/-- A clause that fails poisons the chain and takes nothing from it. -/
theorem Effect.poisons (h : Effect ch op ch' report) (he : report.result = .error e)
    (hbuilds : op.builds = true) (hclause : e.ofClause = true) :
    ch'.phase = .poisoned e ∧ ch.isReady = false ∧ ch'.arms = ch.arms ∧
      ch'.frozen? = ch.frozen? := by
  cases h with
  | asked asks => simp [asks] at hbuilds
  | repeated _ phase =>
    cases he
    exact ⟨phase, by simp [isReady, phase], rfl, rfl⟩
  | closed _ | duplicate _ =>
    cases he
    cases hclause
  | uncompiled phase _ _ | unextracted phase _ _ _ _ =>
    cases he
    exact ⟨rfl, by simp [isReady, phase], rfl, rfl⟩
  | rejected _ phase mode _ =>
    cases he
    exact ⟨rfl, by simp [isReady, phase], rfl, by simp [frozen?, mode]⟩
  | _ => cases he

/-- Every other failure leaves the chain as it was. -/
theorem Effect.unchanged (h : Effect ch op ch' report) (he : report.result = .error e)
    (hother : ¬ (op.builds = true ∧ e.ofClause = true)) : ch' = ch := by
  cases h with
  | asked _ | repeated _ _ | closed _ | duplicate _ => rfl
  | uncompiled _ _ _ | unextracted _ _ _ _ _ =>
    cases he
    exact absurd ⟨rfl, rfl⟩ hother
  | rejected builds _ _ _ =>
    cases he
    exact absurd ⟨builds, rfl⟩ hother
  | _ => cases he

/-- A lazy chain compiles nothing before it is asked to. -/
theorem Effect.arms_eq (h : Effect ch op ch' report) (hlazy : ch.mode.kind = .lazy)
    (hop : op.compiles = false) : ch'.arms = ch.arms := by
  cases h with
  | hit _ mode _ _ _ => simp [mode, Mode.kind] at hlazy
  | passed _ mode _ _ => simp [mode, Mode.kind] at hlazy
  | committed _ _ _ | sealedLazy _ _ _ => cases hop
  | _ => rfl

end Step

theorem arms_after_eq (hch : ch.Settled) (hlazy : ch.mode.kind = .lazy)
    {recent : List (Operation α)} (hrecent : ∀ op ∈ recent, op.compiles = false) :
    (ch.after recent).arms = ch.arms := by
  induction recent generalizing ch with
  | nil => rfl
  | cons op recent ih =>
    have heffect := effect_perform hch op
    have hkind := heffect.kept.2.2.trans hlazy
    rw [after, ih (heffect.settled hch) hkind fun op' hop' => hrecent op' (.tail _ hop')]
    exact heffect.arms_eq hlazy (hrecent op List.mem_cons_self)

/-- After any history, an operation that fails because of a clause poisons the chain for
good, and one that fails otherwise leaves it as it was. -/
theorem poisoned_or_unchanged (r : Registry) (limit : Nat) (bound? : Option Value)
    (ops : List (Operation α)) (op : Operation α) (e : ChainError)
    (h : (((start r limit bound?).after ops).perform op).2.result = .error e) :
    let fresh : Chain α := start r limit bound?
    let before := fresh.after ops
    let now := (before.perform op).1
    (op.builds = true ∧ e.ofClause = true →
      before.isReady = false ∧ now.Stuck e ∧ now.mode.kind = fresh.mode.kind ∧
        now.arms = before.arms ∧ now.frozen? = before.frozen? ∧
        (bound? = none → ∀ done recent, ops = done ++ recent →
          (∀ op' ∈ recent, op'.compiles = false) → now.arms = (fresh.after done).arms)) ∧
      (¬ (op.builds = true ∧ e.ofClause = true) → now = before) := by
  intro fresh before now
  have hfresh : fresh.Settled := settled_start r limit bound?
  have heffect : Effect before op now (before.perform op).2 :=
    effect_perform (settled_after hfresh ops) op
  refine ⟨fun ⟨hbuilds, hclause⟩ => ?_, heffect.unchanged h⟩
  obtain ⟨hphase, hready, harms, hfrozen⟩ := heffect.poisons h hbuilds hclause
  have hkind : now.mode.kind = fresh.mode.kind :=
    heffect.kept.2.2.trans (kept_after hfresh ops).2.2
  refine ⟨hready, stuck_of_poisoned hphase, hkind, harms, hfrozen, ?_⟩
  intro hlazy done recent hops hrecent
  have hdone : (fresh.after done).mode.kind = .lazy := by
    rw [(kept_after hfresh done).2.2]
    simp only [fresh, hlazy]
    rfl
  rw [harms, show before = (fresh.after done).after recent by rw [← after_append, ← hops]]
  exact arms_after_eq (settled_after hfresh done) hdone hrecent

def one : Body Nat := ⟨"one", [], fun _ => 1⟩

/-- A clause that accepts everything. -/
def acceptAll : Operation Nat := .append (.bare .discard) one

/-- A clause with a parameter that its body does not take. -/
def surplusParam : Operation Nat := .append (.ofParams ["a"] (.var "a")) one

theorem poisoned_or_unchanged_after_hit :
    let before : Chain Nat := (start .empty 1 (some .unit)).after [acceptAll]
    let now := (before.perform surplusParam).1
    now.Stuck (.clause (.arityMismatch 1 0)) ∧ now.frozen? = some ⟨"one", 1⟩ ∧
      now.result = .error .noFallback ∧ (now.perform (.evaluate .unit)).1 = now := by
  intro before now
  obtain ⟨-, hstuck, -, -, hfrozen, -⟩ :=
    (poisoned_or_unchanged .empty 1 (some .unit) [acceptAll] surplusParam
      (.clause (.arityMismatch 1 0)) rfl).1 ⟨rfl, rfl⟩
  have hsame := (poisoned_or_unchanged .empty 1 (some .unit) [acceptAll, surplusParam]
    (.evaluate .unit) (.invalidMode .evaluate .eager) rfl).2 (by simp [ChainError.ofClause])
  exact ⟨hstuck, hfrozen, hstuck.result, hsame⟩

end Chain
end Destructure
