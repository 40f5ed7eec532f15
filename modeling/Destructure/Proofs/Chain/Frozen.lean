/-
An eager chain answers once.

What an eager chain keeps as its answer and what ran on it are the same thing: by
`frozen_after` the calls of a history are the answer that is kept at its end, one or none.
So there is no second run to rule out, wherever in the history the first one was.  Two
facts on the phases are added here.  A poisoned chain runs nothing, because nothing can be
done to it, and a sealed chain has an answer, because the fallback is attached to a chain
that has one or gives it one.  The latter is the invariant `Answered`.
-/
import Destructure.Proofs.Chain.Complete

namespace Destructure
namespace Chain

variable {α : Type} {ch : Chain α}

/-! ## Steps -/

/-- A sealed chain has an answer. -/
def Answered (ch : Chain α) : Prop := ch.isReady = true → ∃ call, ch.frozen? = some call

section Step

variable {op : Operation α} {ch' : Chain α} {report : Report α (List (Call α))} {e : ChainError}

theorem Effect.answered (h : Effect ch op ch' report) (heager : ch.mode.kind = .eager)
    (hch : ch.Answered) : ch'.Answered := by
  intro hready
  cases h with
  | asked | repeated | closed | duplicate | idle => exact hch hready
  | deferred _ mode | committed _ mode _ | sealedLazy _ mode _ =>
    rw [mode] at heager
    cases heager
  | uncompiled | unextracted | rejected => cases hready
  | hit phase | passed phase => simp [isReady, phase] at hready
  | @sealedAnswered v call f _ mode => exact ⟨call, by simp [frozen?, mode]⟩
  | @sealedUnanswered v f _ mode => exact ⟨f, rfl⟩

/-- A failing operation keeps the answer as it was. -/
theorem Effect.frozen_of_error (h : Effect ch op ch' report) (he : report.result = .error e) :
    ch'.frozen? = ch.frozen? := by
  by_cases hclause : op.builds = true ∧ e.ofClause = true
  · exact (h.poisons he hclause.1 hclause.2).2.2.2
  · rw [h.unchanged he hclause]

end Step

/-! ## Histories -/

section Eager

variable (heager : ch.mode.kind = .eager)
include heager

/-- Nothing runs in a history that leaves the answer as it was. -/
theorem calls_eq_nil_of_frozen (hch : ch.Settled) {ops : List (Operation α)}
    (hfrozen : (ch.after ops).frozen? = ch.frozen?) : ch.calls ops = [] := by
  have hcalls := frozen_after hch heager ops
  rw [hfrozen] at hcalls
  exact List.self_eq_append_right.mp hcalls

theorem calls_of_poisoned {e : ChainError} (h : ch.phase = .poisoned e)
    (ops : List (Operation α)) : ch.calls ops = [] := by
  have hsame : ch.after ops = ch := after_of_poisoned h ops
  exact calls_eq_nil_of_frozen heager (settled_of_poisoned h) (by rw [hsame])

theorem calls_of_error (hch : ch.Settled) {op : Operation α} {e : ChainError}
    (he : (ch.perform op).2.result = .error e) : (ch.perform op).2.calls = [] := by
  have hfrozen := (effect_perform hch op).frozen_of_error he
  have hcalls : ch.calls [op] = [] := calls_eq_nil_of_frozen heager hch hfrozen
  simpa [calls, reports] using hcalls

/-- An answer that is kept stays, and nothing runs any more. -/
theorem frozen_stays (hch : ch.Settled) {call : Call α} (hcall : ch.frozen? = some call)
    (ops : List (Operation α)) : (ch.after ops).frozen? = some call ∧ ch.calls ops = [] := by
  have hcalls := frozen_after hch heager ops
  rw [hcall] at hcalls
  cases hafter : (ch.after ops).frozen? with
  | none => simp [hafter] at hcalls
  | some other =>
    simp only [hafter, Option.toList_some, List.singleton_append, List.cons.injEq] at hcalls
    exact ⟨by rw [hcalls.1], hcalls.2.symm⟩

theorem answered_after (hch : ch.Settled) (h : ch.Answered) (ops : List (Operation α)) :
    (ch.after ops).Answered := by
  have hboth := after_induction (P := fun ch' : Chain α => ch'.mode.kind = .eager ∧ ch'.Answered)
    (fun heffect h => ⟨heffect.kept.2.2.trans h.1, heffect.answered h.1 h.2⟩) hch ⟨heager, h⟩ ops
  exact hboth.2

theorem exists_eager : ∃ v result, ch.mode = .eager v result := by
  cases hmode : ch.mode with
  | eager v result => exact ⟨v, result, rfl⟩
  | lazy pending =>
    rw [hmode] at heager
    cases heager

theorem result_of_open (hopen : ch.isReady = false) : ch.result = .error .noFallback := by
  obtain ⟨v, result, hmode⟩ := exists_eager heager
  unfold Chain.result
  cases hphase : ch.phase with
  | ready f => simp [isReady, hphase] at hopen
  | building | poisoned e => cases result <;> simp [hmode]

theorem result_of_ready (hready : ch.isReady = true) {call : Call α}
    (hcall : ch.frozen? = some call) : ch.result = .ok call := by
  obtain ⟨v, result, hmode⟩ := exists_eager heager
  obtain ⟨f, hphase⟩ := isReady_iff.mp hready
  have hresult : result = some call := by simpa [frozen?, hmode] using hcall
  simp [Chain.result, hmode, hphase, hresult]

end Eager

/-- A fresh chain keeps no answer, so what runs is what is kept in the end. -/
theorem frozen_after_bound (r : Registry) (limit : Nat) (v : Value) (ops : List (Operation α)) :
    ((bound r limit v).after ops).frozen?.toList = (bound r limit v).calls ops :=
  frozen_after (settled_start r limit (some v)) rfl ops

theorem isReady_after_bound_iff (r : Registry) (limit : Nat) (v : Value)
    (ops : List (Operation α)) :
    ((bound r limit v).after ops).isReady = true ↔ ∃ f, (bound r limit v).SealedBy ops f := by
  have hfresh : (bound r limit v : Chain α).Settled := settled_start r limit (some v)
  rw [isReady_iff]
  refine exists_congr fun f => ?_
  rw [phase_after_eq_ready_iff hfresh]
  exact or_iff_right nofun

/-- Whatever is done to a chain that is bound to a value, at most one body or fallback
runs.  Its answer is kept from then on, nothing runs in an operation that fails, and the
failure of a clause is recorded, after which nothing runs any more.  The chain gives its
answer away exactly when a fallback was attached with success, in which case there is one. -/
theorem runs_at_most_once (r : Registry) (limit : Nat) (v : Value) (ops : List (Operation α)) :
    let fresh : Chain α := bound r limit v
    let ch := fresh.after ops
    (fresh.calls ops).length ≤ 1 ∧
      (∀ call, ch.frozen? = some call ↔ fresh.calls ops = [call]) ∧
      (∀ call, fresh.calls ops = [call] → ∀ later,
        (ch.after later).frozen? = some call ∧ ch.calls later = []) ∧
      (∀ op e, (ch.perform op).2.result = .error e → (ch.perform op).2.calls = [] ∧
        (op.builds = true → e.ofClause = true →
          (ch.perform op).1.phase = .poisoned e ∧ ∀ later, (ch.perform op).1.calls later = [])) ∧
      (∀ e, ch.phase = .poisoned e → ∀ later, ch.calls later = []) ∧
      (∀ call, ch.result = .ok call ↔
        (∃ f, fresh.SealedBy ops f) ∧ fresh.calls ops = [call]) ∧
      ((∃ f, fresh.SealedBy ops f) → ∃ call, fresh.calls ops = [call] ∧ ch.result = .ok call) ∧
      ((¬ ∃ f, fresh.SealedBy ops f) → ch.result = .error .noFallback) := by
  intro fresh ch
  have hfresh : fresh.Settled := settled_start r limit (some v)
  have hch : ch.Settled := settled_after hfresh ops
  have heager : ch.mode.kind = .eager := (kept_after hfresh ops).2.2
  have hready : ch.isReady = true ↔ ∃ f, fresh.SealedBy ops f :=
    isReady_after_bound_iff r limit v ops
  have hkept : ch.frozen?.toList = fresh.calls ops := frozen_after_bound r limit v ops
  have hran : ∀ call, ch.frozen? = some call ↔ fresh.calls ops = [call] := by
    intro call
    rw [← hkept]
    cases ch.frozen? <;> simp
  have hinvariant : ch.Answered := answered_after rfl hfresh (nofun : fresh.Answered) ops
  have hanswered : ch.isReady = true → ∃ call, fresh.calls ops = [call] ∧ ch.result = .ok call := by
    intro h
    obtain ⟨call, hcall⟩ := hinvariant h
    exact ⟨call, (hran call).mp hcall, result_of_ready heager h hcall⟩
  have hopen : ch.isReady ≠ true → ch.result = .error .noFallback :=
    fun h => result_of_open heager (Bool.eq_false_iff.mpr h)
  rw [← hready]
  refine ⟨?once, hran, ?frozen, ?failing, fun e => calls_of_poisoned heager,
    fun call => ⟨?sound, ?complete⟩, hanswered, hopen⟩
  case once =>
    rw [← hkept]
    cases ch.frozen? <;> simp
  case frozen => exact fun call hcall => frozen_stays heager hch ((hran call).mpr hcall)
  case failing =>
    intro op e he
    have heffect := effect_perform hch op
    refine ⟨calls_of_error heager hch he, fun hbuilds hclause => ?_⟩
    have hphase : (ch.perform op).1.phase = .poisoned e := (heffect.poisons he hbuilds hclause).1
    exact ⟨hphase, calls_of_poisoned (heffect.kept.2.2.trans heager) hphase⟩
  case sound =>
    intro hresult
    by_cases h : ch.isReady = true
    · obtain ⟨other, hcalls, hother⟩ := hanswered h
      have hsame : other = call := Except.ok.inj (hother.symm.trans hresult)
      exact ⟨h, hsame ▸ hcalls⟩
    · rw [hopen h] at hresult
      cases hresult
  case complete =>
    rintro ⟨h, hcalls⟩
    exact result_of_ready heager h ((hran call).mpr hcalls)

/-- Two clauses that accept everything and a fallback that comes second, after which the
chain is asked what only a lazy chain answers. -/
def answeredTwice : List (Operation Nat) :=
  [acceptAll, acceptAll, .attachFallback ⟨"fallback", 0⟩, .attachFallback ⟨"other", 2⟩,
    .evaluate .unit, .evaluateAll [.unit]]

theorem runs_at_most_once_answered :
    let fresh : Chain Nat := bound .empty 1 .unit
    let sealedChain := fresh.after answeredTwice
    let poisonedChain := fresh.after [acceptAll, surplusParam]
    fresh.calls answeredTwice = [⟨"one", 1⟩] ∧ sealedChain.result = .ok ⟨"one", 1⟩ ∧
      sealedChain.calls answeredTwice = [] ∧
      (sealedChain.after answeredTwice).frozen? = some ⟨"one", 1⟩ ∧
      poisonedChain.phase = .poisoned (.clause (.arityMismatch 1 0)) ∧
      poisonedChain.calls [acceptAll, .attachFallback ⟨"fallback", 0⟩] = [] ∧
      poisonedChain.frozen? = some ⟨"one", 1⟩ ∧ poisonedChain.result = .error .noFallback := by
  intro fresh sealedChain poisonedChain
  obtain ⟨-, -, hstays, -, -, hresult, -, -⟩ :=
    runs_at_most_once .empty 1 .unit answeredTwice
  obtain ⟨-, -, -, hfailing, -⟩ := runs_at_most_once .empty 1 .unit [acceptAll]
  obtain ⟨-, hfrozen, -, -, -, -, -, hopen⟩ :=
    runs_at_most_once .empty 1 .unit [acceptAll, surplusParam]
  have hcalls : fresh.calls answeredTwice = [⟨"one", 1⟩] := rfl
  have hsealed : fresh.SealedBy answeredTwice ⟨"fallback", 0⟩ :=
    ⟨[acceptAll, acceptAll], _, rfl, rfl⟩
  obtain ⟨hlater, hnone⟩ := hstays _ hcalls answeredTwice
  obtain ⟨-, hpoisons⟩ := hfailing surplusParam (.clause (.arityMismatch 1 0)) rfl
  obtain ⟨hphase, hsilent⟩ := hpoisons rfl rfl
  exact ⟨hcalls, (hresult _).mpr ⟨⟨_, hsealed⟩, hcalls⟩, hnone, hlater, hphase, hsilent _,
    (hfrozen _).mpr rfl,
    hopen (mt (isReady_after_bound_iff .empty 1 .unit _).mpr Bool.false_ne_true)⟩

end Chain
end Destructure
