/-
What an operation does to a chain.

An operation looks at the phase, at the mode and at what compiling and extracting come
to, and there are a dozen outcomes in all.  `Effect` lists them, each with the chain
it leaves behind and its report, so that a statement on every operation is one case
distinction and a statement on every history one induction over it.

A sealed chain has nothing put off.  This is the one property of histories that the
list itself relies on, and it is carried along by `Settled`.
-/
import Destructure.Chain.History

namespace Destructure

/-- Whether the operation adds to the chain or seals it.  The others only ask it. -/
def Operation.builds {α : Type} : Operation α → Bool
  | .append _ _ => true
  | .compile => true
  | .attachFallback _ => true
  | .evaluate _ => false
  | .evaluateAll _ => false

namespace Chain

variable {α : Type} {ch : Chain α}

/-- A chain that nothing has been done to, bound to a value or not. -/
def start (r : Registry) (limit : Nat) : Option Value → Chain α
  | none => unbound r limit
  | some v => bound r limit v

/-- Nothing is put off once the chain is sealed. -/
def Settled (ch : Chain α) : Prop :=
  ∀ fallback pending, ch.phase = .ready fallback → ch.mode = .lazy pending → pending = []

/-- The answer that an eager chain keeps. -/
def frozen? (ch : Chain α) : Option (Call α) :=
  match ch.mode with
  | .lazy _ => none
  | .eager _ result => result

/-! ## Outcomes -/

/-- The chain after an operation and the report of the operation. -/
inductive Effect (ch : Chain α) :
    Operation α → Chain α → Report α (List (Call α)) → Prop where
  | asked {op} (asks : op.builds = false) : Effect ch op ch (ch.perform op).2
  | repeated {op e} (builds : op.builds = true) (phase : ch.phase = .poisoned e) :
      Effect ch op ch ⟨.error e, []⟩
  | closed {c body f} (phase : ch.phase = .ready f) :
      Effect ch (.append c body) ch ⟨.error .closed, []⟩
  | duplicate {f g} (phase : ch.phase = .ready f) :
      Effect ch (.attachFallback g) ch ⟨.error .duplicateFallback, []⟩
  | deferred {c body pending} (phase : ch.phase = .building) (mode : ch.mode = .lazy pending) :
      Effect ch (.append c body)
        { ch with size := ch.size + 1, mode := .lazy (pending ++ [(c, body)]) } ⟨.ok [], []⟩
  | uncompiled {c body v result e} (phase : ch.phase = .building)
      (mode : ch.mode = .eager v result)
      (compile : c.compile ch.registry ch.limit body = .error e) :
      Effect ch (.append c body)
        { ch with size := ch.size + 1, phase := .poisoned (.clause e) } ⟨.error (.clause e), []⟩
  | unextracted {c body v arm e} (phase : ch.phase = .building) (mode : ch.mode = .eager v none)
      (compile : c.compile ch.registry ch.limit body = .ok arm) (accepts : arm.accepts v = true)
      (extract : arm.extract v = .error e) :
      Effect ch (.append c body)
        { ch with size := ch.size + 1, phase := .poisoned (.extract e) } ⟨.error (.extract e), []⟩
  | hit {c body v arm call} (phase : ch.phase = .building) (mode : ch.mode = .eager v none)
      (compile : c.compile ch.registry ch.limit body = .ok arm) (accepts : arm.accepts v = true)
      (extract : arm.extract v = .ok call) :
      Effect ch (.append c body)
        { ch with size := ch.size + 1, arms := ch.arms ++ [arm], mode := .eager v (some call) }
        ⟨.ok [], [call]⟩
  /-- There is an answer already, or the clause does not accept the value. -/
  | passed {c body v result arm} (phase : ch.phase = .building)
      (mode : ch.mode = .eager v result)
      (compile : c.compile ch.registry ch.limit body = .ok arm)
      (untried : result ≠ none ∨ arm.accepts v = false) :
      Effect ch (.append c body) { ch with size := ch.size + 1, arms := ch.arms ++ [arm] }
        ⟨.ok [], []⟩
  /-- Everything is compiled already. -/
  | idle (phase : ∀ e, ch.phase ≠ .poisoned e)
      (compiled : ch.isReady = true ∨ ch.mode.kind = .eager) :
      Effect ch .compile ch ⟨.ok [], []⟩
  | committed {pending arms} (phase : ch.phase = .building) (mode : ch.mode = .lazy pending)
      (compile : compileAll ch.registry ch.limit pending = .ok arms) :
      Effect ch .compile { ch with arms := ch.arms ++ arms, mode := .lazy [] } ⟨.ok [], []⟩
  /-- Compiling what is put off fails, whether asked for or before sealing. -/
  | rejected {op pending e} (builds : op.builds = true) (phase : ch.phase = .building)
      (mode : ch.mode = .lazy pending)
      (compile : compileAll ch.registry ch.limit pending = .error e) :
      Effect ch op { ch with mode := .lazy [], phase := .poisoned (.clause e) }
        ⟨.error (.clause e), []⟩
  | sealedLazy {pending arms f} (phase : ch.phase = .building) (mode : ch.mode = .lazy pending)
      (compile : compileAll ch.registry ch.limit pending = .ok arms) :
      Effect ch (.attachFallback f)
        { ch with arms := ch.arms ++ arms, mode := .lazy [], phase := .ready f } ⟨.ok [], []⟩
  | sealedAnswered {v call f} (phase : ch.phase = .building)
      (mode : ch.mode = .eager v (some call)) :
      Effect ch (.attachFallback f) { ch with phase := .ready f } ⟨.ok [], []⟩
  /-- No clause accepted the bound value, so the answer is the fallback's. -/
  | sealedUnanswered {v f} (phase : ch.phase = .building) (mode : ch.mode = .eager v none) :
      Effect ch (.attachFallback f) { ch with phase := .ready f, mode := .eager v (some f) }
        ⟨.ok [], [f]⟩

theorem effect_tryArm {c : Clause} {body : Body α} {v : Value} {result : Option (Call α)}
    {arm : Arm α} (phase : ch.phase = .building) (mode : ch.mode = .eager v result)
    (compile : c.compile ch.registry ch.limit body = .ok arm) :
    let tried := tryArm { ch with size := ch.size + 1 } v result arm
    Effect ch (.append c body) tried.1 (Report.noAnswers tried.2) := by
  by_cases htry : result = none ∧ arm.accepts v = true
  · obtain ⟨rfl, accepts⟩ := htry
    cases extract : arm.extract v with
    | error e =>
      simp only [tryArm, Option.isNone_none, accepts, Bool.and_self, if_true, extract]
      exact .unextracted phase mode compile accepts extract
    | ok call =>
      simp only [tryArm, Option.isNone_none, accepts, Bool.and_self, if_true, extract]
      exact .hit phase mode compile accepts extract
  · have untried : result ≠ none ∨ arm.accepts v = false := by
      rw [← Bool.not_eq_true]
      exact Decidable.not_and_iff_or_not.mp htry
    have hskip : (result.isNone && arm.accepts v) = false := by
      rcases untried with h | h
      · simp [h]
      · simp [h]
    simp only [tryArm, hskip, Bool.false_eq_true, if_false]
    exact .passed phase mode compile untried

theorem effect_append (ch : Chain α) (c : Clause) (body : Body α) :
    Effect ch (.append c body) (ch.append c body).1 (Report.noAnswers (ch.append c body).2) := by
  obtain ⟨r, limit, mode, phase, arms, size⟩ := ch
  cases phase with
  | poisoned e => exact .repeated rfl rfl
  | ready f => exact .closed rfl
  | building =>
    cases mode with
    | lazy pending => exact .deferred rfl rfl
    | eager v result =>
      cases compile : c.compile r limit body with
      | error e =>
        simp only [append, compile]
        exact .uncompiled rfl rfl compile
      | ok arm =>
        simp only [append, compile]
        exact effect_tryArm rfl rfl compile

theorem effect_compile (h : ch.Settled) :
    Effect ch .compile ch.compile.1 (Report.noAnswers ch.compile.2) := by
  obtain ⟨r, limit, mode, phase, arms, size⟩ := ch
  cases phase with
  | poisoned e => exact .repeated rfl rfl
  | ready f =>
    have hidle : Effect ⟨r, limit, mode, .ready f, arms, size⟩ .compile _ ⟨.ok [], []⟩ :=
      .idle nofun (.inl rfl)
    cases mode with
    | eager v result => exact hidle
    | lazy pending =>
      have hpending : pending = [] := h f pending rfl rfl
      subst hpending
      simpa [Chain.compile, compileAll, accept, Report.noAnswers, Except.map] using hidle
  | building =>
    cases mode with
    | eager v result => exact .idle nofun (.inr rfl)
    | lazy pending =>
      cases compile : compileAll r limit pending with
      | error e =>
        simp only [Chain.compile, compile]
        exact .rejected rfl rfl rfl compile
      | ok more =>
        simp only [Chain.compile, compile]
        exact .committed rfl rfl compile

theorem effect_attachFallback (ch : Chain α) (f : Call α) :
    Effect ch (.attachFallback f) (ch.attachFallback f).1
      (Report.noAnswers (ch.attachFallback f).2) := by
  obtain ⟨r, limit, mode, phase, arms, size⟩ := ch
  cases phase with
  | poisoned e => exact .repeated rfl rfl
  | ready g => exact .duplicate rfl
  | building =>
    cases mode with
    | eager v result =>
      cases result with
      | none => exact .sealedUnanswered rfl rfl
      | some call => exact .sealedAnswered rfl rfl
    | lazy pending =>
      cases compile : compileAll r limit pending with
      | error e =>
        simp only [attachFallback, Chain.compile, compile]
        exact .rejected rfl rfl rfl compile
      | ok more =>
        simp only [attachFallback, Chain.compile, compile]
        exact .sealedLazy rfl rfl compile

theorem effect_perform (h : ch.Settled) (op : Operation α) :
    Effect ch op (ch.perform op).1 (ch.perform op).2 := by
  cases op with
  | append c body => exact effect_append ch c body
  | compile => exact effect_compile h
  | attachFallback f => exact effect_attachFallback ch f
  | evaluate v =>
    have hsame : (ch.perform (.evaluate v)).1 = ch := by
      rw [perform]
      cases ch.evaluate v <;> rfl
    rw [hsame]
    exact .asked rfl
  | evaluateAll vs => exact .asked rfl

/-! ## Histories -/

section Step

variable {op : Operation α} {ch' : Chain α} {report : Report α (List (Call α))}

theorem Effect.settled (h : Effect ch op ch' report) (hch : ch.Settled) : ch'.Settled := by
  intro fallback pending hphase hmode
  cases h with
  | asked | repeated | closed | duplicate | idle => exact hch fallback pending hphase hmode
  | _ => simp_all

/-- What runs on an eager chain is the answer that it keeps from then on. -/
theorem Effect.frozen (h : Effect ch op ch' report) (heager : ch.mode.kind = .eager) :
    ch'.frozen?.toList = ch.frozen?.toList ++ report.calls := by
  cases h with
  | asked asks =>
    have hcalls : (ch.perform op).2.calls = [] := by
      obtain ⟨r, limit, mode, phase, arms, size⟩ := ch
      cases mode with
      | lazy pending => cases heager
      | eager v result =>
        cases op with
        | evaluate w => rfl
        | evaluateAll ws => rfl
        | _ => cases asks
    rw [hcalls, List.append_nil]
  | deferred _ mode | committed _ mode _ | rejected _ _ mode _ | sealedLazy _ mode _ =>
    rw [mode] at heager
    cases heager
  | hit _ mode _ _ _ | sealedUnanswered _ mode => simp [frozen?, mode]
  | _ => exact (List.append_nil _).symm

theorem Effect.calls_eq_nil (h : Effect ch op ch' report) (hlazy : ch.mode.kind = .lazy)
    (hbuilds : op.builds = true) : report.calls = [] := by
  cases h with
  | asked asks => simp [asks] at hbuilds
  | hit _ mode _ _ _ | sealedUnanswered _ mode =>
    rw [mode] at hlazy
    cases hlazy
  | _ => rfl

/-- What a chain is made for never changes. -/
theorem Effect.kept (h : Effect ch op ch' report) :
    ch'.registry = ch.registry ∧ ch'.limit = ch.limit ∧ ch'.mode.kind = ch.mode.kind := by
  cases h <;> simp_all [Mode.kind]

end Step

theorem settled_start (r : Registry) (limit : Nat) (bound? : Option Value) :
    (start r limit bound? : Chain α).Settled := by
  intro fallback pending hphase hmode
  cases bound? <;> cases hphase

theorem after_append (ch : Chain α) (ops later : List (Operation α)) :
    ch.after (ops ++ later) = (ch.after ops).after later := by
  induction ops generalizing ch with
  | nil => rfl
  | cons op ops ih => exact ih (ch.perform op).1

theorem calls_append (ch : Chain α) (ops later : List (Operation α)) :
    ch.calls (ops ++ later) = ch.calls ops ++ (ch.after ops).calls later := by
  induction ops generalizing ch with
  | nil => rfl
  | cons op ops ih =>
    have hrest : (ch.perform op).1.calls (ops ++ later) =
        (ch.perform op).1.calls ops ++ ((ch.perform op).1.after ops).calls later := ih _
    simp only [calls] at hrest ⊢
    simp only [List.cons_append, reports, List.flatMap_cons, hrest, after, List.append_assoc]

/-- What every effect preserves holds after every history. -/
theorem after_induction {P : Chain α → Prop}
    (hstep : ∀ {ch op ch' report}, Effect ch op ch' report → P ch → P ch')
    (hch : ch.Settled) (h : P ch) (ops : List (Operation α)) : P (ch.after ops) := by
  induction ops generalizing ch with
  | nil => exact h
  | cons op ops ih =>
    have heffect := effect_perform hch op
    exact ih (heffect.settled hch) (hstep heffect h)

theorem settled_after (hch : ch.Settled) (ops : List (Operation α)) : (ch.after ops).Settled :=
  after_induction (fun heffect h => heffect.settled h) hch hch ops

theorem kept_after (hch : ch.Settled) (ops : List (Operation α)) :
    (ch.after ops).registry = ch.registry ∧ (ch.after ops).limit = ch.limit ∧
      (ch.after ops).mode.kind = ch.mode.kind := by
  refine after_induction (P := fun ch' => ch'.registry = ch.registry ∧ ch'.limit = ch.limit ∧
    ch'.mode.kind = ch.mode.kind) (fun heffect h => ?_) hch ⟨rfl, rfl, rfl⟩ ops
  obtain ⟨hregistry, hlimit, hkind⟩ := heffect.kept
  exact ⟨hregistry.trans h.1, hlimit.trans h.2.1, hkind.trans h.2.2⟩

/-- All that ever runs on an eager chain is the answer that it keeps. -/
theorem frozen_after (hch : ch.Settled) (heager : ch.mode.kind = .eager)
    (ops : List (Operation α)) :
    (ch.after ops).frozen?.toList = ch.frozen?.toList ++ ch.calls ops := by
  induction ops generalizing ch with
  | nil => exact (List.append_nil _).symm
  | cons op ops ih =>
    have heffect := effect_perform hch op
    have hrest := ih (heffect.settled hch) (heffect.kept.2.2.trans heager)
    rw [heffect.frozen heager, List.append_assoc] at hrest
    exact hrest

theorem calls_eq_nil (hch : ch.Settled) (hlazy : ch.mode.kind = .lazy)
    {ops : List (Operation α)} (hops : ∀ op ∈ ops, op.builds = true) : ch.calls ops = [] := by
  induction ops generalizing ch with
  | nil => rfl
  | cons op ops ih =>
    have heffect := effect_perform hch op
    have hrest := ih (heffect.settled hch) (heffect.kept.2.2.trans hlazy) fun op' hop' =>
      hops op' (List.mem_cons_of_mem _ hop')
    have hfirst := heffect.calls_eq_nil hlazy (hops op List.mem_cons_self)
    show (ch.perform op).2.calls ++ (ch.perform op).1.calls ops = []
    rw [hfirst, hrest, List.append_nil]

end Chain
end Destructure
