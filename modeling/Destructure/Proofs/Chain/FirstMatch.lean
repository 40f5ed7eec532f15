/-
The first match answers.

A sealed lazy chain looks for the first arm that accepts the value.  What this arm
extracts is the answer, an error included: a later arm gets no chance, nor does the
fallback.  The fallback answers when no arm accepts the value.

Many values are answered each on its own.  Nothing ties the order in which this happens
to the order of the values, so what is asked of the way the results are put together is
no more than `Collects`: with no error among them they come in the order of the values,
and otherwise one of the errors is reported, whichever it is.  Going through the values
from left to right is one such way.
-/
import Destructure.Proofs.Chain.Complete

namespace Destructure

/-! ## Putting results together -/

/-- A way to make one result of many.  It keeps their order, and of several errors it
reports any. -/
structure Collects {ε β : Type} (collect : List (Except ε β) → Except ε (List β)) : Prop where
  of_ok : ∀ xs, collect (xs.map .ok) = .ok xs
  of_error : ∀ results e, .error e ∈ results →
    ∃ e', collect results = .error e' ∧ .error e' ∈ results

section Collect

variable {ε β : Type} {collect : List (Except ε β) → Except ε (List β)}

theorem exists_map_ok_or_error (results : List (Except ε β)) :
    (∃ xs : List β, results = xs.map .ok) ∨ ∃ e, .error e ∈ results := by
  induction results with
  | nil => exact .inl ⟨[], rfl⟩
  | cons result results ih =>
    cases result with
    | error e => exact .inr ⟨e, List.mem_cons_self⟩
    | ok x =>
      rcases ih with ⟨xs, rfl⟩ | ⟨e, he⟩
      · exact .inl ⟨x :: xs, rfl⟩
      · exact .inr ⟨e, List.mem_cons_of_mem _ he⟩

theorem Collects.eq_ok_iff (h : Collects collect) {results : List (Except ε β)} {xs : List β} :
    collect results = .ok xs ↔ results = xs.map .ok := by
  constructor
  · intro hok
    rcases exists_map_ok_or_error results with ⟨ys, rfl⟩ | ⟨e, he⟩
    · have hys : collect (ys.map .ok) = .ok ys := h.of_ok ys
      have hxs : xs = ys := Except.ok.inj (hok.symm.trans hys)
      rw [hxs]
    · obtain ⟨e', herror, -⟩ := h.of_error results e he
      rw [herror] at hok
      cases hok
  · rintro rfl
    exact h.of_ok xs

theorem Collects.mem_of_eq_error (h : Collects collect) {results : List (Except ε β)} {e : ε}
    (he : collect results = .error e) : .error e ∈ results := by
  rcases exists_map_ok_or_error results with ⟨xs, rfl⟩ | ⟨e', he'⟩
  · rw [h.of_ok xs] at he
    cases he
  · obtain ⟨first, herror, hmem⟩ := h.of_error results e' he'
    have hfirst : first = e := Except.error.inj (herror.symm.trans he)
    rwa [← hfirst]

/-- Put results together from left to right, up to the first error. -/
def collectInOrder : List (Except ε β) → Except ε (List β)
  | [] => .ok []
  | .error e :: _ => .error e
  | .ok x :: results => (collectInOrder results).map (x :: ·)

theorem collects_inOrder : Collects (collectInOrder (ε := ε) (β := β)) where
  of_ok xs := by
    induction xs with
    | nil => rfl
    | cons x xs ih =>
      rw [List.map_cons, collectInOrder, ih]
      rfl
  of_error results e he := by
    induction results with
    | nil => exact absurd he List.not_mem_nil
    | cons result results ih =>
      cases result with
      | error e' => exact ⟨e', rfl, List.mem_cons_self⟩
      | ok x =>
        have hrest : .error e ∈ results := (List.mem_cons.mp he).resolve_left nofun
        obtain ⟨e', herror, hmem⟩ := ih hrest
        refine ⟨e', ?_, List.mem_cons_of_mem _ hmem⟩
        rw [collectInOrder, herror]
        rfl

end Collect

theorem Body.exists_args_of_invoke {α : Type} {body : Body α} {values : List Value} {call : Call α}
    (h : body.invoke values = .ok call) : ∃ args, call = ⟨body.label, body.run args⟩ := by
  obtain ⟨args, -, hcall⟩ := map_eq_ok h
  exact ⟨args, hcall.symm⟩

theorem Arm.exists_args_of_extract {α : Type} {arm : Arm α} {v : Value} {call : Call α}
    (h : arm.extract v = .ok call) : ∃ args, call = ⟨arm.body.label, arm.body.run args⟩ := by
  unfold extract at h
  split at h
  · cases h
  · exact Body.exists_args_of_invoke h

namespace Chain

variable {α : Type} {ch : Chain α} {f : Call α} {v : Value}

/-! ## One value -/

/-- The arm at the index accepts the value, and none before it does. -/
def FirstAccepts (arms : List (Arm α)) (v : Value) (i : Nat) (arm : Arm α) : Prop :=
  arms[i]? = some arm ∧ arm.accepts v = true ∧
    ∀ j < i, ∀ other, arms[j]? = some other → other.accepts v = false

section Arms

variable {arms : List (Arm α)} {arm : Arm α}

theorem find?_eq_some_iff :
    arms.find? (·.accepts v) = some arm ↔ ∃ i, FirstAccepts arms v i arm := by
  rw [List.find?_eq_some_iff_getElem]
  constructor
  · rintro ⟨haccepts, i, hi, rfl, hbefore⟩
    refine ⟨i, List.getElem?_eq_getElem hi, haccepts, fun j hj other hother => ?_⟩
    obtain ⟨hlt, rfl⟩ := List.getElem?_eq_some_iff.mp hother
    simpa using hbefore j hj
  · rintro ⟨i, harm, haccepts, hbefore⟩
    obtain ⟨hi, rfl⟩ := List.getElem?_eq_some_iff.mp harm
    refine ⟨haccepts, i, hi, rfl, fun j hj => ?_⟩
    have hother : arms[j]? = some arms[j] := List.getElem?_eq_getElem (by omega)
    simp [hbefore j hj _ hother]

theorem answer_of_firstAccepts {i : Nat} (h : FirstAccepts arms v i arm) :
    answer arms f v = (arm.extract v).mapError .extract := by
  have hfind : arms.find? (·.accepts v) = some arm := find?_eq_some_iff.mpr ⟨i, h⟩
  rw [answer, hfind]
  dsimp only
  cases arm.extract v <;> rfl

theorem answer_of_none_accepts (h : ∀ arm ∈ arms, arm.accepts v = false) :
    answer arms f v = .ok f := by
  have hfind : arms.find? (·.accepts v) = none :=
    List.find?_eq_none.mpr fun arm harm => by simp [h arm harm]
  rw [answer, hfind]

/-- The answer is a run of the body of the first arm that accepts the value, or it is the
fallback. -/
theorem call_of_answer {call : Call α} (h : answer arms f v = .ok call) :
    (∃ i arm args, FirstAccepts arms v i arm ∧ call = ⟨arm.body.label, arm.body.run args⟩) ∨
      (∀ arm ∈ arms, arm.accepts v = false) ∧ call = f := by
  cases hfind : arms.find? (·.accepts v) with
  | none =>
    have hnone : ∀ arm ∈ arms, arm.accepts v = false := by
      simpa using List.find?_eq_none.mp hfind
    rw [answer_of_none_accepts hnone] at h
    exact .inr ⟨hnone, (Except.ok.inj h).symm⟩
  | some arm =>
    obtain ⟨i, hfirst⟩ := find?_eq_some_iff.mp hfind
    rw [answer_of_firstAccepts hfirst] at h
    cases hextract : arm.extract v with
    | error e =>
      rw [hextract] at h
      cases h
    | ok call' =>
      rw [hextract] at h
      have hcall : call' = call := Except.ok.inj h
      obtain ⟨args, hargs⟩ := Arm.exists_args_of_extract hextract
      exact .inl ⟨i, arm, args, hfirst, hcall ▸ hargs⟩

end Arms

/-- How a chain with this fallback answers the value. -/
structure AnswersFirst (ch : Chain α) (f : Call α) (v : Value) : Prop where
  first : ∀ i arm, FirstAccepts ch.arms v i arm →
    ch.evaluate v = (arm.extract v).mapError .extract
  fallback : (∀ arm ∈ ch.arms, arm.accepts v = false) → ch.evaluate v = .ok f
  ran : ∀ call, ch.evaluate v = .ok call →
    (ch.perform (.evaluate v)).2.calls = [call] ∧
      ((∃ i arm args, FirstAccepts ch.arms v i arm ∧
          call = ⟨arm.body.label, arm.body.run args⟩) ∨
        (∀ arm ∈ ch.arms, arm.accepts v = false) ∧ call = f)
  silent : ∀ e, ch.evaluate v = .error e → (ch.perform (.evaluate v)).2.calls = []

theorem calls_perform_evaluate_error {e : ChainError} (h : ch.evaluate v = .error e) :
    (ch.perform (.evaluate v)).2.calls = [] := by
  rw [perform, h]

theorem answersFirst (hlazy : ch.mode.kind = .lazy) (hphase : ch.phase = .ready f) (v : Value) :
    ch.AnswersFirst f v := by
  have hevaluate : ch.evaluate v = answer ch.arms f v := evaluate_eq_answer hlazy hphase v
  refine ⟨fun i arm hfirst => ?_, fun hnone => ?_, fun call hcall => ?_, fun e he => ?_⟩
  · rw [hevaluate, answer_of_firstAccepts hfirst]
  · rw [hevaluate, answer_of_none_accepts hnone]
  · refine ⟨by rw [perform, hcall], ?_⟩
    exact call_of_answer (hevaluate.symm.trans hcall)
  · exact calls_perform_evaluate_error he

/-! ## Many values -/

/-- Evaluate a sealed lazy chain on many values, each on its own, and put the results
together in some way. -/
def evaluateAllBy (collect : List (Except ChainError (Call α)) → Except ChainError (List (Call α)))
    (ch : Chain α) (vs : List Value) : Except ChainError (List (Call α)) :=
  match ch.mode, ch.phase with
  | .eager _ _, _ => .error (.invalidMode .evaluateAll .eager)
  | .lazy _, .ready _ => collect (vs.map ch.evaluate)
  | .lazy _, _ => .error .noFallback

theorem result_answerAll (arms : List (Arm α)) (f : Call α) (vs : List Value) :
    (answerAll arms f vs).result = collectInOrder (vs.map (answer arms f)) := by
  induction vs with
  | nil => rfl
  | cons v vs ih =>
    rw [List.map_cons, answerAll]
    cases answer arms f v with
    | error e => rfl
    | ok call => rw [collectInOrder, ← ih]

theorem calls_answerAll {arms : List (Arm α)} {vs : List Value} {calls : List (Call α)}
    (h : (answerAll arms f vs).result = .ok calls) : (answerAll arms f vs).calls = calls := by
  induction vs generalizing calls with
  | nil => exact Except.ok.inj h
  | cons v vs ih =>
    rw [answerAll] at h ⊢
    cases hanswer : answer arms f v with
    | error e => simp [hanswer] at h
    | ok call =>
      simp only [hanswer] at h ⊢
      obtain ⟨rest, hrest, hcalls⟩ := map_eq_ok h
      rw [ih hrest, hcalls]

/-- Going through the values from left to right is one way to evaluate them all. -/
theorem result_evaluateAll (ch : Chain α) (vs : List Value) :
    (ch.evaluateAll vs).result = ch.evaluateAllBy collectInOrder vs := by
  obtain ⟨r, limit, mode, phase, arms, size⟩ := ch
  cases mode with
  | eager w result => rfl
  | lazy pending =>
    cases phase with
    | ready f => exact result_answerAll arms f vs
    | _ => rfl

/-- The result of evaluating many values agrees with evaluating each of them. -/
structure Batch (ch : Chain α) (vs : List Value) (result : Except ChainError (List (Call α))) :
    Prop where
  inOrder : ∀ calls, result = .ok calls ↔ vs.map ch.evaluate = calls.map .ok
  isOk : (∃ calls, result = .ok calls) ↔ ∀ v ∈ vs, ∃ call, ch.evaluate v = .ok call
  error : ∀ e, result = .error e → ∃ v ∈ vs, ch.evaluate v = .error e

theorem batch_evaluateAllBy (hlazy : ch.mode.kind = .lazy) (hphase : ch.phase = .ready f)
    {collect : List (Except ChainError (Call α)) → Except ChainError (List (Call α))}
    (hcollect : Collects collect) (vs : List Value) : ch.Batch vs (ch.evaluateAllBy collect vs) := by
  obtain ⟨pending, hmode⟩ := exists_pending hlazy
  have hresult : ch.evaluateAllBy collect vs = collect (vs.map ch.evaluate) := by
    simp only [evaluateAllBy, hmode, hphase]
  rw [hresult]
  refine ⟨fun calls => hcollect.eq_ok_iff, ⟨?each, ?all⟩, fun e he => ?error⟩
  case each =>
    rintro ⟨calls, hcalls⟩ v hv
    have hmap : vs.map ch.evaluate = calls.map .ok := hcollect.eq_ok_iff.mp hcalls
    have hmem : ch.evaluate v ∈ calls.map Except.ok := hmap ▸ List.mem_map_of_mem hv
    obtain ⟨call, -, hcall⟩ := List.mem_map.mp hmem
    exact ⟨call, hcall.symm⟩
  case all =>
    intro hall
    rcases exists_map_ok_or_error (vs.map ch.evaluate) with ⟨calls, hcalls⟩ | ⟨e, he⟩
    · exact ⟨calls, hcollect.eq_ok_iff.mpr hcalls⟩
    · obtain ⟨v, hv, hve⟩ := List.mem_map.mp he
      obtain ⟨call, hcall⟩ := hall v hv
      rw [hcall] at hve
      cases hve
  case error =>
    have hmem : .error e ∈ vs.map ch.evaluate := hcollect.mem_of_eq_error he
    obtain ⟨v, hv, hve⟩ := List.mem_map.mp hmem
    exact ⟨v, hv, hve⟩

/-! ## Chains that do not answer -/

/-- The chain answers no value and no list of values, the empty one included, and runs
nothing. -/
structure Declines (ch : Chain α) (one all : ChainError) : Prop where
  evaluate : ∀ v, ch.evaluate v = .error one ∧ (ch.perform (.evaluate v)).2.calls = []
  evaluateAll : ∀ vs, ch.evaluateAll vs = ⟨.error all, []⟩ ∧
    ∀ collect, ch.evaluateAllBy collect vs = .error all

theorem declines_of_not_ready (hlazy : ch.mode.kind = .lazy) (hopen : ch.isReady = false) :
    ch.Declines .noFallback .noFallback := by
  obtain ⟨pending, hmode⟩ := exists_pending hlazy
  obtain ⟨r, limit, mode, phase, arms, size⟩ := ch
  cases hmode
  cases phase with
  | ready f => cases hopen
  | _ => exact ⟨fun v => ⟨rfl, rfl⟩, fun vs => ⟨rfl, fun collect => rfl⟩⟩

theorem declines_of_eager (heager : ch.mode.kind = .eager) :
    ch.Declines (.invalidMode .evaluate .eager) (.invalidMode .evaluateAll .eager) := by
  obtain ⟨r, limit, mode, phase, arms, size⟩ := ch
  cases mode with
  | lazy pending => cases heager
  | eager w result => exact ⟨fun v => ⟨rfl, rfl⟩, fun vs => ⟨rfl, fun collect => rfl⟩⟩

/-- After any history a lazy chain that is sealed answers with its first arm that accepts
the value, or else with the fallback that sealed it, and answers many values as it answers
each.  Other chains answer nothing. -/
theorem first_match_answers (r : Registry) (limit : Nat) (bound? : Option Value)
    (ops : List (Operation α)) :
    let fresh : Chain α := start r limit bound?
    let ch := fresh.after ops
    (bound? = none → ch.isReady = true →
        ∃ f, fresh.SealedBy ops f ∧ (∀ v, ch.AnswersFirst f v) ∧
          ∀ vs, (∀ collect, Collects collect → ch.Batch vs (ch.evaluateAllBy collect vs)) ∧
            ch.Batch vs (ch.evaluateAll vs).result ∧
            ∀ calls, (ch.evaluateAll vs).result = .ok calls → (ch.evaluateAll vs).calls = calls) ∧
      (bound? = none → ch.isReady = false → ch.Declines .noFallback .noFallback) ∧
      (∀ v, bound? = some v →
        ch.Declines (.invalidMode .evaluate .eager) (.invalidMode .evaluateAll .eager)) := by
  intro fresh ch
  have hfresh : fresh.Settled := settled_start r limit bound?
  have hkind : ch.mode.kind = fresh.mode.kind := (kept_after hfresh ops).2.2
  refine ⟨?ready, ?notReady, ?eager⟩
  case ready =>
    rintro rfl hready
    obtain ⟨f, hphase⟩ := isReady_iff.mp hready
    have hsealed : fresh.SealedBy ops f :=
      ((phase_after_eq_ready_iff hfresh ops f).mp hphase).resolve_left nofun
    refine ⟨f, hsealed, answersFirst hkind hphase, fun vs => ⟨?_, ?_, ?_⟩⟩
    · exact fun collect hcollect => batch_evaluateAllBy hkind hphase hcollect vs
    · rw [result_evaluateAll]
      exact batch_evaluateAllBy hkind hphase collects_inOrder vs
    · rw [evaluateAll_eq_answerAll hkind hphase]
      exact fun calls hcalls => calls_answerAll hcalls
  case notReady =>
    rintro rfl hopen
    exact declines_of_not_ready hkind hopen
  case eager =>
    rintro v rfl
    exact declines_of_eager hkind

theorem first_match_answers_points :
    let ch : Chain Value := (unbound Clause.points 3).after abscissaChain
    let missing : ChainError := .extract (.noValueAt [.field 0 "x"])
    ch.isReady = true ∧ FirstAccepts ch.arms barePoint 0 abscissaOnlyArm ∧
      ch.evaluate barePoint = .error missing ∧ ch.evaluate (.int 3) = .ok ⟨"fallback", .unit⟩ ∧
      (∃ v ∈ [point, barePoint], ch.evaluate v = .error missing) ∧
      (bound Clause.points 3 point : Chain Value).Declines (.invalidMode .evaluate .eager)
        (.invalidMode .evaluateAll .eager) := by
  intro ch missing
  obtain ⟨hready, -, -⟩ := first_match_answers Clause.points 3 none abscissaChain
  obtain ⟨-, -, heager⟩ := first_match_answers (α := Value) Clause.points 3 (some point) []
  obtain ⟨f, -, hone, hmany⟩ := hready rfl rfl
  have hfirst : FirstAccepts ch.arms barePoint 0 abscissaOnlyArm :=
    ⟨rfl, by decide, fun j hj => absurd hj (by omega)⟩
  have hbatch : ch.Batch [point, barePoint] (ch.evaluateAll [point, barePoint]).result :=
    (hmany [point, barePoint]).2.1
  exact ⟨rfl, hfirst, (hone barePoint).first 0 abscissaOnlyArm hfirst, rfl,
    hbatch.error missing rfl, heager point rfl⟩

end Chain
end Destructure
