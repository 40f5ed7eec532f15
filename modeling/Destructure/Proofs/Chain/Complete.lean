/-
Sealed chains are complete.

On a lazy chain a clause waits, for as long as the caller likes, and those that wait are
compiled together at whatever moments the caller asks for it.  None of them is lost,
doubled or moved on the way.  Two accounts of a history say so.

`Accounts` looks back.  As long as no clause failed, the clauses appended so far are
those that the arms were compiled from followed by those still pending.  A sealed chain
has nothing pending, so its arms are all of them, each as it compiles on its own.

`prospect` looks ahead.  It is what a lazy chain comes to once further clauses are
appended and it is sealed, and no operation in between changes it.  So the outcome of
sealing depends on the clauses that were asked for and not on the moments at which they
were compiled.
-/
import Destructure.Proofs.Chain.Modes
import Destructure.Proofs.Chain.Poison

namespace Destructure

/-- The clause that the operation asks to append. -/
def Operation.clause? {α : Type} : Operation α → Option (Clause × Body α)
  | .append c body => some (c, body)
  | _ => none

/-- Whether the operation asks to seal the chain. -/
def Operation.seals {α : Type} : Operation α → Bool
  | .attachFallback _ => true
  | _ => false

namespace Chain

variable {α : Type} {ch : Chain α} {r : Registry} {limit : Nat}

/-! ## Clauses of a history -/

/-- The clauses that a history asks to append, refused ones included. -/
def requested (ops : List (Operation α)) : List (Clause × Body α) := ops.filterMap (·.clause?)

/-- The clause that an operation appends, none when it fails. -/
def admitted {β : Type} (op : Operation α) (report : Report α β) : List (Clause × Body α) :=
  match report.result with
  | .ok _ => op.clause?.toList
  | .error _ => []

/-- The clauses that a history appends, in order. -/
def accepted (ch : Chain α) : List (Operation α) → List (Clause × Body α)
  | [] => []
  | op :: ops => admitted op (ch.perform op).2 ++ (ch.perform op).1.accepted ops

/-- The clauses that are put off. -/
def pending (ch : Chain α) : List (Clause × Body α) :=
  match ch.mode with
  | .lazy pending => pending
  | .eager _ _ => []

theorem clause?_eq_none {op : Operation α} (asks : op.builds = false) : op.clause? = none := by
  cases op with
  | evaluate v => rfl
  | evaluateAll vs => rfl
  | _ => cases asks

theorem requested_cons (op : Operation α) (ops : List (Operation α)) :
    requested (op :: ops) = op.clause?.toList ++ requested ops := by
  cases h : op.clause? with
  | none => simp [requested, h]
  | some entry => simp [requested, h]

/-! ## Compiling in batches -/

theorem compileAll_append (cs more : List (Clause × Body α)) :
    compileAll r limit (cs ++ more) =
      match compileAll r limit cs with
      | .error cause => .error cause
      | .ok arms => (compileAll r limit more).map (arms ++ ·) := by
  induction cs with
  | nil =>
    cases h : compileAll r limit more <;> simp [compileAll, h, Except.map]
  | cons entry cs ih =>
    obtain ⟨c, body⟩ := entry
    rw [List.cons_append]
    cases hcompile : c.compile r limit body with
    | error cause => rw [compileAll_cons_error hcompile, compileAll_cons_error hcompile]
    | ok arm =>
      rw [compileAll_cons_ok hcompile, compileAll_cons_ok hcompile, ih]
      cases compileAll r limit cs with
      | error cause => rfl
      | ok arms => cases compileAll r limit more <;> rfl

theorem compileAll_append_ok {cs more : List (Clause × Body α)} {arms others : List (Arm α)}
    (h : compileAll r limit cs = .ok arms) (hmore : compileAll r limit more = .ok others) :
    compileAll r limit (cs ++ more) = .ok (arms ++ others) := by
  rw [compileAll_append, h, hmore]
  rfl

theorem compileAll_append_error {cs : List (Clause × Body α)} {cause : ClauseError}
    (h : compileAll r limit cs = .error cause) (more : List (Clause × Body α)) :
    compileAll r limit (cs ++ more) = .error cause := by
  rw [compileAll_append, h]

theorem compileAll_singleton {c : Clause} {body : Body α} {arm : Arm α}
    (h : c.compile r limit body = .ok arm) : compileAll r limit [(c, body)] = .ok [arm] := by
  rw [compileAll_cons_ok h]
  rfl

/-- Clauses that compile together compile one by one. -/
theorem compileAll_pointwise {cs : List (Clause × Body α)} {arms : List (Arm α)}
    (h : compileAll r limit cs = .ok arms) :
    arms.length = cs.length ∧ ∀ (i : Nat) (c : Clause) (body : Body α),
      cs[i]? = some (c, body) → ∃ arm, arms[i]? = some arm ∧ c.compile r limit body = .ok arm := by
  induction cs generalizing arms with
  | nil =>
    cases h
    exact ⟨rfl, fun i c body hentry => by simp at hentry⟩
  | cons entry cs ih =>
    obtain ⟨arm, more, hcompile, hmore, rfl⟩ := compileAll_cons_eq_ok h
    obtain ⟨hlen, hrest⟩ := ih hmore
    refine ⟨by rw [List.length_cons, List.length_cons, hlen], fun i c body hentry => ?_⟩
    cases i with
    | zero =>
      cases hentry
      exact ⟨arm, rfl, hcompile⟩
    | succ i => exact hrest i c body hentry

/-! ## Looking back -/

/-- Unless a clause failed, these are the clauses of the chain: the arms come from the
first of them and the others are pending. -/
def Accounts (ch : Chain α) (cs : List (Clause × Body α)) : Prop :=
  (∀ e, ch.phase ≠ .poisoned e) →
    ch.size = cs.length ∧
      ∃ done, cs = done ++ ch.pending ∧ compileAll ch.registry ch.limit done = .ok ch.arms

section Step

variable {op : Operation α} {ch' : Chain α} {report : Report α (List (Call α))}

theorem Effect.accounts (h : Effect ch op ch' report) {cs : List (Clause × Body α)}
    (hcs : ch.Accounts cs) : ch'.Accounts (cs ++ admitted op report) := by
  intro hphase
  cases h with
  | asked asks =>
    have hnone : admitted op (ch.perform op).2 = [] := by
      unfold admitted
      split
      · rw [clause?_eq_none asks]; rfl
      · rfl
    rw [hnone, List.append_nil]
    exact hcs hphase
  | closed phase | duplicate phase => simpa [admitted] using hcs hphase
  | repeated _ phase => exact absurd phase (hphase _)
  | uncompiled | unextracted | rejected => exact absurd rfl (hphase _)
  | idle _ _ => simpa [admitted, Operation.clause?] using hcs hphase
  | deferred phase mode =>
    obtain ⟨hsize, done, hdone, harms⟩ := hcs (by simp [phase])
    refine ⟨by simp [admitted, Operation.clause?, hsize], done, ?_, harms⟩
    simp [admitted, Operation.clause?, hdone, pending, mode]
  | hit phase mode compile _ _ | passed phase mode compile _ =>
    obtain ⟨hsize, done, hdone, harms⟩ := hcs (by simp [phase])
    simp only [pending, mode, List.append_nil] at hdone
    subst hdone
    refine ⟨by simp [admitted, Operation.clause?, hsize], _, ?_,
      compileAll_append_ok harms (compileAll_singleton compile)⟩
    simp [admitted, Operation.clause?, pending, mode]
  | committed phase mode compile | sealedLazy phase mode compile =>
    obtain ⟨hsize, done, hdone, harms⟩ := hcs (by simp [phase])
    simp only [pending, mode] at hdone
    refine ⟨by simpa [admitted, Operation.clause?] using hsize, _, ?_,
      compileAll_append_ok harms compile⟩
    simp [admitted, Operation.clause?, pending, hdone]
  | sealedAnswered phase mode | sealedUnanswered phase mode =>
    obtain ⟨hsize, done, hdone, harms⟩ := hcs (by simp [phase])
    simp only [pending, mode] at hdone
    refine ⟨by simpa [admitted, Operation.clause?] using hsize, done, ?_, harms⟩
    simp [admitted, Operation.clause?, pending, mode, hdone]

/-- Only attaching a fallback seals a chain, and nothing opens it again. -/
theorem Effect.phase_eq_ready_iff (h : Effect ch op ch' report) (f : Call α) :
    ch'.phase = .ready f ↔
      ch.phase = .ready f ∨ (op = .attachFallback f ∧ report.result = .ok []) := by
  cases h with
  | asked asks =>
    refine ⟨.inl, fun h => h.elim id ?_⟩
    rintro ⟨rfl, -⟩
    cases asks
  | _ => simp_all

end Step

theorem accounts_after (hch : ch.Settled) {cs : List (Clause × Body α)} (hcs : ch.Accounts cs)
    (ops : List (Operation α)) : (ch.after ops).Accounts (cs ++ ch.accepted ops) := by
  induction ops generalizing ch cs with
  | nil => simpa [accepted, after] using hcs
  | cons op ops ih =>
    have heffect := effect_perform hch op
    have hrest := ih (heffect.settled hch) (heffect.accounts hcs)
    rwa [List.append_assoc] at hrest

/-- Somewhere in the history this fallback is attached, and with success. -/
def SealedBy (ch : Chain α) (ops : List (Operation α)) (f : Call α) : Prop :=
  ∃ done later, ops = done ++ .attachFallback f :: later ∧
    ((ch.after done).perform (.attachFallback f)).2.result = .ok []

theorem sealedBy_cons {op : Operation α} {ops : List (Operation α)} {f : Call α} :
    ch.SealedBy (op :: ops) f ↔
      (op = .attachFallback f ∧ (ch.perform op).2.result = .ok []) ∨
        (ch.perform op).1.SealedBy ops f := by
  constructor
  · rintro ⟨done, later, hops, hresult⟩
    cases done with
    | nil =>
      cases hops
      exact .inl ⟨rfl, hresult⟩
    | cons op' done =>
      cases hops
      exact .inr ⟨done, later, rfl, hresult⟩
  · rintro (⟨rfl, hresult⟩ | ⟨done, later, rfl, hresult⟩)
    · exact ⟨[], ops, rfl, hresult⟩
    · exact ⟨op :: done, later, rfl, hresult⟩

theorem phase_after_eq_ready_iff (hch : ch.Settled) (ops : List (Operation α)) (f : Call α) :
    (ch.after ops).phase = .ready f ↔ ch.phase = .ready f ∨ ch.SealedBy ops f := by
  induction ops generalizing ch with
  | nil => simp [after, SealedBy]
  | cons op ops ih =>
    have heffect := effect_perform hch op
    rw [after, ih (heffect.settled hch), heffect.phase_eq_ready_iff, sealedBy_cons, or_assoc]

/-! ## Looking ahead -/

/-- What the chain comes to when further clauses are appended and it is sealed: all its
arms, or the error of the first clause that fails. -/
def prospect (ch : Chain α) (later : List (Clause × Body α)) :
    Except ChainError (List (Arm α)) :=
  match ch.phase with
  | .poisoned e => .error e
  | _ =>
    match compileAll ch.registry ch.limit (ch.pending ++ later) with
    | .error cause => .error (.clause cause)
    | .ok more => .ok (ch.arms ++ more)

/-- The prospect of a chain that nothing has been done to. -/
theorem prospect_unbound_eq_ok_iff {cs : List (Clause × Body α)} {arms : List (Arm α)} :
    (unbound r limit).prospect cs = .ok arms ↔ compileAll r limit cs = .ok arms := by
  simp only [prospect, unbound, pending, List.nil_append]
  cases compileAll r limit cs <;> simp

theorem prospect_unbound_eq_error_iff {cs : List (Clause × Body α)} {e : ChainError} :
    (unbound r limit).prospect cs = .error e ↔ Lowest (FailsAt r limit cs) e := by
  rw [← compileAll_eq_error_iff]
  simp only [prospect, unbound, pending, List.nil_append]
  cases compileAll r limit cs <;> simp [eq_comm]

section Lazy

variable {op : Operation α} {ch' : Chain α} {report : Report α (List (Call α))}

/-- Short of sealing, no operation changes what becomes of a lazy chain. -/
theorem Effect.prospect (h : Effect ch op ch' report) (hlazy : ch.mode.kind = .lazy)
    (hopen : ch.isReady = false) (hop : op.seals = false) (later : List (Clause × Body α)) :
    ch'.isReady = false ∧ ch.prospect (op.clause?.toList ++ later) = ch'.prospect later := by
  cases h with
  | asked asks =>
    rw [clause?_eq_none asks]
    exact ⟨hopen, rfl⟩
  | repeated _ phase => exact ⟨hopen, by simp [Chain.prospect, phase]⟩
  | closed phase => simp [isReady, phase] at hopen
  | duplicate | sealedLazy | sealedAnswered | sealedUnanswered => cases hop
  | uncompiled _ mode | unextracted _ mode | hit _ mode | passed _ mode =>
    rw [mode] at hlazy
    cases hlazy
  | deferred phase mode =>
    refine ⟨by simp [isReady, phase], ?_⟩
    simp [Chain.prospect, phase, pending, mode, Operation.clause?]
  | idle phase compiled => simp [hopen, hlazy] at compiled
  | committed phase mode compile =>
    refine ⟨by simp [isReady, phase], ?_⟩
    simp only [Chain.prospect, phase, pending, mode, Operation.clause?, Option.toList_none,
      List.nil_append, compileAll_append, compile]
    cases compileAll ch.registry ch.limit later with
    | error cause => rfl
    | ok others => simp only [Except.map, List.append_assoc]
  | rejected _ phase mode compile =>
    refine ⟨rfl, ?_⟩
    simp only [Chain.prospect, phase, pending, mode, compileAll_append_error compile]

/-- Sealing a lazy chain brings about its prospect. -/
theorem Effect.sealed {f : Call α} (h : Effect ch (.attachFallback f) ch' report)
    (hlazy : ch.mode.kind = .lazy) (hopen : ch.isReady = false) :
    report.result = (ch.prospect []).map (fun _ => []) ∧
      ∀ arms, ch.prospect [] = .ok arms → ch'.arms = arms := by
  cases h with
  | asked asks => cases asks
  | repeated _ phase => simp [Chain.prospect, phase, Except.map]
  | duplicate phase => simp [isReady, phase] at hopen
  | rejected _ phase mode compile =>
    simp [Chain.prospect, phase, pending, mode, compile, Except.map]
  | sealedLazy phase mode compile =>
    simp [Chain.prospect, phase, pending, mode, compile, Except.map]
  | sealedAnswered _ mode | sealedUnanswered _ mode =>
    rw [mode] at hlazy
    cases hlazy

/-- An operation that builds and fails reports the error that is in prospect anyway. -/
theorem Effect.foretold (h : Effect ch op ch' report) (hlazy : ch.mode.kind = .lazy)
    (hopen : ch.isReady = false) (hbuilds : op.builds = true) {e : ChainError}
    (he : report.result = .error e) (later : List (Clause × Body α)) :
    ch.prospect later = .error e := by
  cases h with
  | asked asks => simp [asks] at hbuilds
  | repeated _ phase =>
    cases he
    simp [Chain.prospect, phase]
  | closed phase | duplicate phase => simp [isReady, phase] at hopen
  | rejected _ phase mode compile =>
    cases he
    simp only [Chain.prospect, phase, pending, mode, compileAll_append_error compile]
  | uncompiled _ mode | unextracted _ mode =>
    rw [mode] at hlazy
    cases hlazy
  | _ => cases he

end Lazy

theorem prospect_after (hch : ch.Settled) (hlazy : ch.mode.kind = .lazy)
    (hopen : ch.isReady = false) {ops : List (Operation α)}
    (hops : ∀ op ∈ ops, op.seals = false) (later : List (Clause × Body α)) :
    (ch.after ops).isReady = false ∧
      ch.prospect (requested ops ++ later) = (ch.after ops).prospect later := by
  induction ops generalizing ch with
  | nil => exact ⟨hopen, rfl⟩
  | cons op ops ih =>
    have heffect := effect_perform hch op
    have hop := hops op List.mem_cons_self
    obtain ⟨hopen', hstep⟩ := heffect.prospect hlazy hopen hop (requested ops ++ later)
    rw [requested_cons, List.append_assoc, hstep]
    exact ih (heffect.settled hch) (heffect.kept.2.2.trans hlazy) hopen' fun op' hop' =>
      hops op' (List.mem_cons_of_mem _ hop')

/-! ## Sealed chains -/

/-- The chain is finished, and its arms are these clauses, each as it compiles on its
own. -/
structure Complete (ch : Chain α) (r : Registry) (limit : Nat) (cs : List (Clause × Body α)) :
    Prop where
  unfailed : ∀ e, ch.phase ≠ .poisoned e
  compiled : ch.pending = []
  size_eq : ch.size = ch.arms.length
  length_eq : ch.arms.length = cs.length
  arm : ∀ (i : Nat) (c : Clause) (body : Body α), cs[i]? = some (c, body) →
    ∃ arm, ch.arms[i]? = some arm ∧ c.compile r limit body = .ok arm

/-- No operation of the history that builds fails because of a clause. -/
def Unfailing (ch : Chain α) (ops : List (Operation α)) : Prop :=
  ∀ done op later, ops = done ++ op :: later → op.builds = true →
    ∀ e, ((ch.after done).perform op).2.result = .error e → e.ofClause = false

theorem pending_eq_nil (hch : ch.Settled) (hready : ch.isReady = true) : ch.pending = [] := by
  obtain ⟨f, hphase⟩ := isReady_iff.mp hready
  unfold pending
  split
  · exact hch f _ hphase ‹_›
  · rfl

theorem accounts_start (r : Registry) (limit : Nat) (bound? : Option Value) :
    (start r limit bound? : Chain α).Accounts [] := by
  intro _
  cases bound? with
  | none => exact ⟨rfl, [], rfl, rfl⟩
  | some v => exact ⟨rfl, [], rfl, rfl⟩

theorem complete_of_isReady {bound? : Option Value} {ops : List (Operation α)}
    (hready : ((start r limit bound?).after ops).isReady = true) :
    ((start r limit bound?).after ops).Complete r limit ((start r limit bound?).accepted ops) := by
  have hfresh : (start r limit bound? : Chain α).Settled := settled_start r limit bound?
  have hpending := pending_eq_nil (settled_after hfresh ops) hready
  have hunfailed : ∀ e, ((start r limit bound?).after ops).phase ≠ .poisoned e := by
    obtain ⟨f, hphase⟩ := isReady_iff.mp hready
    simp [hphase]
  obtain ⟨hsize, done, hdone, harms⟩ :=
    accounts_after hfresh (accounts_start r limit bound?) ops hunfailed
  rw [hpending, List.append_nil, List.nil_append] at hdone
  obtain ⟨hregistry, hlimit, -⟩ := kept_after hfresh ops
  rw [hregistry, hlimit, ← hdone] at harms
  have hkept : (start r limit bound? : Chain α).registry = r ∧
      (start r limit bound? : Chain α).limit = limit := by
    cases bound? <;> exact ⟨rfl, rfl⟩
  rw [hkept.1, hkept.2] at harms
  obtain ⟨hlen, harm⟩ := compileAll_pointwise harms
  rw [List.nil_append] at hsize
  exact ⟨hunfailed, hpending, hsize.trans hlen.symm, hlen, harm⟩

/-- A clause that failed would have poisoned the chain for good. -/
theorem unfailing_of_isReady (hch : ch.Settled) {ops : List (Operation α)}
    (hready : (ch.after ops).isReady = true) : ch.Unfailing ops := by
  intro done op later hops hbuilds e he
  cases hclause : e.ofClause with
  | false => rfl
  | true =>
    have heffect := effect_perform (settled_after hch done) op
    have hphase := (heffect.poisons he hbuilds hclause).1
    rw [hops, after_append, after, after_of_poisoned hphase,
      (stuck_of_poisoned hphase).notReady] at hready
    cases hready

section Unbound

variable {ops : List (Operation α)} (hops : ∀ op ∈ ops, op.seals = false) (f : Call α)
include hops

/-- Sealing a lazy chain brings about what was in prospect before anything was done to
it. -/
theorem sealed_unbound (r : Registry) (limit : Nat) :
    let sealed := ((unbound r limit).after ops).perform (.attachFallback f)
    sealed.2.result = ((unbound r limit).prospect (requested ops)).map (fun _ => []) ∧
      ∀ arms, (unbound r limit).prospect (requested ops) = .ok arms → sealed.1.arms = arms := by
  intro sealed
  have hfresh : (unbound r limit : Chain α).Settled := settled_start r limit none
  have heffect := effect_perform (settled_after hfresh ops) (.attachFallback f)
  obtain ⟨hopen, hprospect⟩ := prospect_after hfresh rfl rfl hops []
  rw [List.append_nil] at hprospect
  rw [hprospect]
  exact heffect.sealed (kept_after hfresh ops).2.2 hopen

theorem sealed_unbound_eq_ok_iff (arms : List (Arm α)) :
    let sealed := ((unbound r limit).after ops).perform (.attachFallback f)
    sealed.2.result = .ok [] ∧ sealed.1.arms = arms ↔
      compileAll r limit (requested ops) = .ok arms := by
  intro sealed
  obtain ⟨hresult, harms⟩ := sealed_unbound hops f r limit
  rw [← prospect_unbound_eq_ok_iff]
  constructor
  · rintro ⟨hok, rfl⟩
    cases hprospect : (unbound r limit).prospect (requested ops) with
    | error e =>
      rw [hprospect, hok] at hresult
      cases hresult
    | ok arms => rw [harms arms hprospect]
  · intro hprospect
    rw [hprospect] at hresult
    exact ⟨hresult, harms arms hprospect⟩

theorem sealed_unbound_eq_error_iff (e : ChainError) :
    (((unbound r limit).after ops).perform (.attachFallback f)).2.result = .error e ↔
      Lowest (FailsAt r limit (requested ops)) e := by
  rw [(sealed_unbound hops f r limit).1, ← prospect_unbound_eq_error_iff]
  cases (unbound r limit).prospect (requested ops) <;> simp [Except.map]

end Unbound

/-- After any history a chain is sealed exactly when a fallback was attached, and stays
so.  It then holds the clauses that were appended, all and in order.  For a lazy chain the
outcome of sealing is that of compiling all clauses it was asked for, wherever some of
them were compiled before.  (What a chain that fails has compiled by then does depend on
that, but such a chain is never sealed.) -/
theorem sealed_complete (r : Registry) (limit : Nat) (bound? : Option Value)
    (ops : List (Operation α)) :
    let fresh : Chain α := start r limit bound?
    let ch := fresh.after ops
    (ch.isReady = true ↔ ∃ f, fresh.SealedBy ops f) ∧
      (ch.isReady = true →
        (∀ later, (ch.after later).isReady = true) ∧
          ch.Complete r limit (fresh.accepted ops) ∧ fresh.Unfailing ops) ∧
      (bound? = none → (∀ op ∈ ops, op.seals = false) → ∀ f : Call α,
        let sealed := ch.perform (.attachFallback f)
        (∀ arms, sealed.2.result = .ok [] ∧ sealed.1.arms = arms ↔
            compileAll r limit (requested ops) = .ok arms) ∧
          (∀ e, sealed.2.result = .error e ↔ Lowest (FailsAt r limit (requested ops)) e) ∧
          (∀ op e, op.builds = true → (ch.perform op).2.result = .error e →
            Lowest (FailsAt r limit (requested ops)) e) ∧
          ∀ ops', (∀ op ∈ ops', op.seals = false) → requested ops' = requested ops →
            let other := (fresh.after ops').perform (.attachFallback f)
            other.2.result = sealed.2.result ∧
              (sealed.2.result = .ok [] → other.1.arms = sealed.1.arms)) := by
  intro fresh ch
  have hfresh : fresh.Settled := settled_start r limit bound?
  refine ⟨?sealed, fun hready => ⟨fun later => ?stays, ?complete, ?unfailing⟩, ?lazy⟩
  case sealed =>
    have hopen : ∀ f, fresh.phase ≠ .ready f := by
      intro f
      cases bound? <;> exact nofun
    rw [isReady_iff]
    refine exists_congr fun f => ?_
    rw [phase_after_eq_ready_iff hfresh, or_iff_right (hopen f)]
  case stays =>
    obtain ⟨f, hphase⟩ := isReady_iff.mp hready
    exact isReady_iff.mpr
      ⟨f, (phase_after_eq_ready_iff (settled_after hfresh ops) later f).mpr (.inl hphase)⟩
  case complete => exact complete_of_isReady hready
  case unfailing => exact unfailing_of_isReady hfresh hready
  case lazy =>
    rintro rfl hops f sealed
    refine ⟨sealed_unbound_eq_ok_iff hops f, sealed_unbound_eq_error_iff hops f, ?_, ?_⟩
    · intro op e hbuilds he
      obtain ⟨hopen, hprospect⟩ := prospect_after hfresh rfl rfl hops []
      have heffect := effect_perform (settled_after hfresh ops) op
      have hforetold := heffect.foretold (kept_after hfresh ops).2.2 hopen hbuilds he []
      rw [List.append_nil] at hprospect
      exact prospect_unbound_eq_error_iff.mp (hprospect.trans hforetold)
    · intro ops' hops' hsame other
      obtain ⟨hresult, -⟩ := sealed_unbound hops f r limit
      obtain ⟨hresult', harms'⟩ := sealed_unbound hops' f r limit
      rw [hsame] at hresult' harms'
      refine ⟨hresult'.trans hresult.symm, fun hok => harms' _ ?_⟩
      exact prospect_unbound_eq_ok_iff.mpr ((sealed_unbound_eq_ok_iff hops f _).mp ⟨hok, rfl⟩)

/-- Two clauses, the first of them compiled ahead of the second. -/
def compiledBetween (c : Clause) : List (Operation Value) :=
  [.append abscissaOnly Clause.echo, .compile, .append c Clause.echo, .evaluate point]

/-- A clause whose parameter its shape does not mention. -/
def unmentioned : Clause := .ofParams ["a"] .discard

theorem sealed_complete_compiledBetween :
    let fallback : Call Value := ⟨"fallback", .unit⟩
    let ops := compiledBetween Clause.abscissaClause
    ((unbound Clause.points 3).after (ops ++ [.attachFallback fallback])).Complete Clause.points 3
        [(abscissaOnly, Clause.echo), (Clause.abscissaClause, Clause.echo)] ∧
      (((unbound Clause.points 3).after (compiledBetween unmentioned)).perform
        (.attachFallback fallback)).2.result = .error (.clause (.unboundParam "a")) ∧
      Lowest (FailsAt Clause.points 3 [(abscissaOnly, Clause.echo), (unmentioned, Clause.echo)])
        (.clause (.unboundParam "a")) := by
  intro fallback ops
  obtain ⟨-, hready, -⟩ :=
    sealed_complete Clause.points 3 none (ops ++ [.attachFallback fallback])
  obtain ⟨-, -, hlazy⟩ := sealed_complete Clause.points 3 none (compiledBetween unmentioned)
  obtain ⟨-, herror, -, -⟩ := hlazy rfl (by decide) fallback
  exact ⟨(hready rfl).2.1, rfl, (herror _).mp rfl⟩

end Chain
end Destructure
