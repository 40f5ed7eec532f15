/-
Eager and lazy chains agree.

Building a chain of either mode is described by a recursion on the clauses that does not
mention chains.  For a lazy chain it is `compileAll`, for an eager chain that has its
answer already as well, and for an eager chain still without one it is `compileAll`
together with `answer` on the bound value.  So the two modes end in the same arms and
the same answer.  They differ in when they fail only: an eager chain may fail where a
clause cannot extract from the bound value, which a lazy chain meets when it is
evaluated.
-/
import Destructure.Proofs.Chain.Evaluation

namespace Destructure
namespace Chain

variable {α : Type} {r : Registry} {limit : Nat} {v : Value} {f : Call α}
  {cs : List (Clause × Body α)} {c : Clause} {body : Body α} {arm : Arm α} {e : ChainError}

/-! ## Building a lazy chain -/

theorem compileAll_cons_error {cause : ClauseError} (h : c.compile r limit body = .error cause) :
    compileAll r limit ((c, body) :: cs) = .error cause := by
  simp only [compileAll, h]

theorem compileAll_cons_ok (h : c.compile r limit body = .ok arm) :
    compileAll r limit ((c, body) :: cs) = (compileAll r limit cs).map (arm :: ·) := by
  simp only [compileAll, h]

/-- Sealing a chain once all its clauses compiled. -/
def finish (r : Registry) (limit : Nat) (mode : Mode α) (arms : List (Arm α)) (size : Nat)
    (f : Call α) : Except ClauseError (List (Arm α)) → Except ChainError (Chain α)
  | .error cause => .error (.clause cause)
  | .ok more => .ok ⟨r, limit, mode, .ready f, arms ++ more, size⟩

/-- What a lazy chain has put off is compiled together with the clauses still to come. -/
theorem build_lazy (pending : List (Clause × Body α)) (arms : List (Arm α)) (size : Nat) :
    build ⟨r, limit, .lazy pending, .building, arms, size⟩ cs f =
      finish r limit (.lazy []) arms (size + cs.length) f (compileAll r limit (pending ++ cs)) := by
  induction cs generalizing pending size with
  | nil =>
    rw [List.append_nil]
    cases hall : compileAll r limit pending with
    | error cause => simp only [build, attachFallback, Chain.compile, hall, poison, finish]
    | ok more =>
      simp only [build, attachFallback, Chain.compile, hall, accept, attach, finish]
      rfl
  | cons entry cs ih =>
    have hsize : size + (cs.length + 1) = size + 1 + cs.length := by omega
    rw [List.length_cons, hsize, List.append_cons]
    exact ih (pending ++ [entry]) (size + 1)

/-! ## Building an eager chain -/

section Eager

variable (result : Option (Call α)) (arms : List (Arm α)) (size : Nat)

theorem build_eager_uncompiled {cause : ClauseError} (h : c.compile r limit body = .error cause) :
    build ⟨r, limit, .eager v result, .building, arms, size⟩ ((c, body) :: cs) f =
      .error (.clause cause) := by
  simp only [build, append, h, poison]

theorem build_eager_passed (h : c.compile r limit body = .ok arm)
    (huntried : result ≠ none ∨ arm.accepts v = false) :
    build ⟨r, limit, .eager v result, .building, arms, size⟩ ((c, body) :: cs) f =
      build ⟨r, limit, .eager v result, .building, arms ++ [arm], size + 1⟩ cs f := by
  have hskip : (result.isNone && arm.accepts v) = false := by
    rcases huntried with h | h
    · simp [h]
    · simp [h]
  simp only [build, append, h, tryArm, hskip, Bool.false_eq_true, if_false, accept]

theorem build_eager_unextracted {cause : ExtractError} (h : c.compile r limit body = .ok arm)
    (haccepts : arm.accepts v = true) (hextract : arm.extract v = .error cause) :
    build ⟨r, limit, .eager v none, .building, arms, size⟩ ((c, body) :: cs) f =
      .error (.extract cause) := by
  simp [build, append, h, tryArm, haccepts, hextract, poison]

theorem build_eager_hit {call : Call α} (h : c.compile r limit body = .ok arm)
    (haccepts : arm.accepts v = true) (hextract : arm.extract v = .ok call) :
    build ⟨r, limit, .eager v none, .building, arms, size⟩ ((c, body) :: cs) f =
      build ⟨r, limit, .eager v (some call), .building, arms ++ [arm], size + 1⟩ cs f := by
  simp [build, append, h, tryArm, haccepts, hextract, accept]

end Eager

theorem build_eager_answered (call : Call α) (arms : List (Arm α)) (size : Nat) :
    build ⟨r, limit, .eager v (some call), .building, arms, size⟩ cs f =
      finish r limit (.eager v (some call)) arms (size + cs.length) f (compileAll r limit cs) := by
  induction cs generalizing arms size with
  | nil => simp [build, attachFallback, Chain.compile, accept, attach, compileAll, finish]
  | cons entry cs ih =>
    obtain ⟨c, body⟩ := entry
    have hsize : size + (cs.length + 1) = size + 1 + cs.length := by omega
    rw [List.length_cons, hsize]
    cases hcompile : c.compile r limit body with
    | error cause =>
      rw [build_eager_uncompiled _ _ _ hcompile, compileAll_cons_error hcompile, finish]
    | ok arm =>
      rw [build_eager_passed _ _ _ hcompile (.inl (Option.some_ne_none call)), ih,
        compileAll_cons_ok hcompile]
      cases compileAll r limit cs with
      | error cause => rfl
      | ok more => simp only [finish, Except.map, List.append_assoc, List.singleton_append]

section Answer

variable {more : List (Arm α)}

theorem answer_cons_passed (h : arm.accepts v = false) :
    answer (arm :: more) f v = answer more f v := by
  simp [answer, h]

theorem answer_cons_error {cause : ExtractError} (h : arm.accepts v = true)
    (hextract : arm.extract v = .error cause) :
    answer (arm :: more) f v = .error (.extract cause) := by
  simp [answer, h, hextract]

theorem answer_cons_hit {call : Call α} (h : arm.accepts v = true)
    (hextract : arm.extract v = .ok call) : answer (arm :: more) f v = .ok call := by
  simp [answer, h, hextract]

end Answer

/-- An eager chain without an answer is sealed when all clauses compile and what they
answer to the bound value is no error. -/
theorem build_eager_eq_ok_iff (arms : List (Arm α)) (size : Nat) {ch : Chain α} :
    build ⟨r, limit, .eager v none, .building, arms, size⟩ cs f = .ok ch ↔
      ∃ more call, compileAll r limit cs = .ok more ∧ answer more f v = .ok call ∧
        ⟨r, limit, .eager v (some call), .ready f, arms ++ more, size + cs.length⟩ = ch := by
  induction cs generalizing arms size with
  | nil => simp [build, attachFallback, Chain.compile, accept, attach, compileAll, answer]
  | cons entry cs ih =>
    obtain ⟨c, body⟩ := entry
    have hsize : size + (cs.length + 1) = size + 1 + cs.length := by omega
    rw [List.length_cons, hsize]
    cases hcompile : c.compile r limit body with
    | error cause =>
      rw [build_eager_uncompiled _ _ _ hcompile, compileAll_cons_error hcompile]
      simp
    | ok arm =>
      rw [compileAll_cons_ok hcompile]
      cases haccepts : arm.accepts v with
      | false =>
        rw [build_eager_passed _ _ _ hcompile (.inr haccepts), ih]
        cases compileAll r limit cs with
        | error cause => simp [Except.map]
        | ok more => simp [Except.map, answer_cons_passed haccepts]
      | true =>
        cases hextract : arm.extract v with
        | error cause =>
          rw [build_eager_unextracted _ _ hcompile haccepts hextract]
          cases compileAll r limit cs with
          | error cause => simp [Except.map]
          | ok more => simp [Except.map, answer_cons_error haccepts hextract]
        | ok call =>
          rw [build_eager_hit _ _ hcompile haccepts hextract, build_eager_answered]
          cases compileAll r limit cs with
          | error cause => simp [finish, Except.map]
          | ok more => simp [finish, Except.map, answer_cons_hit haccepts hextract]

/-! ## The first fault -/

/-- The fault with the lowest index. -/
def Lowest (fault : Nat → ChainError → Prop) (e : ChainError) : Prop :=
  ∃ i, fault i e ∧ ∀ j < i, ∀ e', ¬ fault j e'

theorem lowest_iff_zero_or_succ {fault : Nat → ChainError → Prop} :
    Lowest fault e ↔
      fault 0 e ∨ (∀ e', ¬ fault 0 e') ∧ Lowest (fun i => fault (i + 1)) e := by
  constructor
  · rintro ⟨i, hi, hbefore⟩
    cases i with
    | zero => exact .inl hi
    | succ i =>
      refine .inr ⟨hbefore 0 (by omega), i, hi, fun j hj => hbefore (j + 1) (by omega)⟩
  · rintro (hzero | ⟨hzero, i, hi, hbefore⟩)
    · exact ⟨0, hzero, fun j hj => absurd hj (by omega)⟩
    · refine ⟨i + 1, hi, fun j hj => ?_⟩
      cases j with
      | zero => exact hzero
      | succ j => exact hbefore j (by omega)

theorem lowest_congr {fault other : Nat → ChainError → Prop}
    (h : ∀ i e, fault i e ↔ other i e) : Lowest fault e ↔ Lowest other e := by
  have heq : fault = other := funext fun i => funext fun e => propext (h i e)
  rw [heq]

def CompilesAt (r : Registry) (limit : Nat) (cs : List (Clause × Body α)) (i : Nat)
    (arm : Arm α) : Prop :=
  ∃ c body, cs[i]? = some (c, body) ∧ c.compile r limit body = .ok arm

def FailsAt (r : Registry) (limit : Nat) (cs : List (Clause × Body α)) (i : Nat)
    (e : ChainError) : Prop :=
  ∃ c body cause, cs[i]? = some (c, body) ∧ c.compile r limit body = .error cause ∧
    e = .clause cause

/-- The clause at the index is the first that accepts the value. -/
def FirstHit (r : Registry) (limit : Nat) (v : Value) (cs : List (Clause × Body α)) (i : Nat)
    (arm : Arm α) : Prop :=
  CompilesAt r limit cs i arm ∧ arm.accepts v = true ∧
    ∀ j < i, ∀ other, CompilesAt r limit cs j other → other.accepts v = false

/-- The clause at the index does not compile, or it is the first that accepts the value
and cannot extract from it. -/
def FaultyAt (r : Registry) (limit : Nat) (v : Value) (cs : List (Clause × Body α)) (i : Nat)
    (e : ChainError) : Prop :=
  FailsAt r limit cs i e ∨
    ∃ arm cause, FirstHit r limit v cs i arm ∧ arm.extract v = .error cause ∧ e = .extract cause

theorem failsAt_zero : FailsAt r limit ((c, body) :: cs) 0 e ↔
    ∃ cause, c.compile r limit body = .error cause ∧ e = .clause cause := by
  constructor
  · rintro ⟨c', body', cause, hentry, hcompile, he⟩
    cases hentry
    exact ⟨cause, hcompile, he⟩
  · rintro ⟨cause, hcompile, he⟩
    exact ⟨c, body, cause, rfl, hcompile, he⟩

section Cons

theorem compilesAt_zero (h : c.compile r limit body = .ok arm) {other : Arm α}
    (hother : CompilesAt r limit ((c, body) :: cs) 0 other) : other = arm := by
  obtain ⟨c', body', hentry, hcompile⟩ := hother
  cases hentry
  rw [h] at hcompile
  cases hcompile
  rfl

theorem firstHit_zero : FirstHit r limit v ((c, body) :: cs) 0 arm ↔
    c.compile r limit body = .ok arm ∧ arm.accepts v = true := by
  constructor
  · rintro ⟨⟨c', body', hentry, hcompile⟩, haccepts, -⟩
    cases hentry
    exact ⟨hcompile, haccepts⟩
  · rintro ⟨hcompile, haccepts⟩
    exact ⟨⟨c, body, rfl, hcompile⟩, haccepts, fun j hj => absurd hj (by omega)⟩

theorem firstHit_succ (h : c.compile r limit body = .ok arm) {i : Nat} {other : Arm α} :
    FirstHit r limit v ((c, body) :: cs) (i + 1) other ↔
      arm.accepts v = false ∧ FirstHit r limit v cs i other := by
  constructor
  · rintro ⟨hcompiles, haccepts, hbefore⟩
    have hhead : arm.accepts v = false := hbefore 0 (by omega) arm ⟨c, body, rfl, h⟩
    exact ⟨hhead, hcompiles, haccepts, fun j hj => hbefore (j + 1) (by omega)⟩
  · rintro ⟨hhead, hcompiles, haccepts, hbefore⟩
    refine ⟨hcompiles, haccepts, fun j hj arm' hj' => ?_⟩
    cases j with
    | zero => rwa [compilesAt_zero h hj']
    | succ j => exact hbefore j (by omega) arm' hj'

theorem faultyAt_zero_of_error {cause : ClauseError} (h : c.compile r limit body = .error cause) :
    FaultyAt r limit v ((c, body) :: cs) 0 e ↔ e = .clause cause := by
  simp [FaultyAt, failsAt_zero, firstHit_zero, h]

theorem faultyAt_zero_of_ok (h : c.compile r limit body = .ok arm) :
    FaultyAt r limit v ((c, body) :: cs) 0 e ↔
      arm.accepts v = true ∧ ∃ cause, arm.extract v = .error cause ∧ e = .extract cause := by
  simp [FaultyAt, failsAt_zero, firstHit_zero, h, and_assoc]

theorem faultyAt_succ_of_passed (h : c.compile r limit body = .ok arm)
    (haccepts : arm.accepts v = false) (i : Nat) (e : ChainError) :
    FaultyAt r limit v ((c, body) :: cs) (i + 1) e ↔ FaultyAt r limit v cs i e := by
  refine or_congr Iff.rfl (exists_congr fun other => exists_congr fun cause => ?_)
  rw [firstHit_succ h, and_iff_right haccepts]

/-- Behind a clause that accepts the value only a failing compile counts. -/
theorem faultyAt_succ_of_hit (h : c.compile r limit body = .ok arm)
    (haccepts : arm.accepts v = true) (i : Nat) (e : ChainError) :
    FaultyAt r limit v ((c, body) :: cs) (i + 1) e ↔ FailsAt r limit cs i e := by
  refine or_iff_left_of_imp ?_
  rintro ⟨other, cause, hhit, -, -⟩
  have hpassed := ((firstHit_succ h).mp hhit).1
  simp [haccepts] at hpassed

end Cons

theorem finish_eq_error_iff {mode : Mode α} {arms : List (Arm α)} {size : Nat}
    {compiled : Except ClauseError (List (Arm α))} :
    finish r limit mode arms size f compiled = .error e ↔
      ∃ cause, compiled = .error cause ∧ e = .clause cause := by
  cases compiled with
  | error cause => simp [finish, eq_comm]
  | ok more => simp [finish]

theorem finish_eq_ok_iff {mode : Mode α} {arms : List (Arm α)} {size : Nat}
    {compiled : Except ClauseError (List (Arm α))} {ch : Chain α} :
    finish r limit mode arms size f compiled = .ok ch ↔
      ∃ more, compiled = .ok more ∧ ⟨r, limit, mode, .ready f, arms ++ more, size⟩ = ch := by
  cases compiled with
  | error cause => simp [finish]
  | ok more => simp [finish]

/-- Compiling clauses in order fails with the first that does not compile. -/
theorem compileAll_eq_error_iff (cs : List (Clause × Body α)) :
    (∃ cause, compileAll r limit cs = .error cause ∧ e = .clause cause) ↔
      Lowest (FailsAt r limit cs) e := by
  induction cs with
  | nil => simp [compileAll, Lowest, FailsAt]
  | cons entry cs ih =>
    obtain ⟨c, body⟩ := entry
    have hrest : Lowest (fun i => FailsAt r limit ((c, body) :: cs) (i + 1)) e ↔
        Lowest (FailsAt r limit cs) e := lowest_congr fun i e => Iff.rfl
    rw [lowest_iff_zero_or_succ, hrest, ← ih]
    simp only [failsAt_zero]
    cases hcompile : c.compile r limit body with
    | error cause => simp [compileAll_cons_error hcompile]
    | ok arm =>
      rw [compileAll_cons_ok hcompile]
      cases compileAll r limit cs <;> simp [Except.map]

/-- An eager chain without an answer fails with the first fault. -/
theorem build_eager_eq_error_iff (arms : List (Arm α)) (size : Nat) :
    build ⟨r, limit, .eager v none, .building, arms, size⟩ cs f = .error e ↔
      Lowest (FaultyAt r limit v cs) e := by
  induction cs generalizing arms size with
  | nil =>
    simp [build, attachFallback, Chain.compile, accept, attach, Lowest, FaultyAt, FailsAt,
      FirstHit, CompilesAt]
  | cons entry cs ih =>
    obtain ⟨c, body⟩ := entry
    rw [lowest_iff_zero_or_succ]
    cases hcompile : c.compile r limit body with
    | error cause =>
      rw [build_eager_uncompiled _ _ _ hcompile]
      simp only [faultyAt_zero_of_error hcompile]
      simp [eq_comm]
    | ok arm =>
      simp only [faultyAt_zero_of_ok hcompile]
      cases haccepts : arm.accepts v with
      | false =>
        rw [build_eager_passed _ _ _ hcompile (.inr haccepts), ih,
          lowest_congr (faultyAt_succ_of_passed hcompile haccepts)]
        simp
      | true =>
        cases hextract : arm.extract v with
        | error cause =>
          rw [build_eager_unextracted _ _ hcompile haccepts hextract]
          simp [eq_comm]
        | ok call =>
          rw [build_eager_hit _ _ hcompile haccepts hextract, build_eager_answered,
            finish_eq_error_iff, compileAll_eq_error_iff,
            lowest_congr (faultyAt_succ_of_hit hcompile haccepts)]
          simp

/-! ## The answer -/

/-- The call comes from the first clause that accepts the value, or it is the fallback and
there is no such clause. -/
def AnsweredBy (r : Registry) (limit : Nat) (v : Value) (cs : List (Clause × Body α))
    (f call : Call α) : Prop :=
  (∃ i arm, FirstHit r limit v cs i arm ∧ arm.extract v = .ok call) ∨
    (∀ i arm, CompilesAt r limit cs i arm → arm.accepts v = false) ∧ call = f

theorem answeredBy_of_answer {more : List (Arm α)} {call : Call α}
    (hall : compileAll r limit cs = .ok more) (h : answer more f v = .ok call) :
    AnsweredBy r limit v cs f call := by
  induction cs generalizing more with
  | nil =>
    cases hall
    cases h
    exact .inr ⟨fun i arm ⟨c, body, hentry, _⟩ => by simp at hentry, rfl⟩
  | cons entry cs ih =>
    obtain ⟨c, body⟩ := entry
    obtain ⟨arm, rest, hcompile, hrest, rfl⟩ := compileAll_cons_eq_ok hall
    cases haccepts : arm.accepts v with
    | true =>
      cases hextract : arm.extract v with
      | error cause => simp [answer_cons_error haccepts hextract] at h
      | ok call' =>
        rw [answer_cons_hit haccepts hextract] at h
        cases h
        exact .inl ⟨0, arm, firstHit_zero.mpr ⟨hcompile, haccepts⟩, hextract⟩
    | false =>
      rw [answer_cons_passed haccepts] at h
      rcases ih hrest h with ⟨i, other, hhit, hextract⟩ | ⟨hnone, hcall⟩
      · exact .inl ⟨i + 1, other, (firstHit_succ hcompile).mpr ⟨haccepts, hhit⟩, hextract⟩
      · refine .inr ⟨fun i other hother => ?_, hcall⟩
        cases i with
        | zero => rwa [compilesAt_zero hcompile hother]
        | succ i => exact hnone i other hother

/-! ## Both modes -/

/-- The operations of a build, when none of them fails. -/
def construction (cs : List (Clause × Body α)) (f : Call α) : List (Operation α) :=
  cs.map (fun entry => .append entry.1 entry.2) ++ [.attachFallback f]

theorem builds_of_mem_construction {op : Operation α} (h : op ∈ construction cs f) :
    op.builds = true := by
  rcases List.mem_append.mp h with h | h
  · obtain ⟨entry, -, rfl⟩ := List.mem_map.mp h
    rfl
  · rw [List.mem_singleton.mp h]
    rfl

theorem after_construction {ch ch' : Chain α} (h : ch.build cs f = .ok ch') :
    ch.after (construction cs f) = ch' := by
  induction cs generalizing ch with
  | nil =>
    show (ch.attachFallback f).1 = ch'
    rcases hattach : ch.attachFallback f with ⟨next, result, calls⟩
    cases result with
    | error e => simp [build, hattach] at h
    | ok _ => simpa [build, hattach] using h
  | cons entry cs ih =>
    show (ch.append entry.1 entry.2).1.after (construction cs f) = ch'
    rcases happend : ch.append entry.1 entry.2 with ⟨next, result, calls⟩
    cases result with
    | error e => simp [build, happend] at h
    | ok _ => exact ih (by simpa [build, happend] using h)

/-- All that an eager chain runs while it is built is its answer. -/
theorem calls_construction_bound {ch : Chain α} {call : Call α}
    (h : (bound r limit v).build cs f = .ok ch) (hfrozen : ch.frozen? = some call) :
    (bound r limit v).calls (construction cs f) = [call] := by
  have hcalls := frozen_after (settled_start (α := α) r limit (some v)) rfl (construction cs f)
  have hafter : (start r limit (some v)).after (construction cs f) = ch := after_construction h
  rw [hafter, hfrozen] at hcalls
  exact hcalls.symm

theorem calls_construction_unbound {ch : Chain α} {call : Call α}
    (h : (unbound r limit).build cs f = .ok ch) (hevaluate : ch.evaluate v = .ok call) :
    (unbound r limit).calls (construction cs f ++ [.evaluate v]) = [call] := by
  have hnone : (unbound r limit).calls (construction cs f) = [] :=
    calls_eq_nil (settled_start r limit none) rfl fun op hop => builds_of_mem_construction hop
  have hlast : ch.calls [.evaluate v] = [call] := by
    simp [calls, reports, perform, hevaluate]
  rw [calls_append, hnone, after_construction h, hlast]
  rfl

/-- Two chains of different modes are built from the same clauses, the eager one for a
value.  It is sealed exactly when the lazy one is and then answers the value, with the
same answer from the same single run, and otherwise each reports its first fault. -/
theorem modes_agree (r : Registry) (limit : Nat) (v : Value) (cs : List (Clause × Body α))
    (f : Call α) :
    let eager := (bound r limit v).build cs f
    let lazy := (unbound r limit).build cs f
    ((∃ ch, eager = .ok ch ∧ ch.isReady = true) ↔
        ∃ ch call, lazy = .ok ch ∧ ch.isReady = true ∧ ch.evaluate v = .ok call) ∧
      (∀ ch ch', eager = .ok ch → lazy = .ok ch' →
        ch.arms = ch'.arms ∧ ∃ call, ch.result = .ok call ∧ ch'.evaluate v = .ok call ∧
          (bound r limit v).calls (construction cs f) = [call] ∧
          (unbound r limit).calls (construction cs f ++ [.evaluate v]) = [call] ∧
          AnsweredBy r limit v cs f call) ∧
      (∀ e, eager = .error e ↔ Lowest (FaultyAt r limit v cs) e) ∧
      ∀ e, lazy = .error e ↔ Lowest (FailsAt r limit cs) e := by
  intro eager lazy
  have heager : ∀ ch, eager = .ok ch ↔ ∃ more call, compileAll r limit cs = .ok more ∧
      answer more f v = .ok call ∧
        ⟨r, limit, .eager v (some call), .ready f, [] ++ more, 0 + cs.length⟩ = ch :=
    fun ch => build_eager_eq_ok_iff [] 0
  have hlazy : lazy = finish r limit (.lazy []) [] (0 + cs.length) f (compileAll r limit cs) :=
    build_lazy [] [] 0
  refine ⟨⟨?sealed, ?answers⟩, ?same, fun e => build_eager_eq_error_iff [] 0, fun e => ?first⟩
  case sealed =>
    rintro ⟨ch, hch, -⟩
    obtain ⟨more, call, hall, hanswer, -⟩ := (heager ch).mp hch
    exact ⟨_, call, hlazy.trans (finish_eq_ok_iff.mpr ⟨more, hall, rfl⟩), rfl, hanswer⟩
  case answers =>
    rintro ⟨ch, call, hch, -, hevaluate⟩
    obtain ⟨more, hall, rfl⟩ := finish_eq_ok_iff.mp (hlazy.symm.trans hch)
    exact ⟨_, (heager _).mpr ⟨more, call, hall, hevaluate, rfl⟩, rfl⟩
  case same =>
    -- Both chains end in the arms that compiling all clauses gives.
    intro ch ch' hch hch'
    obtain ⟨more, call, hall, hanswer, rfl⟩ := (heager ch).mp hch
    obtain ⟨more', hall', rfl⟩ := finish_eq_ok_iff.mp (hlazy.symm.trans hch')
    have hsame : more = more' := Except.ok.inj (hall.symm.trans hall')
    subst hsame
    exact ⟨rfl, call, rfl, hanswer, calls_construction_bound hch rfl,
      calls_construction_unbound hch' hanswer, answeredBy_of_answer hall hanswer⟩
  case first => rw [hlazy, finish_eq_error_iff, compileAll_eq_error_iff]

/-- A clause that points do not have the shape of, and one that they do. -/
def abscissae : List (Clause × Body Value) :=
  [(Clause.abscissaClause, Clause.echo), (abscissaOnly, Clause.echo)]

theorem modes_agree_abscissae :
    let echoed : Call Value := ⟨"echo", .int 3⟩
    let missing : ChainError := .extract (.noValueAt [.field 0 "x"])
    (∃ ch, (bound Clause.points 3 point).build abscissae ⟨"fallback", .unit⟩ = .ok ch ∧
      ch.isReady = true ∧ ch.result = .ok echoed) ∧
      AnsweredBy Clause.points 3 point abscissae ⟨"fallback", .unit⟩ echoed ∧
      Lowest (FaultyAt Clause.points 3 barePoint abscissae) missing := by
  intro echoed missing
  obtain ⟨-, hsame, -, -⟩ := modes_agree Clause.points 3 point abscissae ⟨"fallback", .unit⟩
  obtain ⟨-, -, hfault, -⟩ := modes_agree Clause.points 3 barePoint abscissae ⟨"fallback", .unit⟩
  obtain ⟨-, call, hresult, -, -, -, hanswered⟩ := hsame _ _ rfl rfl
  have hcall : echoed = call := Except.ok.inj hresult
  rw [← hcall] at hanswered
  exact ⟨⟨_, rfl, rfl, rfl⟩, hanswered, (hfault missing).mp rfl⟩

end Chain
end Destructure
