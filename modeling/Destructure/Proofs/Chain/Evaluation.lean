/-
Evaluating sealed chains.

All arms of a chain come from compiling clauses against its registry, whatever was done
to the chain.  What is known of a compiled clause therefore holds of each of them, and
in particular that it can extract its arguments from every conforming value that it
accepts.
-/
import Destructure.Proofs.Chain.Effect
import Destructure.Proofs.Clause.Agreement
import Destructure.Proofs.Clause.Extraction

namespace Destructure
namespace Chain

variable {α : Type} {ch : Chain α} {r : Registry} {limit : Nat}

/-! ## Where arms come from -/

/-- The arm is a clause compiled with some body. -/
def Compiled (r : Registry) (limit : Nat) (arm : Arm α) : Prop :=
  ∃ (c : Clause) (body : Body α), c.compile r limit body = .ok arm

theorem compileAll_cons_eq_ok {c : Clause} {body : Body α} {rest : List (Clause × Body α)}
    {arms : List (Arm α)} (h : compileAll r limit ((c, body) :: rest) = .ok arms) :
    ∃ arm more, c.compile r limit body = .ok arm ∧ compileAll r limit rest = .ok more ∧
      arms = arm :: more := by
  rw [compileAll] at h
  cases harm : c.compile r limit body with
  | error e => simp [harm] at h
  | ok arm =>
    simp only [harm] at h
    obtain ⟨more, hmore, harms⟩ := map_eq_ok h
    exact ⟨arm, more, rfl, hmore, harms.symm⟩

theorem compiled_of_compileAll {clauses : List (Clause × Body α)} {arms : List (Arm α)}
    (h : compileAll r limit clauses = .ok arms) : ∀ arm ∈ arms, Compiled r limit arm := by
  induction clauses generalizing arms with
  | nil =>
    cases h
    exact fun arm harm => absurd harm List.not_mem_nil
  | cons entry rest ih =>
    obtain ⟨arm, more, hcompile, hrest, rfl⟩ := compileAll_cons_eq_ok h
    intro arm' harm'
    rcases List.mem_cons.mp harm' with rfl | harm'
    · exact ⟨entry.1, entry.2, hcompile⟩
    · exact ih hrest arm' harm'

/-- All arms of the chain are clauses compiled against its own registry. -/
def AllCompiled (ch : Chain α) : Prop := ∀ arm ∈ ch.arms, Compiled ch.registry ch.limit arm

theorem Effect.allCompiled {op : Operation α} {ch' : Chain α}
    {report : Report α (List (Call α))} (h : Effect ch op ch' report) (hch : ch.AllCompiled) :
    ch'.AllCompiled := by
  have hadd : ∀ more : List (Arm α), (∀ arm ∈ more, Compiled ch.registry ch.limit arm) →
      ∀ arm ∈ ch.arms ++ more, Compiled ch.registry ch.limit arm :=
    fun more hmore => List.forall_mem_append.mpr ⟨hch, hmore⟩
  cases h with
  | hit _ _ compile _ _ => exact hadd _ (List.forall_mem_singleton.mpr ⟨_, _, compile⟩)
  | passed _ _ compile _ => exact hadd _ (List.forall_mem_singleton.mpr ⟨_, _, compile⟩)
  | committed _ _ compile => exact hadd _ (compiled_of_compileAll compile)
  | sealedLazy _ _ compile => exact hadd _ (compiled_of_compileAll compile)
  | _ => exact hch

theorem allCompiled_after (r : Registry) (limit : Nat) (ops : List (Operation α)) :
    ∀ arm ∈ ((unbound r limit : Chain α).after ops).arms, Compiled r limit arm := by
  have hsettled : (unbound r limit : Chain α).Settled := settled_start r limit none
  have hnone : (unbound r limit : Chain α).AllCompiled :=
    fun arm harm => absurd harm List.not_mem_nil
  have hall := after_induction (fun heffect h => Effect.allCompiled heffect h) hsettled hnone ops
  obtain ⟨hregistry, hlimit, -⟩ := kept_after hsettled ops
  rw [AllCompiled, hregistry, hlimit] at hall
  exact hall

/-! ## Answers -/

theorem isReady_iff : ch.isReady = true ↔ ∃ f, ch.phase = .ready f := by
  unfold isReady
  cases ch.phase <;> simp

section Lazy

variable (hlazy : ch.mode.kind = .lazy)
include hlazy

theorem exists_pending : ∃ pending, ch.mode = .lazy pending := by
  cases hmode : ch.mode with
  | lazy pending => exact ⟨pending, rfl⟩
  | eager w result =>
    rw [hmode] at hlazy
    cases hlazy

/-- A lazy chain that is sealed answers from its arms and its fallback. -/
theorem evaluate_eq_answer {f : Call α} (hphase : ch.phase = .ready f) (v : Value) :
    ch.evaluate v = answer ch.arms f v := by
  obtain ⟨pending, hmode⟩ := exists_pending hlazy
  simp only [evaluate, hmode, hphase]

theorem evaluateAll_eq_answerAll {f : Call α} (hphase : ch.phase = .ready f) (vs : List Value) :
    ch.evaluateAll vs = answerAll ch.arms f vs := by
  obtain ⟨pending, hmode⟩ := exists_pending hlazy
  simp only [evaluateAll, hmode, hphase]

theorem exists_evaluate_eq_answer (hready : ch.isReady = true) :
    ∃ fallback, ∀ v, ch.evaluate v = answer ch.arms fallback v := by
  obtain ⟨f, hphase⟩ := isReady_iff.mp hready
  exact ⟨f, evaluate_eq_answer hlazy hphase⟩

end Lazy

theorem exists_answer {arms : List (Arm α)} {fallback : Call α} {v : Value}
    (h : ∀ arm ∈ arms, arm.accepts v = true → arm.Answers v) :
    ∃ call, answer arms fallback v = .ok call := by
  unfold answer
  cases hfind : arms.find? (·.accepts v) with
  | none => exact ⟨fallback, rfl⟩
  | some arm =>
    have haccepts : arm.accepts v = true :=
      List.find?_some (p := fun arm : Arm α => arm.accepts v) hfind
    obtain ⟨parts, args, -, -, hextract⟩ := h arm (List.mem_of_find?_eq_some hfind) haccepts
    exact ⟨⟨arm.body.label, arm.body.run args⟩, by simp only [hextract]⟩

/-- A value that a clause accepts can be extracted from, except that nothing may be found
at a field for a variable that no guard reads.  On conforming values there is no such
exception, and a sealed chain answers all of them. -/
theorem extract_of_accepts (r : Registry) (limit : Nat) :
    (∀ (c : Clause) (body : Body α) (arm : Arm α) (v : Value),
      c.compile r limit body = .ok arm → arm.accepts v = true →
        arm.body = body ∧ arm.bindings.map (·.1) = c.params ∧
          (arm.Answers v ∨ arm.Misses c v) ∧ (r.conforms v = true → arm.Answers v)) ∧
      ∀ (ops : List (Operation α)) (v : Value),
        ((unbound r limit).after ops).isReady = true → r.conforms v = true →
          ∃ call, ((unbound r limit).after ops).evaluate v = .ok call := by
  have hanswers : ∀ (c : Clause) (body : Body α) (arm : Arm α) (v : Value),
      c.compile r limit body = .ok arm → arm.accepts v = true → r.conforms v = true →
        arm.Answers v := by
    intro c body arm v hcompile haccepts hv
    rcases Clause.answers_or_misses hcompile haccepts with hanswers | ⟨hconforms, -⟩
    · exact hanswers
    · simp [hv] at hconforms
  refine ⟨fun c body arm v hcompile haccepts => ?_, fun ops v hready hv => ?_⟩
  · obtain ⟨hplan, hbody⟩ := Clause.compile_eq_ok hcompile
    obtain ⟨assigned, ds, -, -, -, -, hbindings⟩ := Clause.compilePlan_eq_ok hplan
    have hor := Clause.answers_or_misses hcompile haccepts
    exact ⟨hbody, (Bindings.forParams_eq_ok hbindings).1, hor.imp_right (·.2),
      hanswers c body arm v hcompile haccepts⟩
  · obtain ⟨-, -, hkind⟩ := kept_after (settled_start (α := α) r limit none) ops
    obtain ⟨fallback, hevaluate⟩ := exists_evaluate_eq_answer hkind hready
    obtain ⟨call, hcall⟩ : ∃ call, answer _ fallback v = .ok call :=
      exists_answer fun arm harm haccepts => by
        obtain ⟨c, body, hcompile⟩ := allCompiled_after r limit ops arm harm
        exact hanswers c body arm v hcompile haccepts hv
    exact ⟨call, (hevaluate v).trans hcall⟩

/-- A point with its first coordinate, and any second one. -/
def abscissaOnly : Clause := .ofParams ["a"] (.construct ⟨0⟩ [.var "a", .discard])

def abscissaOnlyArm : Arm Value where
  guards := [.typeIs [] (.object ⟨0⟩)]
  bindings := [("a", [.field 0 "x"])]
  body := Clause.echo

/-- A point that some other registry made, without coordinates. -/
def barePoint : Value := .object ⟨0⟩ "Point" []

def point : Value := .object ⟨0⟩ "Point" [.int 3, .unit]

def abscissaChain : List (Operation Value) :=
  [.append abscissaOnly Clause.echo, .attachFallback ⟨"fallback", .unit⟩]

theorem extract_of_accepts_points :
    abscissaOnlyArm.accepts barePoint = true ∧
      abscissaOnlyArm.extract barePoint = .error (.noValueAt [.field 0 "x"]) ∧
      (abscissaOnlyArm.Answers barePoint ∨ abscissaOnlyArm.Misses abscissaOnly barePoint) ∧
      Clause.points.conforms point = true ∧ abscissaOnlyArm.Answers point ∧
      ∃ call, ((unbound Clause.points 3).after abscissaChain).evaluate point = .ok call := by
  have hcompile : abscissaOnly.compile Clause.points 3 Clause.echo = .ok abscissaOnlyArm := rfl
  have hbare : abscissaOnlyArm.accepts barePoint = true := by decide
  have hpoint : abscissaOnlyArm.accepts point = true := by decide
  have hconforms : Clause.points.conforms point = true := by decide
  obtain ⟨hclauses, hchain⟩ := extract_of_accepts (α := Value) Clause.points 3
  exact ⟨hbare, rfl, (hclauses _ _ _ _ hcompile hbare).2.2.1, hconforms,
    (hclauses _ _ _ _ hcompile hpoint).2.2.2 hconforms, hchain abscissaChain point rfl hconforms⟩

end Chain
end Destructure
