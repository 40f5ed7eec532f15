/-
Chains with their clauses in another order.

Whether a chain can be sealed depends on which clauses it has, and not on their order.  What
it answers to a value depends on the order of the clauses that accept the value only.  Where
these keep their order the same one of them comes first, and the same body runs; if at most
one clause accepts the value there is no order to keep.
-/
import Destructure.Proofs.Chain.FirstMatch
import Destructure.Rearrange

namespace Destructure
namespace Chain

variable {α : Type} {r : Registry} {limit : Nat} {v : Value} {f : Call α}
  {cs : List (Clause × Body α)} {order : List Nat} {arms : List (Arm α)} {arm : Arm α} {i j : Nat}
  {ch ch' : Chain α}

/-! ## Sealed chains from clauses -/

/-- Clauses compile together when each compiles. -/
theorem exists_compileAll_iff :
    (∃ arms, compileAll r limit cs = .ok arms) ↔
      ∀ entry ∈ cs, ∃ arm, entry.1.compile r limit entry.2 = .ok arm := by
  induction cs with
  | nil => simp [compileAll]
  | cons entry cs ih =>
    rw [List.forall_mem_cons, ← ih]
    constructor
    · rintro ⟨arms, harms⟩
      obtain ⟨arm, more, hcompile, hmore, -⟩ := compileAll_cons_eq_ok harms
      exact ⟨⟨arm, hcompile⟩, more, hmore⟩
    · rintro ⟨⟨arm, hcompile⟩, more, hmore⟩
      exact ⟨arm :: more, by rw [compileAll_cons_ok hcompile, hmore]; rfl⟩

theorem build_unbound_eq_ok_iff :
    (unbound r limit).build cs f = .ok ch ↔ ∃ arms, compileAll r limit cs = .ok arms ∧
      ⟨r, limit, .lazy [], .ready f, [] ++ arms, 0 + cs.length⟩ = ch := by
  rw [unbound, build_lazy, finish_eq_ok_iff]
  rfl

theorem build_bound_eq_ok_iff :
    (bound r limit v).build cs f = .ok ch ↔ ∃ arms call, compileAll r limit cs = .ok arms ∧
      answer arms f v = .ok call ∧
        ⟨r, limit, .eager v (some call), .ready f, [] ++ arms, 0 + cs.length⟩ = ch :=
  build_eager_eq_ok_iff [] 0

theorem build_unbound_ready_iff :
    (∃ ch, (unbound r limit).build cs f = .ok ch ∧ ch.isReady = true) ↔
      ∃ arms, compileAll r limit cs = .ok arms := by
  constructor
  · rintro ⟨ch, hch, -⟩
    obtain ⟨arms, harms, -⟩ := build_unbound_eq_ok_iff.mp hch
    exact ⟨arms, harms⟩
  · rintro ⟨arms, harms⟩
    exact ⟨_, build_unbound_eq_ok_iff.mpr ⟨arms, harms, rfl⟩, rfl⟩

theorem build_bound_ready_iff :
    (∃ ch, (bound r limit v).build cs f = .ok ch ∧ ch.isReady = true) ↔
      ∃ call arms, compileAll r limit cs = .ok arms ∧ answer arms f v = .ok call := by
  constructor
  · rintro ⟨ch, hch, -⟩
    obtain ⟨arms, call, harms, hanswer, -⟩ := build_bound_eq_ok_iff.mp hch
    exact ⟨call, arms, harms, hanswer⟩
  · rintro ⟨call, arms, harms, hanswer⟩
    exact ⟨_, build_bound_eq_ok_iff.mpr ⟨arms, call, harms, hanswer, rfl⟩, rfl⟩

/-! ## Accepting clauses -/

/-- The clause at the index accepts the value. -/
def AcceptsAt (r : Registry) (limit : Nat) (v : Value) (cs : List (Clause × Body α)) (i : Nat) :
    Prop :=
  ∃ arm, CompilesAt r limit cs i arm ∧ arm.accepts v = true

section Compiled

variable (hall : compileAll r limit cs = .ok arms)
include hall

theorem compilesAt_iff : CompilesAt r limit cs i arm ↔ arms[i]? = some arm := by
  obtain ⟨hlen, hpoint⟩ := compileAll_pointwise hall
  constructor
  · rintro ⟨c, body, hentry, hcompile⟩
    obtain ⟨arm', harm', hcompile'⟩ := hpoint i c body hentry
    rw [harm', Except.ok.inj (hcompile'.symm.trans hcompile)]
  · intro harm
    obtain ⟨hi, -⟩ := List.getElem?_eq_some_iff.mp harm
    obtain ⟨⟨c, body⟩, hentry⟩ : ∃ entry, cs[i]? = some entry :=
      ⟨_, List.getElem?_eq_getElem (hlen ▸ hi)⟩
    obtain ⟨arm', harm', hcompile⟩ := hpoint i c body hentry
    rw [Option.some.inj (harm.symm.trans harm')]
    exact ⟨c, body, hentry, hcompile⟩

theorem firstHit_iff : FirstHit r limit v cs i arm ↔ FirstAccepts arms v i arm := by
  rw [FirstHit, FirstAccepts]
  simp only [compilesAt_iff hall]

theorem forall_not_acceptsAt_iff :
    (∀ i, ¬ AcceptsAt r limit v cs i) ↔ ∀ arm ∈ arms, arm.accepts v = false := by
  constructor
  · intro hnone arm harm
    obtain ⟨i, hi⟩ := List.mem_iff_getElem?.mp harm
    exact Bool.eq_false_iff.mpr fun hv => hnone i ⟨arm, (compilesAt_iff hall).mpr hi, hv⟩
  · rintro hnone i ⟨arm, hcompiles, hv⟩
    have harm : arm ∈ arms := List.mem_of_getElem? ((compilesAt_iff hall).mp hcompiles)
    rw [hnone arm harm] at hv
    cases hv

/-- A clause is the first to accept the value, or none accepts it. -/
theorem exists_firstHit_or_none (v : Value) :
    (∃ i arm, FirstHit r limit v cs i arm) ∨ ∀ i, ¬ AcceptsAt r limit v cs i := by
  cases hfind : arms.find? (·.accepts v) with
  | some arm =>
    obtain ⟨i, hfirst⟩ := find?_eq_some_iff.mp hfind
    exact .inl ⟨i, arm, (firstHit_iff hall).mpr hfirst⟩
  | none =>
    refine .inr ((forall_not_acceptsAt_iff hall).mpr ?_)
    simpa using List.find?_eq_none.mp hfind

end Compiled

/-! ## Another order -/

/-- The clauses that accept the value come in the order in which they came before. -/
def KeepsOrder (r : Registry) (limit : Nat) (v : Value) (cs : List (Clause × Body α))
    (order : List Nat) : Prop :=
  order.Pairwise fun i j => AcceptsAt r limit v cs i → AcceptsAt r limit v cs j → i < j

/-- The same clause is the first to accept the value in both orders, or none accepts it. -/
inductive SameChoice (r : Registry) (limit : Nat) (v : Value) (cs : List (Clause × Body α))
    (order : List Nat) : Prop
  | clause (i j : Nat) (arm : Arm α) (moved : order[j]? = some i)
      (first : FirstHit r limit v cs i arm)
      (first' : FirstHit r limit v (rearrange order cs) j arm)
  | fallback (none : ∀ i, ¬ AcceptsAt r limit v cs i)
      (none' : ∀ j, ¬ AcceptsAt r limit v (rearrange order cs) j)

section Order

variable (horder : order.Perm (List.range cs.length))
include horder

theorem exists_compileAll_rearrange_iff :
    (∃ arms, compileAll r limit (rearrange order cs) = .ok arms) ↔
      ∃ arms, compileAll r limit cs = .ok arms := by
  have hperm : (rearrange order cs).Perm cs := rearrange_perm horder (Nat.le_refl _)
  rw [exists_compileAll_iff, exists_compileAll_iff]
  simp only [hperm.mem_iff]

theorem compilesAt_rearrange_iff :
    CompilesAt r limit (rearrange order cs) j arm ↔
      ∃ i, order[j]? = some i ∧ CompilesAt r limit cs i arm := by
  have hvalid : ∀ i ∈ order, i < cs.length := fun i hi =>
    List.mem_range.mp (horder.mem_iff.mp hi)
  constructor
  · rintro ⟨c, body, hentry, hcompile⟩
    rw [getElem?_rearrange hvalid] at hentry
    obtain ⟨i, hi, hentry⟩ := Option.bind_eq_some_iff.mp hentry
    exact ⟨i, hi, c, body, hentry, hcompile⟩
  · rintro ⟨i, hi, c, body, hentry, hcompile⟩
    refine ⟨c, body, ?_, hcompile⟩
    rw [getElem?_rearrange hvalid, hi]
    exact hentry

/-- Of clauses that keep their order the first one stays the first. -/
theorem FirstHit.rearranged (h : FirstHit r limit v cs i arm)
    (hkeeps : KeepsOrder r limit v cs order) (hj : order[j]? = some i) :
    FirstHit r limit v (rearrange order cs) j arm := by
  obtain ⟨hcompiles, haccepts, hbefore⟩ := h
  refine ⟨(compilesAt_rearrange_iff horder).mpr ⟨i, hj, hcompiles⟩, haccepts, ?_⟩
  intro j' hj' other hother
  obtain ⟨i', hi', hother⟩ := (compilesAt_rearrange_iff horder).mp hother
  by_cases hv : other.accepts v = true
  · -- Both clauses accept, so this one was in front of the first already.
    obtain ⟨hlt, rfl⟩ := List.getElem?_eq_some_iff.mp hj
    obtain ⟨hlt', rfl⟩ := List.getElem?_eq_some_iff.mp hi'
    have hearlier : order[j'] < order[j] :=
      List.pairwise_iff_getElem.mp hkeeps j' j hlt' hlt hj' ⟨other, hother, hv⟩
        ⟨arm, hcompiles, haccepts⟩
    exact hbefore _ hearlier other hother
  · exact Bool.eq_false_iff.mpr hv

theorem sameChoice (hall : ∃ arms, compileAll r limit cs = .ok arms)
    (hkeeps : KeepsOrder r limit v cs order) : SameChoice r limit v cs order := by
  obtain ⟨arms, harms⟩ := hall
  rcases exists_firstHit_or_none harms v with ⟨i, arm, hfirst⟩ | hnone
  · have hlt : i < cs.length := by
      obtain ⟨⟨c, body, hentry, -⟩, -, -⟩ := hfirst
      exact (List.getElem?_eq_some_iff.mp hentry).1
    obtain ⟨j, hj⟩ := List.mem_iff_getElem?.mp (horder.mem_iff.mpr (List.mem_range.mpr hlt))
    exact .clause i j arm hj hfirst (FirstHit.rearranged horder hfirst hkeeps hj)
  · refine .fallback hnone fun j haccepted => ?_
    obtain ⟨arm, hcompiles, haccepts⟩ := haccepted
    obtain ⟨i, -, hcompiles⟩ := (compilesAt_rearrange_iff horder).mp hcompiles
    exact hnone i ⟨arm, hcompiles, haccepts⟩

end Order

/-- Where the same clause is chosen the answer is the same. -/
theorem SameChoice.answer_eq (h : SameChoice r limit v cs order) {arms' : List (Arm α)}
    (hall : compileAll r limit cs = .ok arms)
    (hall' : compileAll r limit (rearrange order cs) = .ok arms') (f : Call α) :
    answer arms' f v = answer arms f v := by
  cases h with
  | clause i j arm _ first first' =>
    rw [answer_of_firstAccepts ((firstHit_iff hall).mp first),
      answer_of_firstAccepts ((firstHit_iff hall').mp first')]
  | fallback none none' =>
    rw [answer_of_none_accepts ((forall_not_acceptsAt_iff hall).mp none),
      answer_of_none_accepts ((forall_not_acceptsAt_iff hall').mp none')]

theorem exists_answer_rearrange_iff (horder : order.Perm (List.range cs.length))
    (hkeeps : KeepsOrder r limit v cs order) {outcome : Except ChainError (Call α)} :
    (∃ arms, compileAll r limit (rearrange order cs) = .ok arms ∧ answer arms f v = outcome) ↔
      ∃ arms, compileAll r limit cs = .ok arms ∧ answer arms f v = outcome := by
  have hcompiles : (∃ arms, compileAll r limit (rearrange order cs) = .ok arms) ↔
      ∃ arms, compileAll r limit cs = .ok arms := exists_compileAll_rearrange_iff horder
  constructor
  · rintro ⟨arms', harms', hanswer⟩
    obtain ⟨arms, harms⟩ := hcompiles.mp ⟨arms', harms'⟩
    have hsame := (sameChoice horder ⟨arms, harms⟩ hkeeps).answer_eq harms harms' f
    exact ⟨arms, harms, hsame.symm.trans hanswer⟩
  · rintro ⟨arms, harms, hanswer⟩
    obtain ⟨arms', harms'⟩ := hcompiles.mpr ⟨arms, harms⟩
    have hsame := (sameChoice horder ⟨arms, harms⟩ hkeeps).answer_eq harms harms' f
    exact ⟨arms', harms', hsame.trans hanswer⟩

/-- Where at most one clause accepts the value, every order is kept. -/
theorem keepsOrder_of_subsingleton (hnodup : order.Nodup)
    (h : ∀ i j, AcceptsAt r limit v cs i → AcceptsAt r limit v cs j → i = j) :
    KeepsOrder r limit v cs order :=
  hnodup.imp fun hne hi hj => absurd (h _ _ hi hj) hne

/-- What an evaluation runs is fixed by its outcome. -/
theorem calls_perform_evaluate_congr (h : ch'.evaluate v = ch.evaluate v) :
    (ch'.perform (.evaluate v)).2.calls = (ch.perform (.evaluate v)).2.calls := by
  rw [perform, perform, h]
  cases ch.evaluate v <;> rfl

/-- Clauses may be put in another order.  Lazy chains from both orders are sealed alike, and
wherever the clauses that accept a value keep their order among themselves, the same clause or
the fallback answers it: for lazy chains when they are evaluated, and for eager chains when
they are built.  Of at most one clause that accepts the value the order is always kept. -/
theorem rearranging_harmless (r : Registry) (limit : Nat) (cs : List (Clause × Body α))
    (order : List Nat) (horder : order.Perm (List.range cs.length)) (f : Call α) :
    let lazy := (unbound r limit).build cs f
    let lazy' := (unbound r limit).build (rearrange order cs) f
    ((∃ ch, lazy = .ok ch ∧ ch.isReady = true) ↔ ∃ ch, lazy' = .ok ch ∧ ch.isReady = true) ∧
      (∀ v, (∀ i j, AcceptsAt r limit v cs i → AcceptsAt r limit v cs j → i = j) →
        KeepsOrder r limit v cs order) ∧
      ∀ v, KeepsOrder r limit v cs order →
        (∀ ch ch', lazy = .ok ch → lazy' = .ok ch' →
          SameChoice r limit v cs order ∧ ch'.evaluate v = ch.evaluate v ∧
            (ch'.perform (.evaluate v)).2.calls = (ch.perform (.evaluate v)).2.calls) ∧
          let eager := (bound r limit v).build cs f
          let eager' := (bound r limit v).build (rearrange order cs) f
          ((∃ ch, eager = .ok ch ∧ ch.isReady = true) ↔
              ∃ ch, eager' = .ok ch ∧ ch.isReady = true) ∧
            ∀ ch ch', eager = .ok ch → eager' = .ok ch' →
              SameChoice r limit v cs order ∧ ch'.result = ch.result ∧
                (bound r limit v).calls (construction (rearrange order cs) f) =
                  (bound r limit v).calls (construction cs f) := by
  intro lazy lazy'
  refine ⟨?sealed, fun v h => keepsOrder_of_subsingleton (horder.nodup_iff.mpr List.nodup_range) h,
    fun v hkeeps => ⟨fun ch ch' hch hch' => ?evaluate, ?ready, fun ch ch' hch hch' => ?result⟩⟩
  case sealed =>
    rw [build_unbound_ready_iff, build_unbound_ready_iff, exists_compileAll_rearrange_iff horder]
  case evaluate =>
    obtain ⟨arms, harms, rfl⟩ := build_unbound_eq_ok_iff.mp hch
    obtain ⟨arms', harms', rfl⟩ := build_unbound_eq_ok_iff.mp hch'
    have hsame : SameChoice r limit v cs order := sameChoice horder ⟨arms, harms⟩ hkeeps
    have hanswer : answer arms' f v = answer arms f v := hsame.answer_eq harms harms' f
    exact ⟨hsame, hanswer, calls_perform_evaluate_congr hanswer⟩
  case ready =>
    rw [build_bound_ready_iff, build_bound_ready_iff]
    exact exists_congr fun call => (exists_answer_rearrange_iff horder hkeeps).symm
  case result =>
    obtain ⟨arms, call, harms, hanswer, rfl⟩ := build_bound_eq_ok_iff.mp hch
    obtain ⟨arms', call', harms', hanswer', rfl⟩ := build_bound_eq_ok_iff.mp hch'
    have hsame : SameChoice r limit v cs order := sameChoice horder ⟨arms, harms⟩ hkeeps
    rw [hsame.answer_eq harms harms' f, hanswer] at hanswer'
    obtain rfl : call = call' := Except.ok.inj hanswer'
    exact ⟨hsame, rfl, by
      rw [calls_construction_bound hch rfl, calls_construction_bound hch' rfl]⟩

/-- A clause that points do not have the shape of, and two that they do. -/
def overlapping : List (Clause × Body Value) :=
  abscissae ++ [(.ofParams ["a"] (.var "a"), Clause.echo)]

def overlappingArms : List (Arm Value) :=
  [Clause.abscissaArm, abscissaOnlyArm, ⟨⟨[], [("a", [])]⟩, Clause.echo⟩]

/-- The clause in front is moved between the others, which keep their order. -/
theorem rearranging_harmless_overlapping :
    let order := [1, 0, 2]
    let fallback : Call Value := ⟨"fallback", .unit⟩
    order.Perm (List.range overlapping.length) ∧
      KeepsOrder Clause.points 3 point overlapping order ∧
      ∃ ch ch', (unbound Clause.points 3).build overlapping fallback = .ok ch ∧
        (unbound Clause.points 3).build (rearrange order overlapping) fallback = .ok ch' ∧
        SameChoice Clause.points 3 point overlapping order ∧
        ch.evaluate point = .ok ⟨"echo", .int 3⟩ ∧ ch'.evaluate point = .ok ⟨"echo", .int 3⟩ ∧
        ∃ eager, eager.isReady = true ∧
          (bound Clause.points 3 point).build (rearrange order overlapping) fallback =
            .ok eager := by
  intro order fallback
  have horder : order.Perm (List.range overlapping.length) := by decide
  have hfront : ¬ AcceptsAt Clause.points 3 point overlapping 0 := by
    rintro ⟨arm, ⟨c, body, hentry, hcompile⟩, haccepts⟩
    cases hentry
    cases hcompile
    exact absurd haccepts (by decide)
  have hkeeps : KeepsOrder Clause.points 3 point overlapping order := by
    refine .cons ?_ (.cons ?_ (List.pairwise_singleton _ _))
    · simp [hfront]
    · simp
  have harms : compileAll Clause.points 3 overlapping = .ok overlappingArms := rfl
  have hlazy := build_unbound_eq_ok_iff (f := fallback).mpr ⟨_, harms, rfl⟩
  have heager := build_bound_ready_iff (v := point) (f := fallback).mpr ⟨_, _, harms, rfl⟩
  obtain ⟨hsealed, -, hvalues⟩ :=
    rearranging_harmless Clause.points 3 overlapping order horder fallback
  obtain ⟨hevaluate, hready, -⟩ := hvalues point hkeeps
  obtain ⟨ch', hch', -⟩ := hsealed.mp ⟨_, hlazy, rfl⟩
  obtain ⟨eager, heager, heagerReady⟩ := hready.mp heager
  obtain ⟨hsame, hanswer, -⟩ := hevaluate _ ch' hlazy hch'
  exact ⟨horder, hkeeps, _, ch', hlazy, hch', hsame, rfl, hanswer, eager, heagerReady, heager⟩

end Chain
end Destructure
