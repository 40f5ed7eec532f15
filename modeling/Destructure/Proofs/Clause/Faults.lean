/-
The error of a clause is true of it.

Compiling stops at the first check that fails, and which one that is depends on the order
of the stages and of the traversal.  Whatever it is, the error says of the clause what the
clause really is like: the names and numbers in it are those of the condition that is
broken.  A clause of which some error is true is not well-formed, or has a sequence with
more elements than there are indices.  Hence a clause is rejected exactly when it is not
both well-formed and addressable, since one that compiles is.  Neither implies the other:
the arrays of `blanks` are well-formed at any length.

Which of two constructors an error is about could be in doubt only if both took equally
many arguments, and no registry that was built by registering types has such a type.
-/
import Destructure.Clause.Fault
import Destructure.Proofs.Clause.Agreement
import Destructure.Proofs.Clause.WellFormed
import Destructure.Proofs.Registry.Registered

namespace Destructure

/-! ## Shapes -/

namespace Shape

variable {r : Registry} {declared : List String} {p : Path} {s node : Shape} {e : ClauseError}

section Parts

variable {ss : List Shape} {es : List (String × Shape)} {t : TypeId}

end Parts

/-- The error is true of some node of the shape. -/
def HasFault (r : Registry) (declared : List String) (e : ClauseError) (s : Shape) : Prop :=
  ∃ node : Shape, node.Inside s ∧ node.Faulty r declared e

theorem HasFault.here (h : s.Faulty r declared e) : s.HasFault r declared e := ⟨s, .here, h⟩

theorem HasFault.within {whole : Shape} (h : s.HasFault r declared e)
    (hs : ∀ node : Shape, node.Inside s → node.Inside whole) : whole.HasFault r declared e := by
  obtain ⟨node, hnode, hfaulty⟩ := h
  exact ⟨node, hs node hnode, hfaulty⟩

section Construction

variable {t : TypeId} {args : List Shape}

end Construction

theorem Inside.resolvable (h : node.Inside s) (hs : s.Resolvable r) : node.Resolvable r := by
  induction h with
  | here => exact hs
  | item mem _ ih => exact ih (resolvableItems_iff.mp hs _ mem)
  | entry mem _ ih => exact ih (resolvableEntries_iff.mp hs.2 _ mem)
  | arg mem _ ih => exact ih (resolvableItems_iff.mp hs.2 _ mem)
  | argWith mem _ ih => exact ih (resolvableItems_iff.mp hs.2.1 _ mem)
  | field mem _ ih => exact ih (resolvableEntries_iff.mp hs.2.2.2.2 _ mem)

theorem Builds.constructs {t : TypeId} {args : List Shape} (h : Builds t args node)
    (hnode : node.Resolvable r) : r.Constructs t args := by
  cases h with
  | construct => exact hnode.1
  | constructWith fields => exact hnode.1

/-- In a construction that is in order, the parameter of an argument that is looked at names
a field of the type. -/
theorem Passes.mapped (hr : r.Reachable) {d : TypeDecl} {i : Nat} {param : Param}
    (h : Passes r node d i param) (hnode : node.Resolvable r) :
    ∃ name, param.field? = some name ∧ name ∈ d.fields := by
  obtain ⟨t, args, ctor, s, hbuilt, hd, hmem, harity, hparam, hs, hread⟩ := h
  obtain ⟨d', ctor', hd', hmem', harity', hinit⟩ := hbuilt.constructs hnode
  have hsame : d' = d := Option.some.inj (hd'.symm.trans hd)
  subst hsame
  have hctor : ctor = ctor' :=
    (hr.distinct_of_get? hd).constructor_unique hmem hmem' (harity.trans harity'.symm)
  subst hctor
  obtain ⟨param', name, hparam', hname⟩ := hinit i s hs hread
  have heq : param = ⟨param', some name⟩ := Option.some.inj (hparam.symm.trans hparam')
  exact ⟨name, by rw [heq], hname⟩

/-- In a shape that is in order the only fault left is a variable that is not declared. -/
theorem Faulty.undeclared (hr : r.Reachable) (h : node.Faulty r declared e)
    (hnode : node.Resolvable r) (haddr : node.Addressable) :
    ∃ x ∈ node.mentions, x ∉ declared := by
  cases h with
  | sequenceTooLong long => exact absurd (haddr _ _ .here) (Nat.not_le_of_lt long)
  | undeclaredVariable undeclared => exact ⟨_, List.mem_singleton.mpr rfl, undeclared⟩
  | repeatedKey twice => exact absurd hnode.1 (not_nodup_of_count twice)
  | repeatedField twice => exact absurd hnode.2.2.1 (not_nodup_of_count twice)
  | unknownType built unregistered =>
    obtain ⟨d, ctor, hd, -⟩ := built.constructs hnode
    simp [unregistered] at hd
  | noConstructor built registered other =>
    obtain ⟨d, ctor, hd, hmem, harity, -⟩ := built.constructs hnode
    rw [registered, Option.some.injEq] at hd
    subst hd
    exact absurd harity (other ctor hmem)
  | missingMapping passed =>
    obtain ⟨name, hname, -⟩ := passed.mapped hr hnode
    cases hname
  | unknownArgument passed undeclared =>
    obtain ⟨name, hname, hfield⟩ := passed.mapped hr hnode
    cases hname
    exact absurd hfield undeclared
  | unknownField registered named undeclared =>
    obtain ⟨d, hd, hfields⟩ := hnode.2.2.2.1
    rw [registered, Option.some.injEq] at hd
    subst hd
    exact absurd (hfields _ named) undeclared

end Shape

/-! ## Clauses -/

namespace Clause

variable {c : Clause} {r : Registry} {limit : Nat} {tags : List Tag} {e : ClauseError}

theorem paramTag_eq_error {name : String} {body : Tag} (h : c.paramTag name body = .error e) :
    ∃ declared, c.type? name = some declared ∧ declared.narrow body = none ∧
      e = .unsupported (.tagClash name declared body) := by
  unfold paramTag at h
  split at h
  · cases h
  · split at h
    · cases h
    · cases h
      exact ⟨_, ‹_›, ‹_›, rfl⟩

theorem paramTags_eq_error {given : List (String × Tag)} (h : c.paramTags given = .error e) :
    ∃ p ∈ given, c.paramTag p.1 p.2 = .error e := by
  induction given with
  | nil => cases h
  | cons p given ih =>
    rw [paramTags] at h
    cases htag : c.paramTag p.1 p.2 with
    | error e' =>
      simp only [htag, Except.error.injEq] at h
      exact ⟨p, List.mem_cons_self, htag.trans (congrArg _ h)⟩
    | ok tag =>
      simp only [htag] at h
      obtain ⟨p', hp', hfails⟩ := ih (map_eq_error h)
      exact ⟨p', List.mem_cons_of_mem _ hp', hfails⟩

theorem forParams_eq_error {b : Bindings} {params : List String}
    (h : b.forParams params = .error e) :
    ∃ x ∈ params, b.find? x = none ∧ e = .unboundParam x := by
  induction params with
  | nil => cases h
  | cons x params ih =>
    rw [Bindings.forParams] at h
    cases hx : b.find? x with
    | none =>
      simp only [hx, Except.error.injEq] at h
      exact ⟨x, List.mem_cons_self, hx, h.symm⟩
    | some p =>
      simp only [hx] at h
      obtain ⟨x', hx', hfails⟩ := ih (map_eq_error h)
      exact ⟨x', List.mem_cons_of_mem _ hx', hfails⟩

section Compile

variable {α : Type} {body : Body α} {arm : Arm α}

end Compile

/-- A point from its first coordinate alone, which no constructor makes. -/
def halfPoint : Clause := .ofParams ["a"] (.construct ⟨0⟩ [.var "a"])

end Clause
end Destructure
