/-
An instance by position and by name.

A constructor whose arguments initialise fields of the type makes the same demands as the
instance in which those fields are named.  The fields are found in different ways, by the
parameter of the constructor or by the name itself, and a discarded argument is not looked
up at all while a discarded field is.  As every name is declared, the lookups succeed and
lead to the same fields.  Two fields of one name are refused in the one case only, and here
the names are distinct.
-/
import Destructure.Proofs.Clause.Agreement
import Destructure.Proofs.Clause.Layout
import Destructure.Proofs.Registry.Fields

namespace Destructure

/-- The type has a constructor without arguments, and one with an argument for each of these
declared fields, in order. -/
structure TypeDecl.BuildsFrom (d : TypeDecl) (names : List String) : Prop where
  bare : ∃ ctor ∈ d.constructors, ctor.arity = 0
  full : ∃ ctor ∈ d.constructors, ctor.params.map Param.field? = names.map some
  distinct : names.Nodup
  declared : ∀ name ∈ names, name ∈ d.fields

/-! ## Demands -/

namespace Shape

variable {r : Registry} {declared : List String} {t : TypeId} {names : List String}
  {args : List Shape}

/-- Arguments demand what the fields that they initialise do. -/
theorem demandsArgs_eq_demandsFields {p : Path} {arity i : Nat}
    (hlen : args.length = names.length)
    (hfield : ∀ j name, names[j]? = some name →
      ∃ f, r.field t name = .ok f ∧ r.argField t arity (i + j) = .ok f) :
    demandsArgs r declared p t arity i args = demandsFields r declared p t (names.zip args) := by
  induction args generalizing names i with
  | nil => rw [List.zip_nil_right]; rfl
  | cons s args ih =>
    cases names with
    | nil => simp at hlen
    | cons name names =>
      have hrest : demandsArgs r declared p t arity (i + 1) args =
          demandsFields r declared p t (names.zip args) := by
        refine ih (Nat.succ.inj hlen) fun j name hname => ?_
        rw [Nat.add_assoc, Nat.add_comm 1]
        exact hfield (j + 1) name hname
      obtain ⟨f, hf, harg⟩ := hfield 0 name rfl
      rw [Nat.add_zero] at harg
      rw [List.zip_cons_cons, demandsFields, hf, ← hrest]
      by_cases hs : s = discard
      · rw [hs, demandsArgs]
        exact (ok_nil_andThen _).symm
      · rw [demandsArgs, harg]
        exact hs

/-- An instance by position demands what it does by name. -/
theorem demands_construct_eq (hr : r.Reachable) {d : TypeDecl} (hd : r.get? t = some d)
    (hnames : d.BuildsFrom names) (hlen : args.length = names.length) (p : Path) :
    demands r declared p (.construct t args) =
      demands r declared p (.constructWith t [] (names.zip args)) := by
  obtain ⟨bare, hbare, hnone⟩ := hnames.bare
  obtain ⟨full, hfull, hparams⟩ := hnames.full
  have harity : full.arity = args.length := by
    rw [hlen, Constructor.arity, ← List.length_map Param.field?, hparams, List.length_map]
  have hctor : r.constructor t args.length = .ok full := by
    rw [← harity]
    exact Registry.constructor_of_mem hr hd hfull
  have hctor' : r.constructor t ([] : List Shape).length = .ok bare := by
    rw [List.length_nil, ← hnone]
    exact Registry.constructor_of_mem hr hd hbare
  have hunrepeated : firstRepeated ((names.zip args).map (·.1)) = none := by
    rw [List.map_fst_zip (Nat.le_of_eq hlen.symm)]
    exact firstRepeated_eq_none_iff.mpr hnames.distinct
  have hfields : demandsArgs r declared p t args.length 0 args =
      demandsFields r declared p t (names.zip args) := by
    refine demandsArgs_eq_demandsFields hlen fun j name hname => ?_
    have hparam : (full.params.map Param.field?)[j]? = some (some name) := by
      rw [hparams, List.getElem?_map, hname]
      rfl
    obtain ⟨f, hf⟩ := Registry.exists_field_of_mem hd
      (hnames.declared name (List.mem_of_getElem? hname))
    rw [Nat.zero_add, ← harity, Registry.argField_eq_field hr hd hfull hparam]
    exact ⟨f, hf, hf⟩
  rw [demands, demands, hctor, hctor', hunrepeated, hfields, demandsArgs, ok_nil_andThen]

end Shape

namespace Clause

/-- Wherever an instance by position stands in the shape of a clause, it may be given by name
instead, and the clause compiles to the same. -/
theorem construct_eq_constructWith {r : Registry} (hr : r.Reachable) {t : TypeId} {d : TypeDecl}
    (hd : r.get? t = some d) {names : List String} (hnames : d.BuildsFrom names)
    {args : List Shape} (hlen : args.length = names.length) (ctx : Shape.Context) (c : Clause)
    (limit : Nat) {α : Type} (body : Body α) :
    (c.withShape (ctx.fill (.construct t args))).compile r limit body =
      (c.withShape (ctx.fill (.constructWith t [] (names.zip args)))).compile r limit body := by
  have hnode : ∀ p, Shape.demands r c.params p (.construct t args) =
      Shape.demands r c.params p (.constructWith t [] (names.zip args)) :=
    Shape.demands_construct_eq hr hd hnames hlen
  have hdepth : (Shape.construct t args).depth =
      (Shape.constructWith t [] (names.zip args)).depth := by
    rw [Shape.depth, Shape.depth, Shape.depthItems, Nat.zero_max,
      Shape.depthEntries_eq_depthItems, List.map_snd_zip (Nat.le_of_eq hlen)]
  refine compile_withShape_congr ?depth ?demands limit body
  case depth =>
    have hle := ctx.depth_fill_le (Nat.le_of_eq hdepth)
    have hge := ctx.depth_fill_le (Nat.le_of_eq hdepth.symm)
    exact Nat.le_antisymm hle hge
  case demands =>
    -- Neither node is a discarded argument.
    have harg : ∀ q t' arity i, Shape.argLayout r c.params q t' arity i (.construct t args) =
        Shape.argLayout r c.params q t' arity i (.constructWith t [] (names.zip args)) :=
      fun q t' arity i =>
        Shape.related_argLayout Shape.compatible_eq (by simp) hnode
    exact Shape.related_fill Shape.compatible_eq hnode harg ctx Path.root

/-- A type whose constructor takes the fields in the other order. -/
def pair : TypeDecl :=
  ⟨"Pair", ["fst", "snd"], [⟨[]⟩, ⟨[.mappedAs "b" "snd", .mapped "fst"]⟩]⟩

theorem pair_buildsFrom : pair.BuildsFrom ["snd", "fst"] where
  bare := ⟨⟨[]⟩, List.mem_cons_self, rfl⟩
  full := ⟨_, List.mem_cons_of_mem _ List.mem_cons_self, rfl⟩
  distinct := by decide
  declared := by decide

/-- The same variable in a pair and after it. -/
def pairThen (node : Shape) : Clause := .ofParams ["a"] (.sequence .list [node, .var "a"])

def pairThenPlan : Plan where
  guards := [.typeIs [] .list, .countIs [] 2, .typeIs [.item 0] (.object ⟨0⟩),
    .sameValue [.item 0, .field 0 "fst"] [.item 1]]
  bindings := [("a", [.item 0, .field 0 "fst"])]

theorem construct_eq_constructWith_pair :
    let r : Registry := ⟨[pair]⟩
    let byPosition := pairThen (.construct ⟨0⟩ [.discard, .var "a"])
    let byName := pairThen (.constructWith ⟨0⟩ [] [("snd", .discard), ("fst", .var "a")])
    r.Reachable ∧ r.get? ⟨0⟩ = some pair ∧ pair.BuildsFrom ["snd", "fst"] ∧
      byPosition.compile r 3 echo = .ok ⟨pairThenPlan, echo⟩ ∧
      byName.compile r 3 echo = .ok ⟨pairThenPlan, echo⟩ ∧
      byName.compile r 2 echo = .error (.tooDeep 2) := by
  intro r byPosition byName
  have hr : r.Reachable := ⟨[pair], by decide⟩
  have hd : r.get? ⟨0⟩ = some pair := rfl
  have hlen : [Shape.discard, .var "a"].length = ["snd", "fst"].length := rfl
  have heq := construct_eq_constructWith hr hd pair_buildsFrom hlen
    (.item .list [] .hole [.var "a"]) byPosition
  have hcompiled : byPosition.compile r 3 echo = .ok ⟨pairThenPlan, echo⟩ := rfl
  have htooDeep : byPosition.compile r 2 echo = .error (.tooDeep 2) := rfl
  exact ⟨hr, hd, pair_buildsFrom, hcompiled, (heq 3 echo).symm.trans hcompiled,
    (heq 2 echo).symm.trans htooDeep⟩

end Clause
end Destructure
