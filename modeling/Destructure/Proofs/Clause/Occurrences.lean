/-
What becomes of the occurrences of variables.

The occurrences of a shape are read off the shape alone, position by position.  The
demands of the shape list the same ones in the same order (`occurrences_of_demands`), and
settling deals with them one by one: the first of a variable binds it and has its tag
checked, and every other is compared with the first.  None is passed over and nothing else
is compared, so the comparisons of a plan are the repetitions among the occurrences.

Settling keeps a table of first occurrences.  The table answers as the list of all
occurrences so far would, and with this the proof needs no more of it.
-/
import Destructure.Clause.Occurrences
import Destructure.Proofs.Clause.Agreement
import Destructure.Proofs.Clause.WellFormed

namespace Destructure

/-! ## Occurrences by parts -/

theorem Demand.guards_append (ds es : List Demand) : guards (ds ++ es) = guards ds ++ guards es := by
  induction ds with
  | nil => rfl
  | cons d ds ih => cases d <;> simp [guards, ih]

namespace Shape

variable {r : Registry} {t : TypeId} {declared : List String}

theorem occurrencesItems_eq (p : Path) (i : Nat) (ss : List Shape) :
    occurrencesItems r p i ss =
      (itemParts i ss).flatMap fun part => part.2.occurrences r (p.child part.1) := by
  induction ss generalizing i with
  | nil => rfl
  | cons s ss ih => rw [occurrencesItems, itemParts, List.flatMap_cons, ih (i + 1)]

theorem occurrencesEntries_eq (p : Path) (ss : List (String × Shape)) :
    occurrencesEntries r p ss =
      (entryParts ss).flatMap fun part => part.2.occurrences r (p.child part.1) := by
  induction ss with
  | nil => rfl
  | cons e ss ih => rw [occurrencesEntries, ih]; rfl

theorem occurrencesArgs_eq {arity i : Nat} {ss : List Shape} {parts : List (Step × Shape)}
    (h : ArgParts r t arity i ss parts) (p : Path) :
    occurrencesArgs r p t arity i ss =
      parts.flatMap fun part => part.2.occurrences r (p.child part.1) := by
  induction h with
  | nil => rfl
  | @discard i ss parts _ ih =>
    rw [occurrencesArgs, ih]
    cases r.argField t arity i <;> rfl
  | field _ found _ ih =>
    rw [occurrencesArgs, List.flatMap_cons, ih]
    simp only [found]

theorem occurrencesFields_eq {ss : List (String × Shape)} {parts : List (Step × Shape)}
    (h : FieldParts r t ss parts) (p : Path) :
    occurrencesFields r p t ss =
      parts.flatMap fun part => part.2.occurrences r (p.child part.1) := by
  induction h with
  | nil => rfl
  | field found _ ih =>
    rw [occurrencesFields, List.flatMap_cons, ih]
    simp only [found]

/-- The demands list the occurrences of the shape and compare nothing yet. -/
structure Lists (r : Registry) (p : Path) (s : Shape) (ds : List Demand) : Prop where
  listed : Demand.occurrences ds = s.occurrences r p
  uncompared : (Demand.guards ds).filterMap Guard.comparison? = []

theorem listed_of_below {p : Path} {parts : List (Step × Shape)} {ds : List Demand}
    (h : Below (Lists r) p parts ds) :
    Demand.occurrences ds = parts.flatMap fun part => part.2.occurrences r (p.child part.1) := by
  induction h with
  | nil => rfl
  | cons head _ ih => rw [Demand.occurrences_append, List.flatMap_cons, head.listed, ih]

theorem uncompared_of_below {p : Path} {parts : List (Step × Shape)} {ds : List Demand}
    (h : Below (Lists r) p parts ds) : (Demand.guards ds).filterMap Guard.comparison? = [] := by
  induction h with
  | nil => rfl
  | cons head _ ih =>
    rw [Demand.guards_append, List.filterMap_append, head.uncompared, ih, List.nil_append]

theorem lists_node {p : Path} {s : Shape} {gs : List Guard} {parts : List (Step × Shape)}
    {ds : List Demand} (h : Below (Lists r) p parts ds)
    (hgs : gs.filterMap Guard.comparison? = [])
    (hs : s.occurrences r p = parts.flatMap fun part => part.2.occurrences r (p.child part.1)) :
    Lists r p s (gs.map .guard ++ ds) where
  listed := by
    rw [Demand.occurrences_append, Demand.occurrences_guards, List.nil_append, hs]
    exact listed_of_below h
  uncompared := by
    rw [Demand.guards_append, Demand.guards_map_guard, List.filterMap_append, hgs,
      uncompared_of_below h, List.nil_append]

theorem lists_of_demands {p : Path} {s : Shape} {ds : List Demand}
    (h : demands r declared p s = .ok ds) : Lists r p s ds := by
  refine demands_induction (motive := Lists r) ?discard ?literal ?var ?sequence ?map ?construct
    ?constructWith h
  case discard => exact fun p => ⟨rfl, rfl⟩
  case literal => exact fun p v => ⟨rfl, rfl⟩
  case var => exact fun p x _ => ⟨rfl, rfl⟩
  case sequence =>
    intro p kind items ds _ hbelow
    exact lists_node hbelow rfl (occurrencesItems_eq p 0 items)
  case map =>
    intro p entries ds _ hbelow
    have hkeys : (entries.map fun e => Guard.hasKey p e.1).filterMap Guard.comparison? = [] := by
      simp [List.filterMap_map, Function.comp_def, Guard.comparison?]
    exact lists_node hbelow hkeys (occurrencesEntries_eq p entries)
  case construct =>
    intro p t args ctor parts ds _ hargs hbelow
    exact lists_node hbelow rfl (occurrencesArgs_eq hargs p)
  case constructWith =>
    intro p t args fields ctor parts more ds es _ hargs _ hfields hbelow hbelow'
    refine lists_node (hbelow.append hbelow') rfl ?_
    rw [occurrences, occurrencesArgs_eq hargs, occurrencesFields_eq hfields, List.flatMap_append]

end Shape

/-! ## Repetitions -/

/-- The repetitions among occurrences that come after others. -/
def repetitionsAfter (before : List (String × Path)) : List (String × Path) → List Repetition
  | [] => []
  | (x, p) :: rest =>
    match before.lookup x with
    | some first => ⟨x, first, p⟩ :: repetitionsAfter (before ++ [(x, p)]) rest
    | none => repetitionsAfter (before ++ [(x, p)]) rest

section Repetitions

variable {before occurrences : List (String × Path)} {x : String} {p first : Path}

theorem repetitionsAfter_eq (before occurrences : List (String × Path)) :
    repetitionsAfter before occurrences =
      (occurrences.zipIdx before.length).filterMap fun (e, i) =>
        (((before ++ occurrences).take i).lookup e.1).map fun first => ⟨e.1, first, e.2⟩ := by
  induction occurrences generalizing before with
  | nil => rfl
  | cons e rest ih =>
    have hrest := ih (before ++ [e])
    rw [List.length_append, List.length_singleton, ← List.append_cons] at hrest
    rw [List.zipIdx_cons, List.filterMap_cons, repetitionsAfter, hrest]
    simp only [List.take_left]
    cases before.lookup e.1 <;> rfl

theorem repetitions_eq (occurrences : List (String × Path)) :
    repetitions occurrences = repetitionsAfter [] occurrences :=
  (repetitionsAfter_eq [] occurrences).symm

/-- A repetition refers to where its variable occurs first of all. -/
theorem first_of_mem_repetitionsAfter {rep : Repetition}
    (h : rep ∈ repetitionsAfter before occurrences) :
    (before ++ occurrences).lookup rep.name = some rep.first := by
  induction occurrences generalizing before with
  | nil => exact absurd h List.not_mem_nil
  | cons e rest ih =>
    rw [List.append_cons]
    rw [repetitionsAfter] at h
    cases hlookup : before.lookup e.1 with
    | none =>
      rw [hlookup] at h
      exact ih h
    | some first =>
      rw [hlookup] at h
      rcases List.mem_cons.mp h with rfl | h
      · rw [List.append_assoc, List.lookup_append, hlookup]
        rfl
      · exact ih h

/-- All occurrences of a variable are repetitions, except for the very first one. -/
theorem countP_repetitionsAfter (before occurrences : List (String × Path)) (x : String) :
    (repetitionsAfter before occurrences).countP (·.name == x) =
      (occurrences.map (·.1)).count x - if (before.lookup x).isSome then 0 else 1 := by
  induction occurrences generalizing before with
  | nil => simp [repetitionsAfter]
  | cons e rest ih =>
    obtain ⟨y, p⟩ := e
    have hrest := ih (before ++ [(y, p)])
    by_cases hx : y = x
    · subst hx
      have hbound : ((before ++ [(y, p)]).lookup y).isSome = true := by
        rw [List.lookup_append]
        cases before.lookup y <;> simp
      rw [hbound, if_pos rfl, Nat.sub_zero] at hrest
      rw [List.map_cons, List.count_cons_self, repetitionsAfter]
      cases before.lookup y with
      | none => simp only [hrest]; rfl
      | some first => simp [hrest]
    · have hsame : (before ++ [(y, p)]).lookup x = before.lookup x := by
        rw [List.lookup_append, List.lookup_cons, beq_false_of_ne (Ne.symm hx), List.lookup_nil,
          Option.or_none]
      rw [hsame] at hrest
      rw [List.map_cons, List.count_cons_of_ne hx, ← hrest, repetitionsAfter]
      cases before.lookup y with
      | none => rfl
      | some first => exact List.countP_cons_of_neg (by simpa using hx)

end Repetitions

/-! ## Settled occurrences -/

/-- The table finds what the list of occurrences so far would. -/
theorem Bindings.find?_bind_of_lookup {b : Bindings} {before : List (String × Path)}
    (h : ∀ x, b.find? x = before.lookup x) (x : String) (p : Path) (y : String) :
    (b.bind x p).2.find? y = (before ++ [(x, p)]).lookup y := by
  rw [find?_bind, h y, List.lookup_append]
  by_cases hy : y = x
  · simp [hy]
  · simp [hy, List.lookup_cons, beq_false_of_ne hy]

theorem comparisons_tagGuards (tag : Tag) (p : Path) :
    (tagGuards tag p).filterMap Guard.comparison? = [] := by
  unfold tagGuards
  split <;> rfl

/-- Settling compares the repetitions with where their variables were bound, in order, and
compares nothing else. -/
theorem comparisons_settle {tags : List (String × Tag)} {b : Bindings} {ds : List Demand}
    {before : List (String × Path)} (hb : ∀ x, b.find? x = before.lookup x)
    (hds : (Demand.guards ds).filterMap Guard.comparison? = []) :
    (settle tags b ds).1.filterMap Guard.comparison? =
      (repetitionsAfter before (Demand.occurrences ds)).map fun rep => (rep.first, rep.path) := by
  induction ds generalizing b before with
  | nil => rfl
  | cons d ds ih =>
    cases d with
    | guard g =>
      rw [Demand.guards, List.filterMap_cons] at hds
      cases hg : g.comparison? with
      | some paths => simp [hg] at hds
      | none =>
        simp only [hg] at hds
        rw [settle, List.filterMap_cons, hg]
        exact ih hb hds
    | occurs x p =>
      rw [Demand.occurrences, repetitionsAfter, ← hb x]
      have hnext := Bindings.find?_bind_of_lookup hb x p
      cases hx : b.find? x with
      | none =>
        rw [settle_fresh hx, List.filterMap_append, comparisons_tagGuards, List.nil_append]
        exact ih hnext hds
      | some first =>
        -- The table stays as it is, and the occurrence changes nothing in the list either.
        rw [Bindings.bind_of_find? hx] at hnext
        rw [settle_repeated hx, List.filterMap_cons, List.map_cons, ← ih hnext hds]
        rfl

namespace Clause

/-- The occurrences of the variables of a compiled clause are those its shape mentions, in
order.  Its parameters are these variables, each bound where it occurs first, with a check
of its tag there.  What its guards compare are exactly the repetitions, each with the first
occurrence of its variable, and so one less for a variable than it has occurrences. -/
theorem occurrences_settled {α : Type} {c : Clause} {r : Registry} {limit : Nat} {body : Body α}
    {arm : Arm α} (h : c.compile r limit body = .ok arm) :
    let occurrences := c.occurrences r
    let repeated := repetitions occurrences
    occurrences.map (·.1) = c.shape.mentions ∧
      c.params.Nodup ∧ (∀ x, x ∈ c.params ↔ x ∈ c.shape.variableNames) ∧
      (arm.bindings.map fun b => (b.1, some b.2)) =
        (c.params.map fun x => (x, occurrences.lookup x)) ∧
      arm.guards.filterMap Guard.comparison? = (repeated.map fun rep => (rep.first, rep.path)) ∧
      (∀ rep ∈ repeated, occurrences.lookup rep.name = some rep.first) ∧
      (∀ x, repeated.countP (·.name == x) = c.shape.mentions.count x - 1) ∧
      ∀ x p, occurrences.lookup x = some p → c.tagFor body.tags x ≠ .any →
        Guard.typeIs p (c.tagFor body.tags x) ∈ arm.guards := by
  intro occurrences repeated
  obtain ⟨hplan, -⟩ := compile_eq_ok h
  obtain ⟨assigned, ds, hcheck, -, hds, hguards, hbindings⟩ := compilePlan_eq_ok hplan
  obtain ⟨hdistinct, -, -, htags⟩ := checkParams_eq_ok hcheck
  obtain ⟨hlisted, huncompared⟩ := Shape.lists_of_demands hds
  have hmentions : occurrences.map (·.1) = c.shape.mentions := by
    rw [← Shape.demands_mentioned hds, hlisted]
    rfl
  have hrepeated : repeated = repetitionsAfter [] occurrences := repetitions_eq occurrences
  refine ⟨hmentions, hdistinct, ?params, ?bindings, ?comparisons, ?first, ?count, ?tag⟩
  case params =>
    intro x
    rw [Shape.variableNames, List.mem_eraseDups]
    exact (wellFormed_of_compilePlan hplan).mentioned x
  case bindings =>
    obtain ⟨hnames, hfound⟩ := Bindings.forParams_eq_ok hbindings
    rw [← hnames, List.map_map]
    refine List.map_congr_left fun b hb => ?_
    have hfind := hfound b hb
    rw [find?_settle, Bindings.find?_empty, Option.none_or, hlisted] at hfind
    rw [← hfind]
    rfl
  case comparisons =>
    have hnone : ∀ x, Bindings.empty.find? x = ([] : List (String × Path)).lookup x :=
      Bindings.find?_empty
    rw [hguards, hrepeated, comparisons_settle hnone huncompared, hlisted]
    rfl
  case first =>
    intro rep hrep
    rw [hrepeated] at hrep
    exact first_of_mem_repetitionsAfter hrep
  case count =>
    intro x
    rw [hrepeated, countP_repetitionsAfter, hmentions]
    rfl
  case tag =>
    intro x p hfirst htag
    have hlookup : (Demand.occurrences ds).lookup x = some p := by
      rw [hlisted]
      exact hfirst
    have hchecked : tagGuards (tagIn assigned x) p ⊆ arm.guards := by
      rw [hguards]
      exact tagGuards_subset_settle (Bindings.find?_empty x) hlookup
    rw [lookup_paramTags htags x] at hchecked
    exact hchecked (by simp [tagGuards, htag])

/-- The second coordinate of a point, twice more after another variable. -/
def ordinateClause : Clause :=
  .ofParams ["b", "a"]
    (.sequence .list [.construct ⟨0⟩ [.discard, .var "a"], .var "b", .var "a", .var "a"])

def echoBeforeInt : Body Value := ⟨"echo", [.value, .int], fun | .cons v _ => v⟩

def ordinate : Path := [.item 0, .field 1 "y"]

def ordinateArm : Arm Value where
  guards := [.typeIs [] .list, .countIs [] 4, .typeIs [.item 0] (.object ⟨0⟩),
    .typeIs ordinate .int, .sameValue ordinate [.item 2], .sameValue ordinate [.item 3]]
  bindings := [("b", [.item 1]), ("a", ordinate)]
  body := echoBeforeInt

theorem occurrences_settled_ordinate :
    ordinateClause.compile points 3 echoBeforeInt = .ok ordinateArm ∧
      (ordinateClause.occurrences points).map (·.1) = ["a", "b", "a", "a"] ∧
      (ordinateClause.occurrences points).lookup "a" = some ordinate ∧
      ordinateArm.guards.filterMap Guard.comparison? =
        (repetitions (ordinateClause.occurrences points)).map (fun rep => (rep.first, rep.path)) ∧
      (repetitions (ordinateClause.occurrences points)).countP (·.name == "a") = 2 ∧
      Guard.typeIs ordinate .int ∈ ordinateArm.guards := by
  have h : ordinateClause.compile points 3 echoBeforeInt = .ok ordinateArm := rfl
  obtain ⟨hmentions, -, -, -, hcomparisons, -, hcount, htag⟩ := occurrences_settled h
  have hfirst : (ordinateClause.occurrences points).lookup "a" = some ordinate := rfl
  exact ⟨h, hmentions, hfirst, hcomparisons, hcount "a", htag "a" ordinate hfirst (by decide)⟩

end Clause
end Destructure
