/-
How large a compiled clause can get.

The walk over a shape goes one step further down with every level of nesting, so no path
has as many steps as the shape has levels.  Of the guards every node is charged with at most
three: two on its own position, and the one that a map puts in front for the key of each of
its entries, which is charged to the entry.  The root is nobody's entry, hence the one to
spare in `Bounded.few`.

Settling adds nothing to this.  A variable is bound at a path where it occurs, and every
demand leaves behind one guard at most.
-/
import Destructure.Plan.Secured
import Destructure.Proofs.Clause.Compiled
import Destructure.Proofs.Clause.Layout

namespace Destructure

/-! ## Lists of shapes -/

namespace Shape

theorem depth_pos (s : Shape) : 0 < s.depth := by
  cases s <;> exact Nat.succ_pos _

theorem size_pos (s : Shape) : 0 < s.size := by
  cases s <;> exact Nat.succ_pos _

theorem sizeEntries_eq_sizeItems (es : List (String × Shape)) :
    sizeEntries es = sizeItems (es.map (·.2)) := by
  induction es with
  | nil => rfl
  | cons e es ih => rw [sizeEntries, ih, List.map_cons, sizeItems]

theorem sizeItems_append (ss ss' : List Shape) :
    sizeItems (ss ++ ss') = sizeItems ss + sizeItems ss' := by
  induction ss with
  | nil => exact (Nat.zero_add _).symm
  | cons s ss ih => rw [List.cons_append, sizeItems, sizeItems, ih, Nat.add_assoc]

variable {ss ss' : List Shape}

theorem sizeItems_le_of_sublist (h : ss.Sublist ss') : sizeItems ss ≤ sizeItems ss' := by
  induction h with
  | slnil => exact Nat.le_refl _
  | cons s _ ih => exact Nat.le_trans ih (Nat.le_add_left _ s.size)
  | cons_cons s _ ih => exact Nat.add_le_add_left ih s.size

theorem depthItems_le_of_sublist (h : ss.Sublist ss') : depthItems ss ≤ depthItems ss' := by
  induction h with
  | slnil => exact Nat.le_refl _
  | cons s _ ih => exact Nat.le_trans ih (Nat.le_max_right s.depth _)
  | cons_cons s _ ih =>
    rw [depthItems, depthItems]
    omega

end Shape

/-! ## Demands -/

/-- The paths that a demand is about. -/
def Demand.paths : Demand → List Path
  | .guard g => g.paths
  | .occurs _ p => [p]

/-- The demands of a shape on the value at a path go no further below it than the shape is
deep, and there are at most three for each node. -/
structure Bounded (p : Path) (s : Shape) (ds : List Demand) : Prop where
  short : ∀ d ∈ ds, ∀ q ∈ d.paths, q.length < p.length + s.depth
  few : ds.length + 1 ≤ 3 * s.size

section Parts

variable {p : Path} {parts : List (Step × Shape)} {ds : List Demand}

/-- The parts have room for one more demand each. -/
theorem Below.few (h : Below Bounded p parts ds) :
    ds.length + parts.length ≤ 3 * Shape.sizeItems (parts.map (·.2)) := by
  induction h with
  | nil => exact Nat.le_refl 0
  | @cons step s parts ds es head _ ih =>
    have hfew : ds.length + 1 ≤ 3 * s.size := head.few
    simp only [List.map_cons, Shape.sizeItems, List.length_append, List.length_cons]
    omega

theorem Below.short (h : Below Bounded p parts ds) :
    ∀ d ∈ ds, ∀ q ∈ d.paths, q.length ≤ p.length + Shape.depthItems (parts.map (·.2)) := by
  induction h with
  | nil => exact fun d hd => absurd hd List.not_mem_nil
  | @cons step s parts ds es head _ ih =>
    intro d hd q hq
    simp only [List.map_cons, Shape.depthItems]
    rcases List.mem_append.mp hd with hd | hd
    · have hshort : q.length < (p.child step).length + s.depth := head.short d hd q hq
      have hchild : (p.child step).length = p.length + 1 := List.length_append
      omega
    · have hshort := ih d hd q hq
      omega

theorem bounded_leaf {s : Shape} {d : Demand} (hpaths : d.paths = [p]) : Bounded p s [d] := by
  constructor
  case short =>
    intro d' hd q hq
    have hpos : 0 < s.depth := s.depth_pos
    rw [List.mem_singleton.mp hd, hpaths, List.mem_singleton] at hq
    rw [hq]
    omega
  case few =>
    have hpos : 0 < s.size := s.size_pos
    rw [List.length_singleton]
    omega

/-- A node charged with two guards of its own, and with one for each of its parts. -/
theorem bounded_node {s : Shape} {guards : List Guard} (h : Below Bounded p parts ds)
    (hpaths : ∀ g ∈ guards, g.paths = [p]) (hcount : guards.length ≤ 2 + parts.length)
    (hdepth : Shape.depthItems (parts.map (·.2)) < s.depth)
    (hsize : Shape.sizeItems (parts.map (·.2)) < s.size) :
    Bounded p s (guards.map .guard ++ ds) := by
  constructor
  case short =>
    intro d hd q hq
    rcases List.mem_append.mp hd with hd | hd
    · obtain ⟨g, hg, rfl⟩ := List.mem_map.mp hd
      rw [Demand.paths, hpaths g hg, List.mem_singleton] at hq
      rw [hq]
      omega
    · have hshort := h.short d hd q hq
      omega
  case few =>
    have hfew := h.few
    rw [List.length_append, List.length_map]
    omega

end Parts

namespace Shape

variable {r : Registry} {declared : List String}

/-- The demands of every shape are bounded. -/
theorem demands_bounded {p : Path} {s : Shape} {ds : List Demand}
    (h : demands r declared p s = .ok ds) : Bounded p s ds := by
  refine demands_induction (motive := Bounded) ?discard ?literal ?var ?sequence ?map ?construct
    ?constructWith h
  case discard => exact fun p => ⟨fun d hd => absurd hd List.not_mem_nil, by decide⟩
  case literal => exact fun p v => bounded_leaf rfl
  case var => exact fun p x _ => bounded_leaf rfl
  case sequence =>
    intro p kind items ds _ hbelow
    refine bounded_node hbelow (by simp [Guard.paths]) (Nat.le_add_right 2 _) ?_ ?_
    · rw [map_snd_itemParts]
      exact Nat.lt_succ_self _
    · rw [map_snd_itemParts]
      exact Nat.lt_succ_self _
  case map =>
    intro p entries ds _ hbelow
    -- Beside its own guard a map has one for each of its parts.
    refine bounded_node hbelow (List.forall_mem_cons.mpr ⟨rfl, fun g hg => ?_⟩) ?_ ?_ ?_
    · obtain ⟨e, -, rfl⟩ := List.mem_map.mp hg
      rfl
    · simp only [entryParts, List.length_cons, List.length_map]
      omega
    · rw [map_snd_entryParts, ← depthEntries_eq_depthItems]
      exact Nat.lt_succ_self _
    · rw [map_snd_entryParts, ← sizeEntries_eq_sizeItems]
      exact Nat.lt_succ_self _
  case construct =>
    intro p t args ctor parts ds _ hargs hbelow
    refine bounded_node hbelow (by simp [Guard.paths]) ?_ ?_ ?_
    · exact Nat.le_add_right_of_le (Nat.le_succ 1)
    · exact Nat.lt_succ_of_le (depthItems_le_of_sublist hargs.sublist)
    · exact Nat.lt_succ_of_le (sizeItems_le_of_sublist hargs.sublist)
  case constructWith =>
    intro p t args fields ctor parts more ds es _ hargs _ hfields hbelow hbelow'
    have hshapes : ((parts ++ more).map (·.2)).Sublist (args ++ fields.map (·.2)) := by
      rw [List.map_append, hfields.map_snd]
      exact hargs.sublist.append_right _
    refine bounded_node (hbelow.append hbelow') (by simp [Guard.paths]) ?_ ?_ ?_
    · exact Nat.le_add_right_of_le (Nat.le_succ 1)
    · have hdepth := depthItems_le_of_sublist hshapes
      rw [depthItems_append, ← depthEntries_eq_depthItems] at hdepth
      exact Nat.lt_succ_of_le hdepth
    · have hsize := sizeItems_le_of_sublist hshapes
      rw [sizeItems_append, ← sizeEntries_eq_sizeItems] at hsize
      exact Nat.lt_succ_of_le hsize

end Shape

/-! ## Settled demands -/

section Settle

variable {b : Bindings} {ds : List Demand} {P : Path → Prop}

theorem length_tagGuards_le (tag : Tag) (p : Path) : (tagGuards tag p).length ≤ 1 := by
  unfold tagGuards
  split
  · exact Nat.zero_le 1
  · exact Nat.le_refl 1

theorem length_settle_le (tags : List (String × Tag)) (b : Bindings) (ds : List Demand) :
    (settle tags b ds).1.length ≤ ds.length := by
  induction ds generalizing b with
  | nil => exact Nat.le_refl 0
  | cons d ds ih =>
    cases d with
    | guard g => exact Nat.succ_le_succ (ih b)
    | occurs x p =>
      cases hx : b.find? x with
      | some first =>
        rw [settle_repeated hx]
        exact Nat.succ_le_succ (ih b)
      | none =>
        have hrest := ih (b.bind x p).2
        have htag := length_tagGuards_le (tagIn tags x) p
        rw [settle_fresh hx, List.length_append, List.length_cons]
        omega

/-- Guards and bindings have no other paths than the demands and the bindings before. -/
theorem settle_paths (tags : List (String × Tag)) (hds : ∀ d ∈ ds, ∀ q ∈ d.paths, P q)
    (hb : ∀ x q, b.find? x = some q → P q) :
    (∀ g ∈ (settle tags b ds).1, ∀ q ∈ g.paths, P q) ∧
      ∀ x q, (settle tags b ds).2.find? x = some q → P q := by
  induction ds generalizing b with
  | nil => exact ⟨fun g hg => absurd hg List.not_mem_nil, hb⟩
  | cons d ds ih =>
    obtain ⟨hd, hrest⟩ := List.forall_mem_cons.mp hds
    cases d with
    | guard g =>
      obtain ⟨hguards, hbound⟩ := ih hrest hb
      exact ⟨List.forall_mem_cons.mpr ⟨hd, hguards⟩, hbound⟩
    | occurs x p =>
      have hp : P p := hd p List.mem_cons_self
      cases hx : b.find? x with
      | some first =>
        rw [settle_repeated hx]
        obtain ⟨hguards, hbound⟩ := ih hrest hb
        -- The comparison reads a second path, which is one of the bindings before.
        have hsame : ∀ q ∈ (Guard.sameValue first p).paths, P q :=
          List.forall_mem_cons.mpr ⟨hb x first hx, hd⟩
        exact ⟨List.forall_mem_cons.mpr ⟨hsame, hguards⟩, hbound⟩
      | none =>
        rw [settle_fresh hx]
        obtain ⟨hguards, hbound⟩ := ih hrest (Bindings.forall_find?_bind hb hp)
        refine ⟨List.forall_mem_append.mpr ⟨fun g hg => ?_, hguards⟩, hbound⟩
        unfold tagGuards at hg
        split at hg
        · exact absurd hg List.not_mem_nil
        · rw [List.mem_singleton.mp hg]
          exact hd

end Settle

/-! ## Plans -/

/-- The paths in the guards and the bindings of a plan. -/
def Plan.paths (plan : Plan) : List Path :=
  plan.guards.flatMap Guard.paths ++ plan.bindings.map (·.2)

namespace Clause

variable {α : Type} {c : Clause} {r : Registry} {limit : Nat} {tags : List Tag} {plan : Plan}

theorem length_lt_depth (h : c.compilePlan r limit tags = .ok plan) :
    ∀ p ∈ plan.paths, p.length < c.shape.depth := by
  obtain ⟨assigned, ds, -, -, hds, hguards, hbindings⟩ := compilePlan_eq_ok h
  have hshort : ∀ d ∈ ds, ∀ q ∈ d.paths, q.length < c.shape.depth := by
    intro d hd q hq
    simpa [Path.root] using (Shape.demands_bounded hds).short d hd q hq
  have hempty : ∀ x (q : Path), Bindings.empty.find? x = some q → q.length < c.shape.depth := by
    intro x q hx
    cases hx
  obtain ⟨hpaths, hbound⟩ := settle_paths assigned hshort hempty
  rw [← hguards] at hpaths
  intro p hp
  rcases List.mem_append.mp hp with hp | hp
  · obtain ⟨g, hg, hp⟩ := List.mem_flatMap.mp hp
    exact hpaths g hg p hp
  · obtain ⟨e, he, rfl⟩ := List.mem_map.mp hp
    exact hbound e.1 e.2 ((Bindings.forParams_eq_ok hbindings).2 e he)

theorem length_guards_lt (h : c.compilePlan r limit tags = .ok plan) :
    plan.guards.length < 3 * c.shape.size := by
  obtain ⟨assigned, ds, -, -, hds, hguards, -⟩ := compilePlan_eq_ok h
  rw [hguards]
  exact Nat.lt_of_le_of_lt (length_settle_le assigned _ ds) (Shape.demands_bounded hds).few

theorem depth_le_limit {body : Body α} {arm : Arm α} (h : c.compile r limit body = .ok arm) :
    c.shape.depth ≤ limit := by
  obtain ⟨_, _, -, hdepth, -⟩ := compilePlan_eq_ok (compile_eq_ok h).1
  exact hdepth

/-- What a clause compiles to is bounded by its shape and by the limit on depth.  Every path
has fewer steps than the shape has levels, hence fewer than the limit, and there are at most
three guards for each node.  So nothing compiles under a limit of zero, and under a limit of
one only a shape of depth one does, with all its paths at the root. -/
theorem compiled_size_bounded (c : Clause) (r : Registry) (body : Body α) :
    (∀ limit arm, c.compile r limit body = .ok arm →
        (∀ p ∈ arm.paths, p.length ≤ c.shape.depth - 1 ∧ p.length < limit) ∧
          arm.guards.length ≤ 3 * c.shape.size) ∧
      (∀ arm, c.compile r 0 body ≠ .ok arm) ∧
      ∀ arm, c.compile r 1 body = .ok arm →
        c.shape.depth = 1 ∧ ∀ p ∈ arm.paths, p = Path.root := by
  have hpos : 0 < c.shape.depth := c.shape.depth_pos
  refine ⟨?bounded, ?zero, ?one⟩
  case bounded =>
    intro limit arm h
    have hplan := (compile_eq_ok h).1
    have hdepth : c.shape.depth ≤ limit := depth_le_limit h
    refine ⟨fun p hp => ?_, Nat.le_of_lt (length_guards_lt hplan)⟩
    have hlt : p.length < c.shape.depth := length_lt_depth hplan p hp
    exact ⟨by omega, by omega⟩
  case zero =>
    intro arm h
    have hdepth : c.shape.depth ≤ 0 := depth_le_limit h
    omega
  case one =>
    intro arm h
    have hdepth : c.shape.depth ≤ 1 := depth_le_limit h
    refine ⟨by omega, fun p hp => ?_⟩
    have hlt : p.length < c.shape.depth := length_lt_depth (compile_eq_ok h).1 p hp
    exact List.eq_nil_of_length_eq_zero (by omega)

/-- Two empty sequences under keys: seven guards for three nodes. -/
def emptyUnderKeys : Clause :=
  .ofParams [] (.map [("a", .sequence .array []), ("b", .sequence .list [])])

def constantly (label : String) : Body String := ⟨label, [], fun _ => label⟩

def emptyUnderKeysArm : Arm String where
  guards := [.typeIs [] .map, .hasKey [] "a", .hasKey [] "b", .typeIs [.key "a"] .array,
    .countIs [.key "a"] 0, .typeIs [.key "b"] .list, .countIs [.key "b"] 0]
  bindings := []
  body := constantly "empty"

theorem compiled_size_bounded_emptyUnderKeys :
    let unit := Clause.ofParams [] (.literal .unit)
    emptyUnderKeys.compile .empty 2 (constantly "empty") = .ok emptyUnderKeysArm ∧
      emptyUnderKeys.shape.depth = 2 ∧ emptyUnderKeys.shape.size = 3 ∧
      (∀ p ∈ emptyUnderKeysArm.paths, p.length ≤ 1 ∧ p.length < 2) ∧
      emptyUnderKeysArm.guards.length ≤ 9 ∧
      emptyUnderKeys.compile .empty 1 (constantly "empty") = .error (.tooDeep 1) ∧
      (∃ arm, unit.compile .empty 1 (constantly "unit") = .ok arm ∧
        ∀ p ∈ arm.paths, p = Path.root) ∧
      ∀ arm, unit.compile .empty 0 (constantly "unit") ≠ .ok arm := by
  intro unit
  have h : emptyUnderKeys.compile .empty 2 (constantly "empty") = .ok emptyUnderKeysArm := rfl
  have hunit : unit.compile .empty 1 (constantly "unit") =
      .ok ⟨⟨[.eqLiteral [] .unit], []⟩, constantly "unit"⟩ := rfl
  obtain ⟨hbounded, -⟩ := compiled_size_bounded emptyUnderKeys .empty (constantly "empty")
  obtain ⟨-, hzero, hone⟩ := compiled_size_bounded unit .empty (constantly "unit")
  obtain ⟨hpaths, hguards⟩ := hbounded 2 emptyUnderKeysArm h
  exact ⟨h, rfl, rfl, hpaths, hguards, rfl, ⟨_, hunit, (hone _ hunit).2⟩, hzero⟩

end Clause
end Destructure
