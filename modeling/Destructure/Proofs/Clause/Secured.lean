/-
Demands come after the guards that make sure of them.

The order of the demands of a shape is no accident: a position is checked before
anything below it is asked for.  `demands_secured` says so for every shape, of the
whole list of demands, as the property that each of them is secured by the guards
in front of it.  A secured step can then be taken on every value that passes those
guards, provided the value conforms where the step reads a field.
-/
import Destructure.Plan.Secured
import Destructure.Proofs.Clause.Compiled
import Destructure.Proofs.Clause.Parts
import Destructure.Proofs.Registry.Conforming

namespace Destructure

/-! ## Secured positions -/

variable {r : Registry} {before more : List Guard} {p q : Path} {step : Step}

theorem Step.Secured.mono (h : step.Secured r before q) (hsub : before ⊆ more) :
    step.Secured r more q := by
  cases step with
  | field i name =>
    obtain ⟨t, d, htype, hd, hi⟩ := h
    exact ⟨t, d, hsub htype, hd, hi⟩
  | item i =>
    obtain ⟨htype, n, hcount, hi⟩ := h
    exact ⟨htype.imp (hsub ·) (hsub ·), n, hsub hcount, hi⟩
  | key k => exact ⟨hsub h.1, hsub h.2⟩

theorem Path.Secured.mono (h : p.Secured r before) (hsub : before ⊆ more) : p.Secured r more :=
  fun q step rest hp => (h q step rest hp).mono hsub

theorem Path.secured_root : Path.root.Secured r before := by
  intro q step rest hp
  cases q <;> cases hp

theorem Path.Secured.child (h : p.Secured r before) (hstep : step.Secured r before p) :
    (p.child step).Secured r before := by
  intro q step' rest hp
  rcases List.append_eq_append_iff.mp hp with ⟨as, hq, hrest⟩ | ⟨bs, hq, hrest⟩
  · cases as with
    | nil =>
      rw [List.append_nil] at hq
      rw [List.nil_append, List.cons.injEq] at hrest
      rw [hq, ← hrest.1]
      exact hstep
    | cons a as => simp at hrest
  · cases bs with
    | nil =>
      rw [List.append_nil] at hq
      rw [List.nil_append, List.cons.injEq] at hrest
      rw [← hq, hrest.1]
      exact hstep
    | cons b bs =>
      rw [List.cons_append, List.cons.injEq] at hrest
      rw [hrest.1]
      exact h q b bs hq

theorem Path.Secured.singleton (h : p.Secured r before) : ∀ q ∈ [p], q.Secured r before := by
  intro q hq
  rw [List.mem_singleton.mp hq]
  exact h

/-- A path other than the empty one ends in a step that is secured. -/
theorem Path.Secured.last (h : (p.child step).Secured r before) : step.Secured r before p :=
  h p step [] rfl

theorem Guard.SecuredBy.mono {g : Guard} (h : g.SecuredBy r before) (hsub : before ⊆ more) :
    g.SecuredBy r more := by
  refine ⟨fun p hp => (h.1 p hp).mono hsub, ?_⟩
  cases g with
  | countIs p n => exact h.2.imp (hsub ·) (hsub ·)
  | hasKey p key => exact hsub h.2
  | _ => trivial

/-! ## Secured demands -/

/-- The guards among demands, in order. -/
def Demand.guards : List Demand → List Guard
  | [] => []
  | .guard g :: ds => g :: guards ds
  | .occurs _ _ :: ds => guards ds

theorem Demand.guards_map_guard (gs : List Guard) : guards (gs.map .guard) = gs := by
  induction gs with
  | nil => rfl
  | cons g gs ih => rw [List.map_cons, guards, ih]

/-- Every demand is secured by the guards in front of it. -/
def SecuredAll (r : Registry) : List Guard → List Demand → Prop
  | _, [] => True
  | before, .guard g :: ds => g.SecuredBy r before ∧ SecuredAll r (before ++ [g]) ds
  | before, .occurs _ p :: ds => p.Secured r before ∧ SecuredAll r before ds

namespace SecuredAll

variable {ds es : List Demand}

theorem mono (h : SecuredAll r before ds) (hsub : before ⊆ more) : SecuredAll r more ds := by
  induction ds generalizing before more with
  | nil => trivial
  | cons d ds ih =>
    cases d with
    | guard g =>
      refine ⟨h.1.mono hsub, ih h.2 (List.append_subset.mpr ⟨?_, List.subset_append_right ..⟩)⟩
      exact List.Subset.trans hsub (List.subset_append_left ..)
    | occurs x p => exact ⟨h.1.mono hsub, ih h.2 hsub⟩

theorem append (h : SecuredAll r before ds)
    (h' : SecuredAll r (before ++ Demand.guards ds) es) : SecuredAll r before (ds ++ es) := by
  induction ds generalizing before with
  | nil => simpa [Demand.guards] using h'
  | cons d ds ih =>
    cases d with
    | guard g => exact ⟨h.1, ih h.2 (by simpa [Demand.guards] using h')⟩
    | occurs x p => exact ⟨h.1, ih h.2 h'⟩

theorem of_guards {gs : List Guard} (h : ∀ g ∈ gs, g.SecuredBy r before) :
    SecuredAll r before (gs.map .guard) := by
  induction gs generalizing before with
  | nil => trivial
  | cons g gs ih =>
    refine ⟨h g List.mem_cons_self, ih fun g' hg' => ?_⟩
    exact (h g' (List.mem_cons_of_mem _ hg')).mono (List.subset_append_left ..)

/-- The position of a variable is secured by the guards of the list. -/
theorem occurrence (h : SecuredAll r before ds) {x : String}
    (hx : (x, p) ∈ Demand.occurrences ds) : p.Secured r (before ++ Demand.guards ds) := by
  induction ds generalizing before with
  | nil => exact absurd hx List.not_mem_nil
  | cons d ds ih =>
    cases d with
    | guard g =>
      have hrest := ih h.2 hx
      rwa [List.append_assoc] at hrest
    | occurs y q =>
      rcases List.mem_cons.mp hx with heq | hx
      · cases heq
        exact h.1.mono (List.subset_append_left ..)
      · exact ih h.2 hx

end SecuredAll

/-! ## Every shape -/

namespace Shape

variable {declared : List String}

/-- At a secured position the demands of the shape are secured. -/
def Secures (r : Registry) (p : Path) (_ : Shape) (ds : List Demand) : Prop :=
  ∀ before, p.Secured r before → SecuredAll r before ds

theorem securedAll_of_below {parts : List (Step × Shape)} {ds : List Demand}
    (h : Below (Secures r) p parts ds) (hp : p.Secured r before)
    (hsteps : ∀ part ∈ parts, part.1.Secured r before p) : SecuredAll r before ds := by
  induction h with
  | nil => trivial
  | @cons step s parts ds es head _ ih =>
    have hchild := hp.child (hsteps (step, s) List.mem_cons_self)
    have hrest := ih fun part hpart => hsteps part (List.mem_cons_of_mem _ hpart)
    exact (head before hchild).append (hrest.mono (List.subset_append_left ..))

/-- A node checks the type at its position first.  Its further guards and the steps to its
parts build on that. -/
theorem secures_node {s : Shape} {tag : Tag} {gs : List Guard} {parts : List (Step × Shape)}
    {ds : List Demand} (h : Below (Secures r) p parts ds)
    (hgs : ∀ before, p.Secured r before → Guard.typeIs p tag ∈ before →
      ∀ g ∈ gs, g.SecuredBy r before)
    (hsteps : ∀ before, Guard.typeIs p tag ∈ before → gs ⊆ before →
      ∀ part ∈ parts, part.1.Secured r before p) :
    Secures r p s ((Guard.typeIs p tag :: gs).map .guard ++ ds) := by
  intro before hp
  have htype : (Guard.typeIs p tag).SecuredBy r before :=
    ⟨hp.singleton, trivial⟩
  have hown : SecuredAll r before ((Guard.typeIs p tag :: gs).map .guard) :=
    ⟨htype, .of_guards (hgs _ (hp.mono (List.subset_append_left ..))
      (List.mem_append_right _ List.mem_cons_self))⟩
  refine hown.append ?_
  rw [Demand.guards_map_guard]
  refine securedAll_of_below h (hp.mono (List.subset_append_left ..)) (hsteps _ (by simp) ?_)
  exact fun g hg => List.mem_append_right _ (List.mem_cons_of_mem _ hg)

theorem secures_sequence {kind : SequenceKind} {items : List Shape} {ds : List Demand}
    (h : Below (Secures r) p (itemParts 0 items) ds) :
    Secures r p (.sequence kind items)
      ([Guard.typeIs p kind.tag, .countIs p items.length].map .guard ++ ds) := by
  have hkind : ∀ before : List Guard, Guard.typeIs p kind.tag ∈ before →
      Guard.typeIs p .array ∈ before ∨ Guard.typeIs p .list ∈ before := by
    intro before htype
    cases kind
    · exact .inl htype
    · exact .inr htype
  refine secures_node h (fun before hp htype g hg => ?_) fun before htype hgs part hpart => ?_
  · rw [List.mem_singleton.mp hg]
    exact ⟨hp.singleton, hkind before htype⟩
  · obtain ⟨i, hi, hstep⟩ := mem_itemParts hpart
    rw [hstep]
    exact ⟨hkind before htype, items.length, hgs List.mem_cons_self, by omega⟩

theorem secures_map {entries : List (String × Shape)} {ds : List Demand}
    (h : Below (Secures r) p (entryParts entries) ds) :
    Secures r p (.map entries)
      ((Guard.typeIs p .map :: entries.map fun e => .hasKey p e.1).map .guard ++ ds) := by
  refine secures_node h (fun before hp htype g hg => ?_) fun before htype hgs part hpart => ?_
  · obtain ⟨e, -, rfl⟩ := List.mem_map.mp hg
    exact ⟨hp.singleton, htype⟩
  · obtain ⟨e, he, rfl⟩ := List.mem_map.mp hpart
    exact ⟨htype, hgs (List.mem_map.mpr ⟨e, he, rfl⟩)⟩

theorem secures_instance {s : Shape} {t : TypeId} {parts : List (Step × Shape)} {ds : List Demand}
    (hfields : ∀ part ∈ parts, ∃ f name, part.1 = f.step ∧ r.field t name = .ok f)
    (h : Below (Secures r) p parts ds) :
    Secures r p s ([Guard.typeIs p (.object t)].map .guard ++ ds) := by
  refine secures_node h (fun before _ _ g hg => absurd hg List.not_mem_nil)
    fun before htype _ part hpart => ?_
  obtain ⟨f, name, hstep, hf⟩ := hfields part hpart
  obtain ⟨d, hd, hindex, -⟩ := Registry.field_eq_ok hf
  rw [hstep]
  exact ⟨t, d, htype, hd, (List.getElem?_eq_some_iff.mp hindex).1⟩

/-- The demands of every shape are secured at a secured position. -/
theorem demands_secured {s : Shape} {ds : List Demand} (h : demands r declared p s = .ok ds) :
    Secures r p s ds := by
  refine demands_induction (motive := Secures r) ?discard ?literal ?var ?sequence ?map ?construct
    ?constructWith h
  case discard => exact fun p before _ => trivial
  case literal =>
    exact fun p v before hp => ⟨⟨hp.singleton, trivial⟩, trivial⟩
  case var => exact fun p x _ before hp => ⟨hp, trivial⟩
  case sequence => exact fun p kind items ds _ hbelow => secures_sequence hbelow
  case map => exact fun p entries ds _ hbelow => secures_map hbelow
  case construct =>
    exact fun p t args ctor parts ds _ hargs hbelow => secures_instance hargs.steps hbelow
  case constructWith =>
    intro p t args fields ctor parts more ds es _ hargs _ hfields hbelow hbelow'
    refine secures_instance (fun part hpart => ?_) (hbelow.append hbelow')
    rcases List.mem_append.mp hpart with hpart | hpart
    · exact hargs.steps part hpart
    · exact hfields.steps part hpart

end Shape

/-! ## Taking secured steps -/

/-- Once the guards hold, a secured step can be taken, except that a field may be missing
from an instance that does not conform. -/
theorem Step.Secured.resolves {guards : List Guard} (h : step.Secured r guards q) {v : Value}
    (hguards : ∀ g ∈ guards, g.holds v = true)
    (hfield : r.conforms v = true ∨ ∀ i name, step ≠ .field i name) :
    ∃ w, (q.child step).resolve v = some w := by
  have htype : ∀ tag, Guard.typeIs q tag ∈ guards →
      ∃ u, q.resolve v = some u ∧ tag.admits u = true := fun tag htag => by
    simpa [Guard.holds, Option.any_eq_true] using hguards _ htag
  cases step with
  | field i name =>
    obtain ⟨t, d, htag, hd, hi⟩ := h
    obtain ⟨u, hu, hadmits⟩ := htype _ htag
    have hv : r.conforms v = true := hfield.resolve_right fun hne => hne i name rfl
    cases u <;> simp [Tag.admits] at hadmits
    subst hadmits
    obtain ⟨w, hw⟩ :=
      Registry.exists_field_of_conforms (Registry.conforms_of_resolve hv hu) hd hi
    exact ⟨w, by rw [Path.resolve_child, hu]; exact hw⟩
  | item i =>
    obtain ⟨htag, n, hcount, hi⟩ := h
    obtain ⟨kind, htag⟩ : ∃ kind : SequenceKind, Guard.typeIs q kind.tag ∈ guards :=
      htag.elim (fun h => ⟨.array, h⟩) fun h => ⟨.list, h⟩
    obtain ⟨u, hu, hadmits⟩ := htype _ htag
    obtain ⟨vs, -, hlen, hfollow⟩ := SequenceKind.exists_items hadmits
    have hn := hguards _ hcount
    simp only [Guard.holds, hu, Option.bind_some, hlen, beq_iff_eq, Option.some.injEq] at hn
    refine ⟨vs[i], ?_⟩
    rw [Path.resolve_child, hu, Option.bind_some, hfollow, List.getElem?_eq_getElem]
  | key k =>
    obtain ⟨htag, hkey⟩ := h
    obtain ⟨u, hu, hadmits⟩ := htype _ htag
    have hk := hguards _ hkey
    cases u <;> simp [Tag.admits] at hadmits
    simp only [Guard.holds, hu, Option.bind_some, Value.entries?, Option.any_some] at hk
    obtain ⟨w, hw⟩ := Option.isSome_iff_exists.mp hk
    exact ⟨w, by rw [Path.resolve_child, hu]; exact hw⟩

end Destructure
