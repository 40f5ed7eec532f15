/-
The parts of a shape, and induction along the demands of a shape.

A composite shape puts guards on its own position and passes on to the sub-shapes
at the positions right below.  What differs between the kinds of shapes is which
sub-shapes those are and the steps to them.  Here both are collected in one list
of parts, so a statement on the demands of all shapes needs one case for each kind
of node and one induction on a list of parts.

`demands_induction` is the principle.  It says everything a successful layout is
made of, the lookups that succeeded included.
-/
import Destructure.Clause.Demand
import Destructure.Proofs.Registry.Lookup

namespace Destructure

/-! ## Induction on shapes -/

namespace Shape

/-- Induction on shapes, with the hypothesis for every sub-shape in the lists that a
shape holds. -/
@[elab_as_elim, induction_eliminator]
theorem induct {motive : Shape → Prop}
    (discard : motive discard)
    (literal : ∀ v, motive (literal v))
    (var : ∀ x, motive (var x))
    (sequence : ∀ kind items, (∀ s ∈ items, motive s) → motive (sequence kind items))
    (map : ∀ entries, (∀ e ∈ entries, motive e.2) → motive (map entries))
    (construct : ∀ t args, (∀ s ∈ args, motive s) → motive (construct t args))
    (constructWith : ∀ t args fields, (∀ s ∈ args, motive s) → (∀ e ∈ fields, motive e.2) →
      motive (constructWith t args fields))
    (s : Shape) : motive s := by
  refine @Shape.rec motive (fun ss => ∀ s ∈ ss, motive s) (fun es => ∀ e ∈ es, motive e.2)
    (fun e => motive e.2) discard literal var sequence map construct constructWith ?_ ?_ ?_ ?_ ?_ s
  · exact fun s hs => absurd hs List.not_mem_nil
  · intro s ss hs hss s' hs'
    rcases List.mem_cons.mp hs' with rfl | hs'
    · exact hs
    · exact hss s' hs'
  · exact fun e he => absurd he List.not_mem_nil
  · intro e es he hes e' he'
    rcases List.mem_cons.mp he' with rfl | he'
    · exact he
    · exact hes e' he'
  · exact fun _ _ hs => hs

theorem mentionsItems_eq_flatMap (ss : List Shape) :
    mentionsItems ss = ss.flatMap mentions := by
  induction ss with
  | nil => rfl
  | cons s ss ih => rw [mentionsItems, ih, List.flatMap_cons]

theorem mentionsEntries_eq_flatMap (es : List (String × Shape)) :
    mentionsEntries es = es.flatMap fun e => e.2.mentions := by
  induction es with
  | nil => rfl
  | cons e es ih => rw [mentionsEntries, ih, List.flatMap_cons]

theorem mentions_subset_mentionsItems {ss : List Shape} {s : Shape} (hs : s ∈ ss) :
    s.mentions ⊆ mentionsItems ss := by
  rw [mentionsItems_eq_flatMap]
  exact fun x hx => List.mem_flatMap_of_mem hs hx

theorem mentions_subset_mentionsEntries {es : List (String × Shape)} {e : String × Shape}
    (he : e ∈ es) : e.2.mentions ⊆ mentionsEntries es := by
  rw [mentionsEntries_eq_flatMap]
  exact fun x hx => List.mem_flatMap_of_mem he hx

end Shape

/-! ## Parts

A part is a sub-shape with the step that leads to its position. -/

/-- The elements of a sequence, the first of them at index `i`. -/
def itemParts (i : Nat) : List Shape → List (Step × Shape)
  | [] => []
  | s :: ss => (.item i, s) :: itemParts (i + 1) ss

theorem mem_itemParts {i : Nat} {ss : List Shape} {part : Step × Shape}
    (h : part ∈ itemParts i ss) : ∃ j, j < i + ss.length ∧ part.1 = .item j := by
  induction ss generalizing i with
  | nil => exact absurd h List.not_mem_nil
  | cons s ss ih =>
    rw [List.length_cons]
    rcases List.mem_cons.mp h with rfl | h
    · exact ⟨i, by omega, rfl⟩
    · obtain ⟨j, hj, hstep⟩ := ih h
      exact ⟨j, by omega, hstep⟩

theorem map_snd_itemParts (i : Nat) (ss : List Shape) : (itemParts i ss).map (·.2) = ss := by
  induction ss generalizing i with
  | nil => rfl
  | cons s ss ih => rw [itemParts, List.map_cons, ih]

/-- The entries of a map. -/
def entryParts (entries : List (String × Shape)) : List (Step × Shape) :=
  entries.map fun e => (.key e.1, e.2)

theorem map_snd_entryParts (es : List (String × Shape)) :
    (entryParts es).map (·.2) = es.map (·.2) := by
  rw [entryParts, List.map_map]
  rfl

/-- The arguments of a constructor that are looked at, each at the field it initialises.
The first argument is at position `i`; discarded ones are no parts. -/
inductive ArgParts (r : Registry) (t : TypeId) (arity : Nat) :
    Nat → List Shape → List (Step × Shape) → Prop where
  | nil {i} : ArgParts r t arity i [] []
  | discard {i ss parts} (rest : ArgParts r t arity (i + 1) ss parts) :
      ArgParts r t arity i (.discard :: ss) parts
  | field {i s ss parts f} (read : s ≠ .discard) (found : r.argField t arity i = .ok f)
      (rest : ArgParts r t arity (i + 1) ss parts) :
      ArgParts r t arity i (s :: ss) ((f.step, s) :: parts)

/-- The named fields of an instance. -/
inductive FieldParts (r : Registry) (t : TypeId) :
    List (String × Shape) → List (Step × Shape) → Prop where
  | nil : FieldParts r t [] []
  | field {name s ss parts f} (found : r.field t name = .ok f) (rest : FieldParts r t ss parts) :
      FieldParts r t ((name, s) :: ss) ((f.step, s) :: parts)

/-- The demands of parts below a position, part by part, where `P` relates the position
of a part, its shape and its demands. -/
inductive Below (P : Path → Shape → List Demand → Prop) (p : Path) :
    List (Step × Shape) → List Demand → Prop where
  | nil : Below P p [] []
  | cons {step s parts ds es} (head : P (p.child step) s ds) (tail : Below P p parts es) :
      Below P p ((step, s) :: parts) (ds ++ es)

theorem Below.append {P : Path → Shape → List Demand → Prop} {p : Path}
    {parts more : List (Step × Shape)} {ds es : List Demand}
    (h : Below P p parts ds) (hmore : Below P p more es) :
    Below P p (parts ++ more) (ds ++ es) := by
  induction h with
  | nil => exact hmore
  | cons head _ ih =>
    rw [List.cons_append, List.append_assoc]
    exact .cons head ih

/-! ## Elements and fields of parts -/

theorem SequenceKind.exists_items {kind : SequenceKind} {u : Value}
    (h : kind.tag.admits u = true) :
    ∃ vs, u.items? = some vs ∧ u.count? = some vs.length ∧
      ∀ i, (Step.item i).follow u = vs[i]? := by
  cases kind <;> cases u <;> simp [SequenceKind.tag, Tag.admits] at h <;>
    exact ⟨_, rfl, rfl, fun _ => rfl⟩

theorem ArgParts.steps {r : Registry} {t : TypeId} {arity i : Nat} {ss : List Shape}
    {parts : List (Step × Shape)} (h : ArgParts r t arity i ss parts) :
    ∀ part ∈ parts, ∃ f name, part.1 = f.step ∧ r.field t name = .ok f := by
  induction h with
  | nil => exact fun part hp => absurd hp List.not_mem_nil
  | discard _ ih => exact ih
  | @field i s ss parts f _ found _ ih =>
    intro part hp
    rcases List.mem_cons.mp hp with rfl | hp
    · obtain ⟨name, hname⟩ := Registry.argField_eq_ok found
      exact ⟨f, name, rfl, hname⟩
    · exact ih part hp

/-- Discarded arguments are left out. -/
theorem ArgParts.sublist {r : Registry} {t : TypeId} {arity i : Nat} {ss : List Shape}
    {parts : List (Step × Shape)} (h : ArgParts r t arity i ss parts) :
    (parts.map (·.2)).Sublist ss := by
  induction h with
  | nil => exact List.Sublist.slnil
  | discard _ ih => exact ih.cons _
  | field _ _ _ ih => exact ih.cons_cons _

theorem FieldParts.map_snd {r : Registry} {t : TypeId} {ss : List (String × Shape)}
    {parts : List (Step × Shape)} (h : FieldParts r t ss parts) :
    parts.map (·.2) = ss.map (·.2) := by
  induction h with
  | nil => rfl
  | field _ _ ih => rw [List.map_cons, List.map_cons, ih]

theorem FieldParts.steps {r : Registry} {t : TypeId} {ss : List (String × Shape)}
    {parts : List (Step × Shape)} (h : FieldParts r t ss parts) :
    ∀ part ∈ parts, ∃ f name, part.1 = f.step ∧ r.field t name = .ok f := by
  induction h with
  | nil => exact fun part hp => absurd hp List.not_mem_nil
  | @field name s ss parts f found _ ih =>
    intro part hp
    rcases List.mem_cons.mp hp with rfl | hp
    · exact ⟨f, name, rfl, found⟩
    · exact ih part hp

/-! ## Demands by parts -/

namespace Shape

theorem andThen_eq_ok {first rest : Except ClauseError (List Demand)} {ds : List Demand}
    (h : andThen first rest = .ok ds) :
    ∃ es fs, first = .ok es ∧ rest = .ok fs ∧ ds = es ++ fs := by
  unfold andThen at h
  split at h
  · cases h
  · split at h
    · cases h
    · cases h
      exact ⟨_, _, rfl, rfl, rfl⟩

theorem onPosition_eq_ok {guards : List Guard} {below : Except ClauseError (List Demand)}
    {ds : List Demand} (h : onPosition guards below = .ok ds) :
    ∃ es, below = .ok es ∧ ds = guards.map .guard ++ es := by
  obtain ⟨es, fs, he, hfs, hds⟩ := andThen_eq_ok h
  cases he
  exact ⟨fs, hfs, hds⟩

section Lists

variable {r : Registry} {declared : List String} {p : Path}
  {P : Path → Shape → List Demand → Prop}

/-- There is an index for every element, and the demands are those of the elements. -/
theorem demandsItems_below {ss : List Shape}
    (hP : ∀ s ∈ ss, ∀ q es, demands r declared q s = .ok es → P q s es) {i : Nat}
    (hi : i ≤ Step.itemLimit) {ds : List Demand} (h : demandsItems r declared p i ss = .ok ds) :
    i + ss.length ≤ Step.itemLimit ∧ Below P p (itemParts i ss) ds := by
  induction ss generalizing i ds with
  | nil =>
    cases h
    exact ⟨hi, .nil⟩
  | cons s ss ih =>
    rw [demandsItems] at h
    split at h
    next hlt =>
      obtain ⟨es, fs, hes, hfs, rfl⟩ := andThen_eq_ok h
      obtain ⟨hlength, hbelow⟩ := ih (fun s hs => hP s (List.mem_cons_of_mem _ hs)) hlt hfs
      rw [List.length_cons]
      exact ⟨by omega, .cons (hP s List.mem_cons_self _ es hes) hbelow⟩
    next => cases h

theorem demandsEntries_below {ss : List (String × Shape)}
    (hP : ∀ e ∈ ss, ∀ q es, demands r declared q e.2 = .ok es → P q e.2 es)
    {ds : List Demand} (h : demandsEntries r declared p ss = .ok ds) :
    Below P p (entryParts ss) ds := by
  induction ss generalizing ds with
  | nil =>
    cases h
    exact .nil
  | cons e ss ih =>
    rw [demandsEntries] at h
    obtain ⟨es, fs, hes, hfs, rfl⟩ := andThen_eq_ok h
    exact .cons (hP e List.mem_cons_self _ es hes)
      (ih (fun e he => hP e (List.mem_cons_of_mem _ he)) hfs)

theorem demandsArgs_below {t : TypeId} {arity : Nat} {ss : List Shape}
    (hP : ∀ s ∈ ss, ∀ q es, demands r declared q s = .ok es → P q s es) {i : Nat}
    {ds : List Demand} (h : demandsArgs r declared p t arity i ss = .ok ds) :
    ∃ parts, ArgParts r t arity i ss parts ∧ Below P p parts ds := by
  induction ss generalizing i ds with
  | nil =>
    cases h
    exact ⟨[], .nil, .nil⟩
  | cons s ss ih =>
    have hrest : ∀ s ∈ ss, ∀ q es, demands r declared q s = .ok es → P q s es :=
      fun s hs => hP s (List.mem_cons_of_mem _ hs)
    by_cases hs : s = .discard
    · subst hs
      rw [demandsArgs] at h
      obtain ⟨parts, hparts, hbelow⟩ := ih hrest h
      exact ⟨parts, .discard hparts, hbelow⟩
    · rw [demandsArgs] at h
      · cases hf : r.argField t arity i with
        | error e => simp [hf] at h
        | ok f =>
          simp only [hf] at h
          obtain ⟨es, fs, hes, hfs, rfl⟩ := andThen_eq_ok h
          obtain ⟨parts, hparts, hbelow⟩ := ih hrest hfs
          exact ⟨(f.step, s) :: parts, .field hs hf hparts,
            .cons (hP s List.mem_cons_self _ es hes) hbelow⟩
      · exact hs

theorem demandsFields_below {t : TypeId} {ss : List (String × Shape)}
    (hP : ∀ e ∈ ss, ∀ q es, demands r declared q e.2 = .ok es → P q e.2 es)
    {ds : List Demand} (h : demandsFields r declared p t ss = .ok ds) :
    ∃ parts, FieldParts r t ss parts ∧ Below P p parts ds := by
  induction ss generalizing ds with
  | nil =>
    cases h
    exact ⟨[], .nil, .nil⟩
  | cons e ss ih =>
    rw [demandsFields] at h
    cases hf : r.field t e.1 with
    | error e => simp [hf] at h
    | ok f =>
      simp only [hf] at h
      obtain ⟨es, fs, hes, hfs, rfl⟩ := andThen_eq_ok h
      obtain ⟨parts, hparts, hbelow⟩ := ih (fun e he => hP e (List.mem_cons_of_mem _ he)) hfs
      exact ⟨(f.step, e.2) :: parts, .field hf hparts,
        .cons (hP e List.mem_cons_self _ es hes) hbelow⟩

end Lists

/-- Induction along the demands of a shape.  A leaf gives its demands at once; every other
node puts its guards in front of the demands of its parts. -/
theorem demands_induction {r : Registry} {declared : List String}
    {motive : Path → Shape → List Demand → Prop}
    (discard : ∀ p, motive p .discard [])
    (literal : ∀ p v, motive p (.literal v) [.guard (.eqLiteral p v)])
    (var : ∀ p x, x ∈ declared → motive p (.var x) [.occurs x p])
    (sequence : ∀ p kind items ds, items.length ≤ Step.itemLimit →
      Below motive p (itemParts 0 items) ds → motive p (.sequence kind items)
        ([Guard.typeIs p kind.tag, .countIs p items.length].map .guard ++ ds))
    (map : ∀ p entries ds, (entries.map (·.1)).Nodup → Below motive p (entryParts entries) ds →
      motive p (.map entries)
        ((Guard.typeIs p .map :: entries.map fun e => .hasKey p e.1).map .guard ++ ds))
    (construct : ∀ p t args ctor parts ds, r.constructor t args.length = .ok ctor →
      ArgParts r t args.length 0 args parts → Below motive p parts ds →
      motive p (.construct t args) ([Guard.typeIs p (.object t)].map .guard ++ ds))
    (constructWith : ∀ p t args fields ctor parts more ds es,
      r.constructor t args.length = .ok ctor → ArgParts r t args.length 0 args parts →
      (fields.map (·.1)).Nodup → FieldParts r t fields more →
      Below motive p parts ds → Below motive p more es →
      motive p (.constructWith t args fields)
        ([Guard.typeIs p (.object t)].map .guard ++ (ds ++ es)))
    {p : Path} {s : Shape} {ds : List Demand} (h : demands r declared p s = .ok ds) :
    motive p s ds := by
  induction s generalizing p ds with
  | discard =>
    cases h
    exact discard p
  | literal v =>
    cases h
    exact literal p v
  | var x =>
    rw [demands] at h
    split at h
    · cases h
      exact var p x ‹_›
    · cases h
  | sequence kind items ih =>
    rw [demands] at h
    obtain ⟨es, hes, rfl⟩ := onPosition_eq_ok h
    obtain ⟨hlength, hbelow⟩ :=
      demandsItems_below (fun s hs q es => ih s hs) (Nat.zero_le Step.itemLimit) hes
    rw [Nat.zero_add] at hlength
    exact sequence p kind items es hlength hbelow
  | map entries ih =>
    rw [demands] at h
    split at h
    · cases h
    · obtain ⟨es, hes, rfl⟩ := onPosition_eq_ok h
      exact map p entries es (firstRepeated_eq_none_iff.mp ‹_›)
        (demandsEntries_below (fun e he q es => ih e he) hes)
  | construct t args ih =>
    rw [demands] at h
    split at h
    · cases h
    · obtain ⟨es, hes, rfl⟩ := onPosition_eq_ok h
      obtain ⟨parts, hparts, hbelow⟩ := demandsArgs_below (fun s hs q es => ih s hs) hes
      exact construct p t args _ parts es ‹_› hparts hbelow
  | constructWith t args fields iha ihf =>
    rw [demands] at h
    split at h
    · cases h
    · obtain ⟨es, hes, rfl⟩ := onPosition_eq_ok h
      obtain ⟨ds, fs, hds, hfs, rfl⟩ := andThen_eq_ok hes
      obtain ⟨parts, hparts, hbelow⟩ := demandsArgs_below (fun s hs q es => iha s hs) hds
      split at hfs
      · cases hfs
      · obtain ⟨more, hmore, hbelow'⟩ := demandsFields_below (fun e he q es => ihf e he) hfs
        exact constructWith p t args fields _ parts more ds fs ‹_› hparts
          (firstRepeated_eq_none_iff.mp ‹_›) hmore hbelow hbelow'

end Shape
end Destructure
