/-
A clause that compiles is well-formed and addressable.

The checks of a clause are spread over its compilation: some are made on the parameters,
one on the depth, most while the shape is laid out, and the last when the parameters are
looked up among the variables that were bound.  A plan exists only if all of them were
passed, so each condition on the clause can be read off the stage that checks it.  For the
shape this is an induction along its demands: a lookup that succeeded is a construction or
a field that is in order.
-/
import Destructure.Clause.WellFormed
import Destructure.Proofs.Clause.Extraction

namespace Destructure

namespace Registry

variable {r : Registry} {t : TypeId} {d : TypeDecl} {ctor : Constructor} {arity i : Nat}

theorem initialises_of_argField {f : Field} (hd : r.get? t = some d)
    (hctor : r.constructor t arity = .ok ctor) (h : r.argField t arity i = .ok f) :
    d.Initialises ctor i := by
  rw [argField, typeDecl_of_get? hd, hctor] at h
  cases hparam : ctor.params[i]? with
  | none => simp [hparam] at h
  | some param =>
    obtain ⟨name, field?⟩ := param
    cases field? with
    | none => simp [hparam] at h
    | some field =>
      simp only [hparam] at h
      exact ⟨name, field, hparam, mem_fields_of_field_eq_ok hd h⟩

end Registry

/-! ## Parts -/

theorem forall_items {Q : Shape → Prop} {i : Nat} {ss : List Shape}
    (h : ∀ part ∈ itemParts i ss, Q part.2) : ∀ s ∈ ss, Q s := by
  rw [← map_snd_itemParts i ss]
  exact List.forall_mem_map.mpr h

theorem forall_entries {Q : Shape → Prop} {es : List (String × Shape)}
    (h : ∀ part ∈ entryParts es, Q part.2) : ∀ e ∈ es, Q e.2 :=
  fun e he => h (.key e.1, e.2) (List.mem_map_of_mem he)

/-- An argument that is not discarded has a field and is a part. -/
theorem ArgParts.exists_part {r : Registry} {t : TypeId} {arity i j : Nat} {ss : List Shape}
    {parts : List (Step × Shape)} (h : ArgParts r t arity i ss parts) {s : Shape}
    (hs : ss[j]? = some s) (hread : s ≠ .discard) :
    ∃ f, r.argField t arity (i + j) = .ok f ∧ (f.step, s) ∈ parts := by
  induction h generalizing j with
  | nil => simp at hs
  | @discard i ss parts _ ih =>
    cases j with
    | zero => exact absurd (Option.some.inj hs).symm hread
    | succ j =>
      obtain ⟨f, hf, hmem⟩ := ih hs
      have hindex : i + (j + 1) = i + 1 + j := by omega
      exact ⟨f, by rw [hindex]; exact hf, hmem⟩
  | @field i s' ss parts f' _ found _ ih =>
    cases j with
    | zero =>
      cases hs
      exact ⟨f', found, List.mem_cons_self⟩
    | succ j =>
      obtain ⟨f, hf, hmem⟩ := ih hs
      have hindex : i + (j + 1) = i + 1 + j := by omega
      exact ⟨f, by rw [hindex]; exact hf, List.mem_cons_of_mem _ hmem⟩

/-- What holds of the parts and of a discarded argument holds of all arguments. -/
theorem ArgParts.forall_args {Q : Shape → Prop} {r : Registry} {t : TypeId} {arity i : Nat}
    {ss : List Shape} {parts : List (Step × Shape)} (h : ArgParts r t arity i ss parts)
    (hdiscard : Q .discard) (hparts : ∀ part ∈ parts, Q part.2) : ∀ s ∈ ss, Q s := by
  induction h with
  | nil => exact fun s hs => absurd hs List.not_mem_nil
  | discard _ ih => exact List.forall_mem_cons.mpr ⟨hdiscard, ih hparts⟩
  | field _ _ _ ih =>
    obtain ⟨hs, hrest⟩ := List.forall_mem_cons.mp hparts
    exact List.forall_mem_cons.mpr ⟨hs, ih hrest⟩

theorem FieldParts.forall_fields {Q : Shape → Prop} {r : Registry} {t : TypeId}
    {ss : List (String × Shape)} {parts : List (Step × Shape)} (h : FieldParts r t ss parts)
    (hparts : ∀ part ∈ parts, Q part.2) : ∀ e ∈ ss, Q e.2 := by
  have hshapes : ∀ s ∈ parts.map (·.2), Q s := List.forall_mem_map.mpr hparts
  rw [h.map_snd] at hshapes
  exact List.forall_mem_map.mp hshapes

theorem FieldParts.exists_part {r : Registry} {t : TypeId} {ss : List (String × Shape)}
    {parts : List (Step × Shape)} (h : FieldParts r t ss parts) :
    ∀ e ∈ ss, ∃ f, r.field t e.1 = .ok f ∧ (f.step, e.2) ∈ parts := by
  induction h with
  | nil => exact fun e he => absurd he List.not_mem_nil
  | @field name s ss parts f found _ ih =>
    intro e he
    rcases List.mem_cons.mp he with rfl | he
    · exact ⟨f, found, List.mem_cons_self⟩
    · obtain ⟨f', hf', hmem⟩ := ih e he
      exact ⟨f', hf', List.mem_cons_of_mem _ hmem⟩

theorem Below.forall_parts {Q : Shape → Prop} {p : Path} {parts : List (Step × Shape)}
    {ds : List Demand} (h : Below (fun _ s _ => Q s) p parts ds) : ∀ part ∈ parts, Q part.2 := by
  induction h with
  | nil => exact fun part hpart => absurd hpart List.not_mem_nil
  | cons head _ ih => exact List.forall_mem_cons.mpr ⟨head, ih⟩

/-! ## Shapes -/

namespace Shape

variable {r : Registry} {declared : List String} {p : Path} {s : Shape} {ds : List Demand}

theorem resolvableItems_iff {ss : List Shape} :
    ResolvableItems r ss ↔ ∀ s ∈ ss, s.Resolvable r := by
  induction ss with
  | nil => simp [ResolvableItems]
  | cons s ss ih => rw [ResolvableItems, ih, List.forall_mem_cons]

theorem resolvableEntries_iff {ss : List (String × Shape)} :
    ResolvableEntries r ss ↔ ∀ e ∈ ss, e.2.Resolvable r := by
  induction ss with
  | nil => simp [ResolvableEntries]
  | cons e ss ih => rw [ResolvableEntries, ih, List.forall_mem_cons]

theorem constructs_of_argParts {t : TypeId} {args : List Shape} {ctor : Constructor}
    {parts : List (Step × Shape)} (hparts : ArgParts r t args.length 0 args parts)
    (hctor : r.constructor t args.length = .ok ctor) : r.Constructs t args := by
  obtain ⟨d, hd, hmem, harity⟩ := Registry.constructor_eq_ok hctor
  refine ⟨d, ctor, hd, hmem, harity, fun i s hs hread => ?_⟩
  obtain ⟨f, hf, -⟩ := hparts.exists_part hs hread
  rw [Nat.zero_add] at hf
  exact Registry.initialises_of_argField hd hctor hf

theorem hasFields_of_fieldParts {t : TypeId} {d : TypeDecl} {fields : List (String × Shape)}
    {parts : List (Step × Shape)} (hd : r.get? t = some d) (h : FieldParts r t fields parts) :
    r.HasFields t (fields.map (·.1)) := by
  refine ⟨d, hd, fun name hname => ?_⟩
  obtain ⟨e, he, rfl⟩ := List.mem_map.mp hname
  obtain ⟨f, hf, -⟩ := h.exists_part e he
  exact Registry.mem_fields_of_field_eq_ok hd hf

/-- Everything is in order in a shape that has demands. -/
theorem resolvable_of_demands (h : demands r declared p s = .ok ds) : s.Resolvable r := by
  refine demands_induction (motive := fun _ s _ => s.Resolvable r) ?discard ?literal ?var
    ?sequence ?map ?construct ?constructWith h
  case discard => exact fun p => trivial
  case literal => exact fun p v => trivial
  case var => exact fun p x _ => trivial
  case sequence =>
    intro p kind items ds _ hbelow
    exact resolvableItems_iff.mpr (forall_items hbelow.forall_parts)
  case map =>
    intro p entries ds hdistinct hbelow
    exact ⟨hdistinct, resolvableEntries_iff.mpr (forall_entries hbelow.forall_parts)⟩
  case construct =>
    intro p t args ctor parts ds hctor hparts hbelow
    exact ⟨constructs_of_argParts hparts hctor,
      resolvableItems_iff.mpr (hparts.forall_args trivial hbelow.forall_parts)⟩
  case constructWith =>
    intro p t args fields ctor parts more ds es hctor hparts hdistinct hmore hbelow hbelow'
    obtain ⟨d, hd, -, -⟩ := Registry.constructor_eq_ok hctor
    exact ⟨constructs_of_argParts hparts hctor,
      resolvableItems_iff.mpr (hparts.forall_args trivial hbelow.forall_parts), hdistinct,
      hasFields_of_fieldParts hd hmore,
      resolvableEntries_iff.mpr (hmore.forall_fields hbelow'.forall_parts)⟩

/-- Only declared variables occur among the demands. -/
def OccursDeclared (declared : List String) (_ : Path) (_ : Shape) (ds : List Demand) : Prop :=
  ∀ x ∈ (Demand.occurrences ds).map (·.1), x ∈ declared

theorem occursDeclared_of_below {gs : List Guard} {parts : List (Step × Shape)}
    (h : Below (OccursDeclared declared) p parts ds) :
    OccursDeclared declared p s (gs.map .guard ++ ds) := by
  rw [OccursDeclared, Demand.occurrences_append, Demand.occurrences_guards, List.nil_append]
  induction h with
  | nil => exact fun x hx => absurd hx List.not_mem_nil
  | cons head _ ih =>
    rw [Demand.occurrences_append, List.map_append]
    exact List.forall_mem_append.mpr ⟨head, ih⟩

theorem declared_of_demands (h : demands r declared p s = .ok ds) :
    ∀ x ∈ s.mentions, x ∈ declared := by
  rw [← demands_mentioned h]
  refine demands_induction (motive := OccursDeclared declared) ?discard ?literal ?var
    ?sequence ?map ?construct ?constructWith h
  case discard => exact fun p x hx => absurd hx List.not_mem_nil
  case literal => exact fun p v x hx => absurd hx List.not_mem_nil
  case var => exact fun p x hx => List.forall_mem_singleton.mpr hx
  case sequence => exact fun p kind items ds _ hbelow => occursDeclared_of_below hbelow
  case map => exact fun p entries ds _ hbelow => occursDeclared_of_below hbelow
  case construct => exact fun p t args ctor parts ds _ _ hbelow => occursDeclared_of_below hbelow
  case constructWith =>
    exact fun p t args fields ctor parts more ds es _ _ _ _ hbelow hbelow' =>
      occursDeclared_of_below (hbelow.append hbelow')

end Shape

/-! ## Clauses -/

namespace Clause

variable {c : Clause} {r : Registry} {limit : Nat} {tags : List Tag} {plan : Plan}

theorem isSome_narrow_of_paramTags {given assigned : List (String × Tag)}
    (h : c.paramTags given = .ok assigned) :
    ∀ p ∈ given, ∀ tag, c.type? p.1 = some tag → (tag.narrow p.2).isSome := by
  induction given generalizing assigned with
  | nil => exact fun p hp => absurd hp List.not_mem_nil
  | cons p given ih =>
    obtain ⟨tag, more, htag, hmore, -⟩ := paramTags_cons_eq_ok h
    refine List.forall_mem_cons.mpr ⟨fun declared hdeclared => ?_, ih hmore⟩
    rcases paramTag_eq_ok htag with ⟨hnone, -⟩ | ⟨declared', hsome, hnarrow⟩
    · simp [hnone] at hdeclared
    · have heq : declared' = declared := Option.some.inj (hsome.symm.trans hdeclared)
      rw [← heq, hnarrow]
      rfl

theorem exists_bound_of_forParams {b : Bindings} {params : List String}
    {bindings : List (String × Path)} (h : b.forParams params = .ok bindings) :
    ∀ x ∈ params, ∃ p, b.find? x = some p := by
  obtain ⟨hnames, hfound⟩ := Bindings.forParams_eq_ok h
  intro x hx
  rw [← hnames] at hx
  obtain ⟨e, he, rfl⟩ := List.mem_map.mp hx
  exact ⟨e.2, hfound e he⟩

theorem wellFormed_of_compilePlan (h : c.compilePlan r limit tags = .ok plan) :
    c.WellFormed r limit tags := by
  obtain ⟨assigned, ds, hcheck, hdepth, hds, -, hbindings⟩ := compilePlan_eq_ok h
  obtain ⟨hdistinct, harity, hdeclared, htags⟩ := checkParams_eq_ok hcheck
  have hmentioned : (Demand.occurrences ds).map (·.1) = c.shape.mentions :=
    Shape.demands_mentioned hds
  refine ⟨hdistinct, harity, hdeclared, isSome_narrow_of_paramTags htags, hdepth, fun x => ?_,
    Shape.resolvable_of_demands hds⟩
  refine ⟨fun hx => ?_, Shape.declared_of_demands hds x⟩
  obtain ⟨p, hp⟩ := exists_bound_of_forParams hbindings x hx
  rw [find?_settle, Bindings.find?_empty, Option.none_or] at hp
  rw [← hmentioned]
  exact List.mem_map.mpr ⟨(x, p), mem_of_lookup hp, rfl⟩

end Clause
end Destructure
