/-
Declared types as filters.

Declaring types for parameters changes neither what the shape of a clause demands nor where
its variables are bound.  It changes the tags, and a tag is checked at the first occurrence of
its variable only.  On values where all occurrences of a variable are the same it does not
matter which of them is checked, so the clause accepts what it accepted before, less the
values that have something else than the declared type at a bound path.

Of several declarations for one name the last one counts.
-/
import Destructure.Proofs.Clause.Stages

namespace Destructure

/-! ## The last declaration of a name -/

theorem exists_lookup_of_name {β : Type} {es : List (String × β)} {x : String}
    (hx : x ∈ es.map (·.1)) : ∃ b, es.lookup x = some b := by
  obtain ⟨e, he, rfl⟩ := List.mem_map.mp hx
  cases hlookup : es.lookup e.1 with
  | some b => exact ⟨b, rfl⟩
  | none => simpa using List.lookup_eq_none_iff.mp hlookup e he

/-- A property of all names in a table, said by looking names up. -/
theorem forall_names_iff {β : Type} {es : List (String × β)} {P : String → Prop} :
    (∀ e ∈ es, P e.1) ↔ ∀ x b, es.lookup x = some b → P x := by
  constructor
  · exact fun h x b hx => h (x, b) (mem_of_lookup hx)
  · intro h e he
    obtain ⟨b, hb⟩ := exists_lookup_of_name (List.mem_map_of_mem he)
    exact h e.1 b hb

theorem lookup_filter_name {β : Type} (es : List (String × β)) (name x : String) :
    (es.filter (·.1 != name)).lookup x = if x = name then none else es.lookup x := by
  induction es with
  | nil => simp
  | cons e es ih =>
    by_cases he : e.1 = name
    · rw [List.filter_cons_of_neg (by simp [he]), ih]
      by_cases hx : x = name
      · rw [if_pos hx, if_pos hx]
      · rw [if_neg hx, if_neg hx, List.lookup_cons, he, beq_false_of_ne hx]
    · rw [List.filter_cons_of_pos (by simp [he]), List.lookup_cons, List.lookup_cons, ih]
      by_cases hx : x = name
      · rw [if_pos hx, if_pos hx, hx, beq_false_of_ne (Ne.symm he)]
      · rw [if_neg hx, if_neg hx]

/-- The type that a list of declarations leaves a name with. -/
def lastDeclared (declarations : List (String × Tag)) (x : String) : Option Tag :=
  declarations.reverse.lookup x

namespace Clause

variable {c : Clause} {declarations : List (String × Tag)}

theorem type?_declare (c : Clause) (name : String) (tag : Tag) (x : String) :
    (c.declare name tag).type? x = if x = name then some tag else c.type? x := by
  rw [type?, declare, List.lookup_append, lookup_filter_name, List.lookup_cons]
  by_cases hx : x = name
  · simp [hx]
  · simp [hx, type?, beq_false_of_ne hx]

/-- The last declaration of a name decides, and without one the name has the type it had. -/
theorem type?_declareAll (c : Clause) (declarations : List (String × Tag)) (x : String) :
    (c.declareAll declarations).type? x = (lastDeclared declarations x).or (c.type? x) := by
  induction declarations generalizing c with
  | nil => rfl
  | cons d declarations ih =>
    have hlast : lastDeclared (d :: declarations) x =
        (lastDeclared declarations x).or (if x = d.1 then some d.2 else none) := by
      rw [lastDeclared, List.reverse_cons, List.lookup_append, List.lookup_cons]
      by_cases hx : x = d.1
      · simp [hx, lastDeclared]
      · simp [hx, lastDeclared, beq_false_of_ne hx]
    show ((c.declare d.1 d.2).declareAll declarations).type? x = _
    rw [ih, type?_declare, hlast, Option.or_assoc]
    by_cases hx : x = d.1
    · simp [hx]
    · simp [hx]

@[simp] theorem params_declareAll (c : Clause) (declarations : List (String × Tag)) :
    (c.declareAll declarations).params = c.params := by
  induction declarations generalizing c with
  | nil => rfl
  | cons d declarations ih => exact ih (c.declare d.1 d.2)

@[simp] theorem shape_declareAll (c : Clause) (declarations : List (String × Tag)) :
    (c.declareAll declarations).shape = c.shape := by
  induction declarations generalizing c with
  | nil => rfl
  | cons d declarations ih => exact ih (c.declare d.1 d.2)

theorem type?_of_plain (h : c.types = []) (x : String) : c.type? x = none := by
  rw [type?, h, List.lookup_nil]

theorem type?_declareAll_plain (h : c.types = []) (x : String) :
    (c.declareAll declarations).type? x = lastDeclared declarations x := by
  rw [type?_declareAll, type?_of_plain h, Option.or_none]

/-- The names that types are declared for. -/
theorem forall_types_declareAll_iff (h : c.types = []) {P : String → Prop} :
    (∀ d ∈ (c.declareAll declarations).types, P d.1) ↔ ∀ d ∈ declarations, P d.1 := by
  have hlookup : ∀ x, (c.declareAll declarations).types.lookup x = declarations.reverse.lookup x :=
    type?_declareAll_plain h
  rw [forall_names_iff]
  simp only [hlookup]
  rw [← forall_names_iff]
  simp only [List.mem_reverse]

end Clause

/-! ## Narrowed tags -/

namespace Tag

variable {s t u : Tag} {p : Path} {v w : Value}

/-- What the check of a tag asks of the value at a path.  Nothing is asked for `any`, not even
that there is a value. -/
def PassesAt (t : Tag) (p : Path) (v : Value) : Prop :=
  t ≠ .any → (p.resolve v).any t.admits = true

theorem holds_tagGuards_iff :
    (∀ g ∈ tagGuards t p, g.holds v = true) ↔ t.PassesAt p v := by
  by_cases ht : t = .any
  · simp [tagGuards, PassesAt, ht]
  · simp [tagGuards, PassesAt, ht, Guard.holds]

theorem passesAt_iff_admits (hw : p.resolve v = some w) :
    t.PassesAt p v ↔ t.admits w = true := by
  rw [PassesAt, hw, Option.any_some]
  by_cases ht : t = .any
  · simp [ht, admits]
  · simp [ht]

theorem passesAt_iff_eq_any (hw : p.resolve v = none) : t.PassesAt p v ↔ t = .any := by
  simp [PassesAt, hw]

/-- Checking a narrowed tag is checking both tags that it was narrowed from. -/
theorem passesAt_narrow_iff (h : s.narrow t = some u) :
    u.PassesAt p v ↔ s.PassesAt p v ∧ t.PassesAt p v := by
  cases hw : p.resolve v with
  | none =>
    simp only [passesAt_iff_eq_any hw]
    rcases narrow_eq_some h with ⟨hwithin, rfl⟩ | ⟨hwithin, rfl⟩
    · exact ⟨fun hs => ⟨hs, eq_any_of_within (hs ▸ hwithin)⟩, And.left⟩
    · exact ⟨fun ht => ⟨eq_any_of_within (ht ▸ hwithin), ht⟩, And.right⟩
  | some w =>
    simp only [passesAt_iff_admits hw]
    exact admits_of_narrow_eq_some h w

end Tag

/-! ## Bound paths -/

/-- What is bound for a parameter is where the table has it. -/
theorem Bindings.lookup_forParams {b : Bindings} {params : List String}
    {bindings : List (String × Path)} (h : b.forParams params = .ok bindings) {x : String}
    (hx : x ∈ params) : bindings.lookup x = b.find? x := by
  obtain ⟨hnames, hpaths⟩ := forParams_eq_ok h
  rw [← hnames] at hx
  obtain ⟨p, hp⟩ := exists_lookup_of_name hx
  rw [hp, hpaths (x, p) (mem_of_lookup hp)]

/-- A tag that is found at the first occurrence of a variable is found at all of them. -/
theorem Consistent.passesAt {tags : List (String × Tag)} {v : Value}
    {os : List (String × Path)} (h : Consistent tags v os) {x : String} {p q : Path}
    (hp : (x, p) ∈ os) (hq : (x, q) ∈ os) {tag : Tag} (htag : tag.PassesAt p v) :
    tag.PassesAt q v := by
  by_cases hpq : p = q
  · exact hpq ▸ htag
  · rw [← Tag.holds_tagGuards_iff] at htag ⊢
    exact Guard.holds_tagGuards_of_sameValue (h.sameValue hp hq hpq) htag

section Filter

variable {tags tags' : List (String × Tag)} {v : Value} {os : List (String × Path)}
  {filter : String → Option Tag}

/-- Narrowing the tags of variables filters every occurrence. -/
theorem consistent_narrowed_iff
    (h : ∀ e ∈ os, (tagIn tags' e.1).PassesAt e.2 v ↔ (tagIn tags e.1).PassesAt e.2 v ∧
      ∀ tag, filter e.1 = some tag → tag.PassesAt e.2 v) :
    Consistent tags' v os ↔ Consistent tags v os ∧
      ∀ e ∈ os, ∀ tag, filter e.1 = some tag → tag.PassesAt e.2 v := by
  constructor
  · rintro ⟨htagged, hagree⟩
    have hpasses := fun e he => (h e he).mp (Tag.holds_tagGuards_iff.mp (htagged e he))
    exact ⟨⟨fun e he => Tag.holds_tagGuards_iff.mpr (hpasses e he).1, hagree⟩,
      fun e he => (hpasses e he).2⟩
  · rintro ⟨⟨htagged, hagree⟩, hfilter⟩
    refine ⟨fun e he => Tag.holds_tagGuards_iff.mpr ((h e he).mpr ?_), hagree⟩
    exact ⟨Tag.holds_tagGuards_iff.mp (htagged e he), hfilter e he⟩

/-- To filter every occurrence it is enough to filter those that are bound. -/
theorem Consistent.filters_iff (h : Consistent tags v os) {plan : Plan}
    (hbound : ∀ x tag, filter x = some tag → ∃ p, (x, p) ∈ os ∧ plan.part? x v = p.resolve v) :
    (∀ e ∈ os, ∀ tag, filter e.1 = some tag → tag.PassesAt e.2 v) ↔
      ∀ x tag, filter x = some tag → tag ≠ .any → (plan.part? x v).any tag.admits = true := by
  constructor
  · intro hall x tag htag
    obtain ⟨p, hp, hpart⟩ := hbound x tag htag
    rw [hpart]
    exact hall (x, p) hp tag htag
  · intro hparts e he tag htag
    obtain ⟨p, hp, hpart⟩ := hbound e.1 tag htag
    have hpasses : tag.PassesAt p v := fun hany => hpart ▸ hparts e.1 tag htag hany
    exact h.passesAt hp he hpasses

end Filter

namespace Clause

variable {c : Clause} {declarations : List (String × Tag)} {r : Registry} {limit : Nat}
  {tags : List Tag}

/-! ## Compiling -/

/-- Declared types can only spoil the check of the parameters. -/
theorem exists_checkParams_declareAll_iff (h : c.types = []) :
    (∃ assigned, (c.declareAll declarations).checkParams tags = .ok assigned) ↔
      (∃ assigned, c.checkParams tags = .ok assigned) ∧ (∀ d ∈ declarations, d.1 ∈ c.params) ∧
        ∀ x tag, lastDeclared declarations x = some tag → ∀ body, (x, body) ∈ c.params.zip tags →
          (tag.narrow body).isSome := by
  have hplain : ∀ d ∈ c.types, d.1 ∈ c.params := by
    rw [h]
    exact fun d hd => absurd hd List.not_mem_nil
  have hnarrow : ∀ e ∈ c.params.zip tags, ∀ tag, c.type? e.1 = some tag →
      (tag.narrow e.2).isSome := by
    intro e _ tag htag
    rw [type?_of_plain h] at htag
    cases htag
  rw [exists_checkParams_iff, exists_checkParams_iff, params_declareAll,
    forall_types_declareAll_iff h]
  simp only [type?_declareAll_plain h]
  constructor
  · rintro ⟨hdistinct, harity, hdeclared, hdeclaredNarrow⟩
    exact ⟨⟨hdistinct, harity, hplain, hnarrow⟩, hdeclared,
      fun x tag htag body hbody => hdeclaredNarrow (x, body) hbody tag htag⟩
  · rintro ⟨⟨hdistinct, harity, -, -⟩, hdeclared, hdeclaredNarrow⟩
    exact ⟨hdistinct, harity, hdeclared,
      fun e he tag htag => hdeclaredNarrow e.1 tag htag e.2 he⟩

/-! ## Accepting -/

/-- The tag of a parameter is checked as the tag that the body takes and as the declared
one. -/
theorem passesAt_tagFor_iff (h : c.types = [])
    (hcheck : ∃ assigned, (c.declareAll declarations).checkParams tags = .ok assigned) {x : String}
    (hx : x ∈ c.params) (p : Path) (v : Value) :
    ((c.declareAll declarations).tagFor tags x).PassesAt p v ↔
      (c.tagFor tags x).PassesAt p v ∧
        ∀ tag, lastDeclared declarations x = some tag → tag.PassesAt p v := by
  obtain ⟨⟨_, hplain⟩, -, hnarrow⟩ := (exists_checkParams_declareAll_iff h).mp hcheck
  obtain ⟨-, harity, -, -⟩ := checkParams_eq_ok hplain
  have hkeys : (c.params.zip tags).map (·.1) = c.params := List.map_fst_zip (by omega)
  rw [← hkeys] at hx
  obtain ⟨body, hbody⟩ := exists_lookup_of_name hx
  rw [tagFor, tagFor, params_declareAll, type?_declareAll_plain h, type?_of_plain h, hbody]
  cases htag : lastDeclared declarations x with
  | none => simp
  | some tag =>
    obtain ⟨narrowed, hnarrowed⟩ :=
      Option.isSome_iff_exists.mp (hnarrow x tag htag body (mem_of_lookup hbody))
    simp only [hnarrowed, Option.getD_some, Option.some.injEq, forall_eq']
    rw [Tag.passesAt_narrow_iff hnarrowed, and_comm]

/-- Of what the clause accepts without declared types, it still accepts the values that have
the declared types at the bound paths. -/
theorem accepts_declareAll_iff (h : c.types = []) {plan plan' : Plan}
    (hplan : c.compilePlan r limit tags = .ok plan)
    (hplan' : (c.declareAll declarations).compilePlan r limit tags = .ok plan') (v : Value) :
    plan'.accepts v = true ↔ plan.accepts v = true ∧
      ∀ x tag, lastDeclared declarations x = some tag → tag ≠ .any →
        (plan.part? x v).any tag.admits = true := by
  obtain ⟨assigned, ds, hcheck, -, hds, hguards, hbindings⟩ := compilePlan_eq_ok hplan
  obtain ⟨assigned', ds', hcheck', -, hds', hguards', -⟩ := compilePlan_eq_ok hplan'
  rw [params_declareAll, shape_declareAll, hds] at hds'
  cases hds'
  obtain ⟨-, -, -, htags⟩ := checkParams_eq_ok hcheck
  obtain ⟨-, -, -, htags'⟩ := checkParams_eq_ok hcheck'
  have hchecked : ∃ assigned, (c.declareAll declarations).checkParams tags = .ok assigned :=
    ⟨assigned', hcheck'⟩
  obtain ⟨-, hdeclared, -⟩ := (exists_checkParams_declareAll_iff h).mp hchecked
  have hname : ∀ e ∈ Demand.occurrences ds, e.1 ∈ c.params := by
    intro e he
    refine Shape.declared_of_demands hds e.1 ?_
    rw [← Shape.demands_mentioned hds]
    exact List.mem_map_of_mem he
  have hnarrowed : ∀ e ∈ Demand.occurrences ds,
      (tagIn assigned' e.1).PassesAt e.2 v ↔ (tagIn assigned e.1).PassesAt e.2 v ∧
        ∀ tag, lastDeclared declarations e.1 = some tag → tag.PassesAt e.2 v := by
    intro e he
    rw [lookup_paramTags htags, lookup_paramTags htags']
    exact passesAt_tagFor_iff h hchecked (hname e he) e.2 v
  have hbound : ∀ x tag, lastDeclared declarations x = some tag →
      ∃ p, (x, p) ∈ Demand.occurrences ds ∧ plan.part? x v = p.resolve v := by
    intro x tag htag
    have hreverse : ∀ d ∈ declarations.reverse, d.1 ∈ c.params := by simpa using hdeclared
    have hx : x ∈ c.params := forall_names_iff.mp hreverse x tag htag
    obtain ⟨p, hp⟩ := exists_bound_of_forParams hbindings x hx
    refine ⟨p, ?_, by rw [Plan.part?, Bindings.lookup_forParams hbindings hx, hp]; rfl⟩
    rw [find?_settle, Bindings.find?_empty, Option.none_or] at hp
    exact mem_of_lookup hp
  rw [accepts_iff_of_settle hguards, accepts_iff_of_settle hguards', and_assoc,
    consistent_narrowed_iff hnarrowed]
  exact and_congr_right fun _ => and_congr_right fun hconsistent =>
    hconsistent.filters_iff hbound

/-- Declaring types changes no binding. -/
theorem bindings_declareAll {plan plan' : Plan} (hplan : c.compilePlan r limit tags = .ok plan)
    (hplan' : (c.declareAll declarations).compilePlan r limit tags = .ok plan') :
    plan'.bindings = plan.bindings := by
  obtain ⟨assigned, ds, -, -, hds, -, hbindings⟩ := compilePlan_eq_ok hplan
  obtain ⟨assigned', ds', -, -, hds', -, hbindings'⟩ := compilePlan_eq_ok hplan'
  rw [params_declareAll, shape_declareAll, hds] at hds'
  cases hds'
  rw [params_declareAll, settle_snd_eq assigned' assigned, hbindings] at hbindings'
  exact (Except.ok.inj hbindings').symm

/-- Types declared for the parameters of a clause act as filters.  The clause still compiles if
they are declared for parameters only and the last one for each nests with the tag that the
body takes.  Nothing is bound elsewhere, and the values accepted are those that were accepted
before and have something of the last declared type at each bound path. -/
theorem declared_types_filter {α : Type} (h : c.types = []) (declarations : List (String × Tag))
    (r : Registry) (limit : Nat) (body : Body α) :
    let typed := c.declareAll declarations
    ((∃ arm, typed.compile r limit body = .ok arm) ↔
        (∃ arm, c.compile r limit body = .ok arm) ∧ (∀ d ∈ declarations, d.1 ∈ c.params) ∧
          ∀ x tag, lastDeclared declarations x = some tag →
            ∀ b, (x, b) ∈ c.params.zip body.tags → (tag.narrow b).isSome) ∧
      ∀ arm arm', c.compile r limit body = .ok arm → typed.compile r limit body = .ok arm' →
        arm'.bindings = arm.bindings ∧
          ∀ v, (arm'.accepts v = true ↔ arm.accepts v = true ∧
              ∀ x tag, lastDeclared declarations x = some tag → tag ≠ .any →
                (arm.part? x v).any tag.admits = true) ∧
            arm'.extract v = arm.extract v := by
  intro typed
  refine ⟨?_, fun arm arm' harm harm' => ?_⟩
  · rw [exists_compile_iff, exists_compile_iff, exists_checkParams_declareAll_iff h,
      params_declareAll, shape_declareAll]
    constructor
    · rintro ⟨⟨hcheck, hnamed, hnarrow⟩, hrest⟩
      exact ⟨⟨hcheck, hrest⟩, hnamed, hnarrow⟩
    · rintro ⟨⟨hcheck, hrest⟩, hnamed, hnarrow⟩
      exact ⟨⟨hcheck, hnamed, hnarrow⟩, hrest⟩
  · obtain ⟨hplan, hbody⟩ := compile_eq_ok harm
    obtain ⟨hplan', hbody'⟩ := compile_eq_ok harm'
    have hbindings : arm'.bindings = arm.bindings := bindings_declareAll hplan hplan'
    refine ⟨hbindings, fun v => ⟨accepts_declareAll_iff h hplan hplan' v, ?_⟩⟩
    have hparts : arm'.parts v = arm.parts v := by rw [Plan.parts, Plan.parts, hbindings]
    rw [Arm.extract, Arm.extract, hparts, hbody, hbody']

/-- The abscissa of a point twice.  The first of the two declarations for it has no effect, and
a declaration for another name spoils the clause. -/
theorem declared_types_filter_abscissa :
    let declarations := [("a", .str), ("a", .int)]
    let typed := abscissaClause.declareAll declarations
    let number := Value.list [.object ⟨0⟩ "Point" [.int 3, .float .nan], .int 3]
    let word := Value.list [.object ⟨0⟩ "Point" [.str "s", .float .nan], .str "s"]
    abscissaClause.types = [] ∧ lastDeclared declarations "a" = some .int ∧
      abscissaClause.compile points 3 echo = .ok abscissaArm ∧
      (¬ ∃ arm, (abscissaClause.declareAll [("b", .int)]).compile points 3 echo = .ok arm) ∧
      ∃ arm, typed.compile points 3 echo = .ok arm ∧ arm.bindings = abscissaArm.bindings ∧
        abscissaArm.accepts number = true ∧ abscissaArm.accepts word = true ∧
        arm.accepts number = true ∧ arm.accepts word = false ∧
        arm.extract number = .ok ⟨"echo", .int 3⟩ := by
  intro declarations typed number word
  have hplain : abscissaClause.types = [] := rfl
  have h : abscissaClause.compile points 3 echo = .ok abscissaArm := rfl
  obtain ⟨arm, harm⟩ : ∃ arm, typed.compile points 3 echo = .ok arm := ⟨_, rfl⟩
  obtain ⟨hstray, -⟩ := declared_types_filter hplain [("b", .int)] points 3 echo
  obtain ⟨-, harms⟩ := declared_types_filter hplain declarations points 3 echo
  obtain ⟨hbindings, hvalues⟩ := harms abscissaArm arm h harm
  refine ⟨hplain, rfl, h, ?stray, arm, harm, hbindings, by decide, by decide, ?number, ?word, ?same⟩
  case stray =>
    intro hcompiles
    obtain ⟨-, hnamed, -⟩ := hstray.mp hcompiles
    exact absurd (hnamed ("b", .int) List.mem_cons_self) (by decide)
  case number =>
    refine (hvalues number).1.mpr ⟨by decide, fun x tag htag _ => ?_⟩
    obtain ⟨rfl, rfl⟩ : x = "a" ∧ tag = .int := by
      by_cases hx : x = "a"
      · subst hx
        exact ⟨rfl, (Option.some.inj htag).symm⟩
      · simp [lastDeclared, declarations, List.lookup_cons, beq_false_of_ne hx] at htag
    rfl
  case word =>
    refine Bool.eq_false_iff.mpr fun hword => ?_
    exact absurd (((hvalues word).1.mp hword).2 "a" .int rfl nofun) (by decide)
  case same =>
    rw [(hvalues number).2]
    rfl

end Clause
end Destructure
