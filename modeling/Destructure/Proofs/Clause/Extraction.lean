/-
What can be read from the values that a plan accepts.

A plan reads its parameters along paths and never looks at its guards while doing so.
That this goes well is due to the guards nonetheless.  A bound path is secured, so
each of its steps can be taken, except that an instance of a foreign registry may lack
a field.  Even then the path leads somewhere if any guard reads it: the check of the
variable's tag does, and so does the comparison with a second occurrence.
`boundAt` puts together what is known of one binding, and `BoundAt.resolves_or_unchecked` says
where its path leads.  What is found has the tag of the parameter, and so the body can take it.
-/
import Destructure.Proofs.Body.Arguments
import Destructure.Proofs.Clause.Secured

namespace Destructure

/-! ## Where a variable occurs -/

theorem mem_of_lookup {β : Type} {es : List (String × β)} {x : String} {b : β}
    (h : es.lookup x = some b) : (x, b) ∈ es := by
  obtain ⟨before, after, heq, -⟩ := List.lookup_eq_some_iff.mp h
  rw [heq]
  exact List.mem_append_right _ List.mem_cons_self

namespace Demand

variable {ds : List Demand} {x : String} {p : Path}

theorem exists_first (h : (occurrences ds).lookup x = some p) :
    ∃ before after, ds = before ++ .occurs x p :: after ∧ (occurrences before).lookup x = none := by
  induction ds with
  | nil => cases h
  | cons d ds ih =>
    cases d with
    | guard g =>
      obtain ⟨before, after, hds, hbefore⟩ := ih h
      exact ⟨.guard g :: before, after, by rw [hds, List.cons_append], hbefore⟩
    | occurs y q =>
      rw [occurrences, List.lookup_cons] at h
      by_cases hx : x = y
      · subst hx
        simp only [BEq.rfl, Option.some.injEq] at h
        exact ⟨[], ds, by rw [h, List.nil_append], rfl⟩
      · simp only [beq_false_of_ne hx] at h
        obtain ⟨before, after, hds, hbefore⟩ := ih h
        refine ⟨.occurs y q :: before, after, by rw [hds, List.cons_append], ?_⟩
        rw [occurrences, List.lookup_cons, beq_false_of_ne hx]
        exact hbefore

theorem exists_lookup (h : x ∈ (occurrences ds).map (·.1)) :
    ∃ p, (occurrences ds).lookup x = some p := by
  obtain ⟨⟨y, q⟩, hq, rfl⟩ := List.mem_map.mp h
  refine Option.ne_none_iff_exists'.mp fun hnone => ?_
  simpa using List.lookup_eq_none_iff.mp hnone (y, q) hq

end Demand

section Settle

variable {tags : List (String × Tag)} {b : Bindings} {x : String} {p : Path} {ds : List Demand}

theorem mem_settle_of_mem_guards {g : Guard} (h : g ∈ Demand.guards ds) :
    g ∈ (settle tags b ds).1 := by
  induction ds generalizing b with
  | nil => exact absurd h List.not_mem_nil
  | cons d ds ih =>
    cases d with
    | guard g' =>
      rcases List.mem_cons.mp h with rfl | h
      · exact List.mem_cons_self
      · exact List.mem_cons_of_mem _ (ih h)
    | occurs y q =>
      cases hy : b.find? y with
      | none =>
        rw [settle_fresh hy]
        exact List.mem_append_right _ (ih h)
      | some first =>
        rw [settle_repeated hy]
        exact List.mem_cons_of_mem _ (ih h)

/-- The tag of a variable is checked where it occurs first. -/
theorem tagGuards_subset_settle (hb : b.find? x = none)
    (h : (Demand.occurrences ds).lookup x = some p) :
    tagGuards (tagIn tags x) p ⊆ (settle tags b ds).1 := by
  obtain ⟨before, after, rfl, hbefore⟩ := Demand.exists_first h
  have hfresh : (settle tags b before).2.find? x = none := by
    rw [find?_settle, hb, hbefore]
    rfl
  rw [settle_append, settle_fresh hfresh]
  exact fun g hg => List.mem_append_right _ (List.mem_append_left _ hg)

/-- An occurrence of a bound variable is compared with the path that it is bound to. -/
theorem exists_sameValue_of_bound (hb : b.find? x = some p)
    (h : x ∈ (Demand.occurrences ds).map (·.1)) :
    ∃ q, Guard.sameValue p q ∈ (settle tags b ds).1 := by
  obtain ⟨q, hq⟩ := Demand.exists_lookup h
  obtain ⟨before, after, rfl, -⟩ := Demand.exists_first hq
  have hbound : (settle tags b before).2.find? x = some p := by
    rw [find?_settle, hb]
    rfl
  refine ⟨q, ?_⟩
  rw [settle_append, settle_repeated hbound]
  exact List.mem_append_right _ List.mem_cons_self

/-- With a second occurrence the first is compared to something. -/
theorem exists_sameValue_of_repeated (hb : b.find? x = none)
    (h : (Demand.occurrences ds).lookup x = some p)
    (hcount : 1 < ((Demand.occurrences ds).map (·.1)).count x) :
    ∃ q, Guard.sameValue p q ∈ (settle tags b ds).1 := by
  -- The list splits at the first occurrence, and a second one can only be behind it.
  obtain ⟨before, after, rfl, hbefore⟩ := Demand.exists_first h
  have hnone : x ∉ (Demand.occurrences before).map (·.1) := fun hx => by
    obtain ⟨q, hq⟩ := Demand.exists_lookup hx
    simp [hbefore] at hq
  have hafter : x ∈ (Demand.occurrences after).map (·.1) := by
    rw [Demand.occurrences_append, List.map_append, List.count_append,
      List.count_eq_zero.mpr hnone, Demand.occurrences, List.map_cons, List.count_cons_self]
      at hcount
    exact List.count_pos_iff.mp (by omega)
  have hfresh : (settle tags b before).2.find? x = none := by
    rw [find?_settle, hb, hbefore]
    rfl
  have hbound : ((settle tags b before).2.bind x p).2.find? x = some p := by
    rw [Bindings.find?_bind, hfresh, if_pos rfl]
    rfl
  obtain ⟨q, hq⟩ : ∃ q, Guard.sameValue p q ∈ (settle tags _ after).1 :=
    exists_sameValue_of_bound hbound hafter
  refine ⟨q, ?_⟩
  rw [settle_append, settle_fresh hfresh]
  exact List.mem_append_right _ (List.mem_append_right _ hq)

end Settle

/-! ## Mentions by parts -/

namespace Shape

variable {r : Registry} {t : TypeId}

theorem flatMap_mentions_eq (parts : List (Step × Shape)) :
    parts.flatMap (·.2.mentions) = mentionsItems (parts.map (·.2)) := by
  rw [mentionsItems_eq_flatMap, List.flatMap_map]

theorem mentionsEntries_eq_mentionsItems (es : List (String × Shape)) :
    mentionsEntries es = mentionsItems (es.map (·.2)) := by
  rw [mentionsEntries_eq_flatMap, mentionsItems_eq_flatMap, List.flatMap_map]

theorem mentionsItems_eq_args {arity i : Nat} {ss : List Shape} {parts : List (Step × Shape)}
    (h : ArgParts r t arity i ss parts) : mentionsItems ss = parts.flatMap (·.2.mentions) := by
  induction h with
  | nil => rfl
  | discard _ ih => exact ih
  | field _ _ _ ih => rw [mentionsItems, List.flatMap_cons, ih]

theorem mentionsEntries_eq_fields {ss : List (String × Shape)} {parts : List (Step × Shape)}
    (h : FieldParts r t ss parts) : mentionsEntries ss = parts.flatMap (·.2.mentions) := by
  rw [flatMap_mentions_eq, h.map_snd, mentionsEntries_eq_mentionsItems]

/-- The variables that occur among the demands of a shape are those it mentions. -/
def Mentioned (_ : Path) (s : Shape) (ds : List Demand) : Prop :=
  (Demand.occurrences ds).map (·.1) = s.mentions

theorem mentioned_of_below {p : Path} {parts : List (Step × Shape)} {ds : List Demand}
    (h : Below Mentioned p parts ds) :
    (Demand.occurrences ds).map (·.1) = parts.flatMap (·.2.mentions) := by
  induction h with
  | nil => rfl
  | cons head _ ih =>
    rw [Demand.occurrences_append, List.map_append, List.flatMap_cons, ih, head]

theorem map_occurrences_node {p : Path} {gs : List Guard} {parts : List (Step × Shape)}
    {ds : List Demand} (h : Below Mentioned p parts ds) :
    (Demand.occurrences (gs.map .guard ++ ds)).map (·.1) = parts.flatMap (·.2.mentions) := by
  rw [Demand.occurrences_append, Demand.occurrences_guards, List.nil_append, mentioned_of_below h]

theorem demands_mentioned {declared : List String} {p : Path} {s : Shape} {ds : List Demand}
    (h : demands r declared p s = .ok ds) : Mentioned p s ds := by
  refine demands_induction (motive := Mentioned) ?discard ?literal ?var ?sequence ?map ?construct
    ?constructWith h
  case discard => exact fun p => rfl
  case literal => exact fun p v => rfl
  case var => exact fun p x _ => rfl
  case sequence =>
    intro p kind items ds _ hbelow
    rw [Mentioned, map_occurrences_node hbelow, mentions, flatMap_mentions_eq, map_snd_itemParts]
  case map =>
    intro p entries ds _ hbelow
    rw [Mentioned, map_occurrences_node hbelow, mentions, flatMap_mentions_eq, map_snd_entryParts,
      mentionsEntries_eq_mentionsItems]
  case construct =>
    intro p t args ctor parts ds _ hargs hbelow
    rw [Mentioned, map_occurrences_node hbelow, mentions, mentionsItems_eq_args hargs]
  case constructWith =>
    intro p t args fields ctor parts more ds es _ hargs _ hfields hbelow hbelow'
    rw [Mentioned, map_occurrences_node (hbelow.append hbelow'), mentions, List.flatMap_append,
      mentionsItems_eq_args hargs, mentionsEntries_eq_fields hfields]

end Shape

/-! ## Where a binding leads -/

/-- A guard that holds finds something on every path that it reads. -/
theorem Guard.exists_of_holds {g : Guard} {v : Value} (h : g.holds v = true) {p : Path}
    (hp : p ∈ g.paths) : ∃ w, p.resolve v = some w := by
  cases hw : p.resolve v with
  | some w => exact ⟨w, rfl⟩
  | none =>
    cases g with
    | sameValue first second =>
      obtain ⟨a, ha, b, hb, -⟩ : ∃ a, first.resolve v = some a ∧
          ∃ b, second.resolve v = some b ∧ a.same b = true := by
        simpa [holds, Option.any_eq_true] using h
      simp only [paths, List.mem_cons, List.not_mem_nil, or_false] at hp
      rcases hp with rfl | rfl
      · simp [hw] at ha
      · simp [hw] at hb
    | _ =>
      rw [List.mem_singleton.mp hp] at hw
      simp [holds, hw] at h

/-- On an accepted value a secured path leads somewhere, unless it ends in a field and the
value does not conform. -/
theorem Path.Secured.resolves {r : Registry} {guards : List Guard} {p : Path}
    (h : p.Secured r guards) {v : Value} (hguards : ∀ g ∈ guards, g.holds v = true)
    (hfield : r.conforms v = true ∨ ∀ q i name, p ≠ Path.child q (.field i name)) :
    ∃ w, p.resolve v = some w := by
  rcases List.eq_nil_or_concat p with rfl | ⟨q, step, rfl⟩
  · exact ⟨v, rfl⟩
  · rw [List.concat_eq_append] at h hfield ⊢
    refine Step.Secured.resolves (Path.Secured.last h) hguards (hfield.imp_right ?_)
    exact fun hne i name hstep => hne q i name (by rw [hstep, Path.child])

namespace Clause

variable {c : Clause} {r : Registry} {limit : Nat} {tags : List Tag} {plan : Plan}
  {x : String} {p : Path}

/-- What a plan knows of a variable that it binds. -/
structure BoundAt (c : Clause) (r : Registry) (tags : List Tag) (guards : List Guard)
    (x : String) (p : Path) : Prop where
  secured : p.Secured r guards
  tagged : tagGuards (c.tagFor tags x) p ⊆ guards
  mentioned : x ∈ c.shape.mentions
  compared : 1 < c.shape.mentions.count x → ∃ q, Guard.sameValue p q ∈ guards

theorem boundAt (h : c.compilePlan r limit tags = .ok plan) (hx : (x, p) ∈ plan.bindings) :
    c.BoundAt r tags plan.guards x p := by
  obtain ⟨assigned, ds, hcheck, -, hds, hguards, hbindings⟩ := compilePlan_eq_ok h
  obtain ⟨-, -, -, htags⟩ := checkParams_eq_ok hcheck
  have hmentioned : (Demand.occurrences ds).map (·.1) = c.shape.mentions :=
    Shape.demands_mentioned hds
  have hlookup : (Demand.occurrences ds).lookup x = some p := by
    have hfind := (Bindings.forParams_eq_ok hbindings).2 (x, p) hx
    rwa [find?_settle, Bindings.find?_empty, Option.none_or] at hfind
  have hmem := mem_of_lookup hlookup
  rw [hguards]
  refine ⟨?secured, ?tagged, ?mentioned, ?compared⟩
  case secured =>
    have hsecured := (Shape.demands_secured hds [] Path.secured_root).occurrence hmem
    exact hsecured.mono fun g hg => mem_settle_of_mem_guards (by simpa using hg)
  case tagged =>
    rw [← lookup_paramTags htags x]
    exact tagGuards_subset_settle (Bindings.find?_empty x) hlookup
  case mentioned =>
    rw [← hmentioned]
    exact List.mem_map.mpr ⟨(x, p), hmem, rfl⟩
  case compared =>
    rw [← hmentioned]
    exact exists_sameValue_of_repeated (Bindings.find?_empty x) hlookup

theorem BoundAt.admits {guards : List Guard} (h : c.BoundAt r tags guards x p) {v w : Value}
    (hguards : ∀ g ∈ guards, g.holds v = true) (hw : p.resolve v = some w) :
    (c.tagFor tags x).admits w = true := by
  by_cases hany : c.tagFor tags x = .any
  · rw [hany]
    rfl
  · have htype : (Guard.typeIs p (c.tagFor tags x)).holds v = true :=
      hguards _ (h.tagged (by simp [tagGuards, hany]))
    simpa [Guard.holds, hw] using htype

/-- The one case in which nothing is there for a variable. -/
structure Unchecked (c : Clause) (tags : List Tag) (x : String) (p : Path) : Prop where
  anything : c.tagFor tags x = .any
  once : c.shape.mentions.count x = 1
  atField : ∃ q i name, p = Path.child q (.field i name)

theorem BoundAt.resolves_or_unchecked {guards : List Guard} (h : c.BoundAt r tags guards x p)
    {v : Value} (hguards : ∀ g ∈ guards, g.holds v = true) :
    (∃ w, p.resolve v = some w) ∨ (r.conforms v = false ∧ c.Unchecked tags x p) := by
  by_cases hsome : ∃ w, p.resolve v = some w
  · exact .inl hsome
  · have hunread : ∀ g ∈ guards, p ∉ g.paths := fun g hg hp =>
      hsome (Guard.exists_of_holds (hguards g hg) hp)
    refine .inr ⟨?conforms, ?anything, ?once, ?atField⟩
    case conforms =>
      cases hv : r.conforms v with
      | false => rfl
      | true => exact absurd (h.secured.resolves hguards (.inl hv)) hsome
    case anything =>
      by_cases hany : c.tagFor tags x = .any
      · exact hany
      · have htype : Guard.typeIs p (c.tagFor tags x) ∈ guards :=
          h.tagged (by simp [tagGuards, hany])
        exact absurd List.mem_cons_self (hunread _ htype)
    case once =>
      have hpos : 0 < c.shape.mentions.count x := List.count_pos_iff.mpr h.mentioned
      have hle : ¬ 1 < c.shape.mentions.count x := fun hcount => by
        obtain ⟨q, hq⟩ := h.compared hcount
        exact hunread _ hq List.mem_cons_self
      omega
    case atField =>
      by_cases hfield : ∃ q i name, p = Path.child q (.field i name)
      · exact hfield
      · have hne : ∀ q i name, p ≠ Path.child q (.field i name) := fun q i name hp =>
          hfield ⟨q, i, name, hp⟩
        exact absurd (h.secured.resolves hguards (.inr hne)) hsome

end Clause

/-! ## Extracting -/

namespace Path

variable {v : Value} {ps : List Path}

theorem map_resolve_of_resolveAll {ws : List Value} (h : resolveAll v ps = .ok ws) :
    ps.map (resolve · v) = ws.map some := by
  induction ps generalizing ws with
  | nil =>
    cases h
    rfl
  | cons p ps ih =>
    rw [resolveAll] at h
    cases hp : p.resolve v with
    | none => simp [hp] at h
    | some w =>
      simp only [hp] at h
      obtain ⟨more, hmore, rfl⟩ := map_eq_ok h
      rw [List.map_cons, List.map_cons, hp, ih hmore]

theorem resolve_of_resolveAll_error {p : Path} (h : resolveAll v ps = .error p) :
    p ∈ ps ∧ p.resolve v = none := by
  induction ps with
  | nil => cases h
  | cons q ps ih =>
    rw [resolveAll] at h
    cases hq : q.resolve v with
    | none =>
      simp only [hq, Except.error.injEq] at h
      exact h ▸ ⟨List.mem_cons_self, hq⟩
    | some w =>
      cases hps : resolveAll v ps with
      | error q' =>
        simp only [hq, hps, Except.map, Except.error.injEq] at h
        obtain ⟨hmem, hnone⟩ := ih (hps.trans (congrArg _ h))
        exact ⟨List.mem_cons_of_mem _ hmem, hnone⟩
      | ok more => simp [hq, hps, Except.map] at h

end Path

namespace Arm

variable {α : Type}

/-- The body runs on the parts that the bindings lead to, in their order, each taken in
the type of its argument. -/
def Answers (a : Arm α) (v : Value) : Prop :=
  ∃ (parts : List Value) (args : Args a.body.signature),
    a.bindings.map (·.2.resolve v) = parts.map some ∧ args.TakenFrom parts ∧
      a.extract v = .ok ⟨a.body.label, a.body.run args⟩

theorem map_resolve_of_parts {a : Arm α} {v : Value} {parts : List Value}
    (h : a.parts v = .ok parts) : a.bindings.map (·.2.resolve v) = parts.map some := by
  rw [← Path.map_resolve_of_resolveAll h, List.map_map]
  rfl

theorem extract_of_takenFrom {a : Arm α} {v : Value} {parts : List Value}
    (h : a.parts v = .ok parts) {args : Args a.body.signature} (hargs : args.TakenFrom parts) :
    a.extract v = .ok ⟨a.body.label, a.body.run args⟩ := by
  simp only [extract, h, Body.invoke, hargs.ofValues_eq_ok, Except.map]

theorem extract_of_parts_eq_error {a : Arm α} {v : Value} {p : Path} (h : a.parts v = .error p) :
    a.extract v = .error (.noValueAt p) := by
  simp only [extract, h]

/-- Nothing is there for a variable that the plan of the clause leaves unchecked. -/
def Misses (a : Arm α) (c : Clause) (v : Value) : Prop :=
  ∃ x p, (x, p) ∈ a.bindings ∧ p.resolve v = none ∧ c.Unchecked a.body.tags x p ∧
    a.extract v = .error (.noValueAt p)

end Arm

namespace Clause

variable {α : Type} {c : Clause} {r : Registry} {limit : Nat} {body : Body α} {arm : Arm α}

theorem admits_of_tagFor {tags : List Tag} {assigned : List (String × Tag)}
    (h : c.checkParams tags = .ok assigned) {i : Nat} {x : String} {tag : Tag}
    (hx : c.params[i]? = some x) (htag : tags[i]? = some tag) {w : Value}
    (hw : (c.tagFor tags x).admits w = true) : tag.admits w = true := by
  obtain ⟨hnodup, hlen, -, htags⟩ := checkParams_eq_ok h
  have hmem : (x, tag) ∈ c.params.zip tags :=
    List.mem_of_getElem? (List.getElem?_zip_eq_some.mpr ⟨hx, htag⟩)
  have hkeys : ((c.params.zip tags).map (·.1)).Nodup := by
    rwa [List.map_fst_zip (by omega)]
  rw [← lookup_paramTags htags x] at hw
  exact admits_of_paramTag (paramTag_of_mem htags hkeys hmem) hw

/-- Each part is found by the binding at its place, and so has the tag of that parameter. -/
theorem admits_of_parts (h : c.compile r limit body = .ok arm) {v : Value}
    (hguards : ∀ g ∈ arm.guards, g.holds v = true) {parts : List Value}
    (hfound : arm.bindings.map (·.2.resolve v) = parts.map some) {i : Nat} {t : ArgType}
    {w : Value} (ht : body.signature[i]? = some t) (hw : parts[i]? = some w) :
    t.tag.admits w = true := by
  obtain ⟨hplan, -⟩ := compile_eq_ok h
  obtain ⟨assigned, ds, hcheck, -, -, -, hbindings⟩ := compilePlan_eq_ok hplan
  -- Types, parameters, bindings and parts are four lists of one length, read by index.
  have hi := congrArg (·[i]?) hfound
  simp only [List.getElem?_map, hw, Option.map_some, Option.map_eq_some_iff] at hi
  obtain ⟨⟨x, p⟩, hbinding, hresolve⟩ := hi
  have hx : c.params[i]? = some x := by
    rw [← (Bindings.forParams_eq_ok hbindings).1, List.getElem?_map, hbinding]
    rfl
  have htag : body.tags[i]? = some t.tag := by
    rw [Body.tags, List.getElem?_map, ht]
    rfl
  have hbound := boundAt hplan (List.mem_of_getElem? hbinding)
  exact admits_of_tagFor hcheck hx htag (hbound.admits hguards hresolve)

/-- Once every binding leads somewhere, the body can take what is found there. -/
theorem exists_takenFrom_of_parts (h : c.compile r limit body = .ok arm) {v : Value}
    (hguards : ∀ g ∈ arm.guards, g.holds v = true) {parts : List Value}
    (hparts : arm.parts v = .ok parts) : ∃ args : Args arm.body.signature, args.TakenFrom parts := by
  obtain ⟨hplan, rfl⟩ := compile_eq_ok h
  obtain ⟨assigned, ds, hcheck, -, -, -, hbindings⟩ := compilePlan_eq_ok hplan
  obtain ⟨-, harity, -, -⟩ := checkParams_eq_ok hcheck
  have hfound : arm.bindings.map (·.2.resolve v) = parts.map some := Arm.map_resolve_of_parts hparts
  have hlen : parts.length = arm.body.signature.length := by
    have hnames := congrArg List.length (Bindings.forParams_eq_ok hbindings).1
    have hvalues := congrArg List.length hfound
    simp only [Body.tags, List.length_map] at harity hnames hvalues
    omega
  exact Args.exists_takenFrom hlen fun i t w ht hw => admits_of_parts h hguards hfound ht hw

theorem answers_of_parts (h : c.compile r limit body = .ok arm) {v : Value}
    (hguards : ∀ g ∈ arm.guards, g.holds v = true) {parts : List Value}
    (hparts : arm.parts v = .ok parts) : arm.Answers v := by
  obtain ⟨args, hargs⟩ := exists_takenFrom_of_parts h hguards hparts
  exact ⟨parts, args, Arm.map_resolve_of_parts hparts, hargs, Arm.extract_of_takenFrom hparts hargs⟩

theorem answers_or_misses (h : c.compile r limit body = .ok arm) {v : Value}
    (hv : arm.accepts v = true) :
    arm.Answers v ∨ (r.conforms v = false ∧ arm.Misses c v) := by
  obtain ⟨hplan, hbody⟩ := compile_eq_ok h
  have hguards : ∀ g ∈ arm.guards, g.holds v = true := by
    rw [Plan.accepts_eq_all_holds] at hv
    exact List.all_eq_true.mp hv
  cases hparts : arm.parts v with
  | ok parts => exact .inl (answers_of_parts h hguards hparts)
  | error p =>
    obtain ⟨hp, hnone⟩ := Path.resolve_of_resolveAll_error hparts
    obtain ⟨⟨x, p⟩, hx, rfl⟩ := List.mem_map.mp hp
    rcases (boundAt hplan hx).resolves_or_unchecked hguards with ⟨w, hw⟩ | ⟨hconforms, hunchecked⟩
    · simp [hnone] at hw
    · refine .inr ⟨hconforms, x, p, hx, hnone, hbody ▸ hunchecked, ?_⟩
      simp only [Arm.extract, hparts]

end Clause
end Destructure
