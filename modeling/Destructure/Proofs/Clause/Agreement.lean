/-
A compiled clause accepts what its shape means.

The direct reading of a shape goes down into a value and threads an environment of
variables.  A plan is a flat list of guards on paths, with the first position of
every variable in a table.  The two are tied by one invariant, `Tracks`: where the
reading has a value for a variable, the table has a path that leads to this value.
`Agrees` says that guards and table together stand where the reading stands, and
`agrees_of_demands` that every shape keeps the two in step.

Conforming values are needed at one place only.  A part that puts no guard on its
own position, a discarded named field or a variable of any type, is taken to be
there by the plan and looked for by the reading.
-/
import Destructure.Proofs.Clause.Compiled
import Destructure.Proofs.Clause.Parts
import Destructure.Proofs.Registry.Conforming

namespace Destructure

/-- The bound variables are those of the environment, and the path of each leads to its
value. -/
def Tracks (v : Value) (b : Bindings) (env : Env) : Prop :=
  ∀ x, (b.find? x).map (fun p => Path.resolve p v) = (env.lookup x).map some

/-- Guards and bindings stand where the reading stands: the guards hold exactly when the
reading goes on, and then the bindings track its environment. -/
def Agrees (v : Value) (out : List Guard × Bindings) : Option Env → Prop
  | none => out.1.all (·.holds v) = false
  | some env => out.1.all (·.holds v) = true ∧ Tracks v out.2 env

/-! ## Bindings and environments -/

theorem Tracks.lookup_eq_none {v : Value} {b : Bindings} {env : Env} {x : String}
    (h : Tracks v b env) (hx : b.find? x = none) : env.lookup x = none := by
  have hx' := h x
  rw [hx] at hx'
  cases he : env.lookup x with
  | none => rfl
  | some w => simp [he] at hx'

theorem Tracks.lookup_eq_some {v : Value} {b : Bindings} {env : Env} {x : String} {p : Path}
    (h : Tracks v b env) (hx : b.find? x = some p) :
    ∃ w, env.lookup x = some w ∧ p.resolve v = some w := by
  have hx' := h x
  rw [hx] at hx'
  cases he : env.lookup x with
  | none => simp [he] at hx'
  | some w =>
    rw [he, Option.map_some, Option.map_some, Option.some.injEq] at hx'
    exact ⟨w, rfl, hx'⟩

theorem Tracks.bind {v u : Value} {b : Bindings} {env : Env} {x : String} {p : Path}
    (h : Tracks v b env) (hx : b.find? x = none) (hu : p.resolve v = some u) :
    Tracks v (b.bind x p).2 ((x, u) :: env) := by
  intro y
  rw [Bindings.find?_bind, List.lookup_cons]
  by_cases hy : y = x
  · subst hy
    simp [hx, hu]
  · simpa [hy, beq_false_of_ne hy] using h y

/-! ## Putting demands together -/

section Settle

variable {v : Value} {tags : List (String × Tag)} {b : Bindings}

theorem Agrees.append {ds es : List Demand} {o : Option Env} {k : Env → Option Env}
    (h : Agrees v (settle tags b ds) o)
    (hk : ∀ b' env, Tracks v b' env → Agrees v (settle tags b' es) (k env)) :
    Agrees v (settle tags b (ds ++ es)) (o.bind k) := by
  rw [settle_append]
  cases o with
  | none =>
    show List.all _ _ = false
    rw [List.all_append, show List.all _ _ = false from h, Bool.false_and]
  | some env =>
    obtain ⟨hall, htracks⟩ := h
    have hes := hk _ env htracks
    rw [Option.bind_some]
    cases hkenv : k env with
    | none =>
      rw [hkenv] at hes
      show List.all _ _ = false
      rw [List.all_append, hall, Bool.true_and]
      exact hes
    | some env' =>
      rw [hkenv] at hes
      refine ⟨?_, hes.2⟩
      rw [List.all_append, hall, Bool.true_and]
      exact hes.1

theorem Agrees.guards {gs : List Guard} {ds : List Demand} {o : Option Env}
    (hgs : gs.all (·.holds v) = true) (h : Agrees v (settle tags b ds) o) :
    Agrees v (settle tags b (gs.map .guard ++ ds)) o := by
  rw [settle_guards]
  cases o with
  | none =>
    show List.all _ _ = false
    rw [List.all_append, hgs, Bool.true_and]
    exact h
  | some env =>
    refine ⟨?_, h.2⟩
    rw [List.all_append, hgs, Bool.true_and]
    exact h.1

theorem Agrees.of_guards_false {gs : List Guard} {ds : List Demand}
    (hgs : gs.all (·.holds v) = false) : Agrees v (settle tags b (gs.map .guard ++ ds)) none := by
  rw [settle_guards]
  show List.all _ _ = false
  rw [List.all_append, hgs, Bool.false_and]

end Settle

/-! ## Matching by parts -/

namespace Shape

variable {r : Registry} {tagOf : String → Tag}

/-- The parts of a value matched in order. -/
def matchingParts (r : Registry) (tagOf : String → Tag) :
    List (Step × Shape) → Value → Env → Option Env
  | [], _, env => some env
  | (step, s) :: parts, u, env =>
    (step.follow u).bind fun w =>
      (matching r tagOf s w env).bind fun env => matchingParts r tagOf parts u env

theorem matchingItems_eq_none {ss : List Shape} {vs : List Value} {env : Env}
    (h : ss.length ≠ vs.length) : matchingItems r tagOf ss vs env = none := by
  induction ss generalizing vs env with
  | nil =>
    cases vs with
    | nil => exact absurd rfl h
    | cons v vs => rfl
  | cons s ss ih =>
    cases vs with
    | nil => rfl
    | cons v vs =>
      rw [matchingItems]
      split
      · rfl
      · exact ih fun hlen => h (by rw [List.length_cons, List.length_cons, hlen])

theorem matchingItems_eq_parts {u : Value} {vs : List Value}
    (hu : ∀ i, (Step.item i).follow u = vs[i]?) {ss : List Shape} {i : Nat} {env : Env}
    (hlen : i + ss.length = vs.length) :
    matchingItems r tagOf ss (vs.drop i) env = matchingParts r tagOf (itemParts i ss) u env := by
  induction ss generalizing i env with
  | nil =>
    rw [List.drop_eq_nil_of_le (by simp at hlen; omega)]
    rfl
  | cons s ss ih =>
    rw [List.length_cons] at hlen
    have hi : i < vs.length := by omega
    rw [List.drop_eq_getElem_cons hi, matchingItems, itemParts, matchingParts, hu,
      List.getElem?_eq_getElem hi, Option.bind_some]
    cases matching r tagOf s vs[i] env with
    | none => rfl
    | some env' => exact ih (by omega)

/-- Reading one part and going on is the same as going on in two binds. -/
theorem match_part_eq_bind {found : Option Value} {s : Shape} {env : Env}
    {rest rest' : Env → Option Env} (hrest : ∀ env, rest env = rest' env) :
    (match found with
      | none => none
      | some w =>
        match matching r tagOf s w env with
        | none => none
        | some env => rest env) =
      found.bind fun w => (matching r tagOf s w env).bind rest' := by
  cases found with
  | none => rfl
  | some w =>
    simp only [Option.bind_some]
    cases matching r tagOf s w env with
    | none => rfl
    | some env' => exact hrest env'

theorem matchingEntries_eq_parts {ss : List (String × Shape)} {es : List (String × Value)}
    {env : Env} :
    matchingEntries r tagOf ss es env = matchingParts r tagOf (entryParts ss) (.map es) env := by
  induction ss generalizing env with
  | nil => rfl
  | cons e ss ih =>
    rw [matchingEntries]
    exact match_part_eq_bind fun env => ih

theorem matchingArgs_eq_parts {t : TypeId} {arity i : Nat} {ss : List Shape}
    {parts : List (Step × Shape)} (h : ArgParts r t arity i ss parts) {u : TypeId} {name : String}
    {fields : List Value} {env : Env} :
    matchingArgs r tagOf t arity i ss fields env =
      matchingParts r tagOf parts (.object u name fields) env := by
  induction h generalizing env with
  | nil => rfl
  | discard _ ih =>
    rw [matchingArgs]
    exact ih
  | field read found _ ih =>
    rw [matchingArgs]
    · rw [found]
      exact match_part_eq_bind fun env => ih
    · exact read

theorem matchingFields_eq_parts {t : TypeId} {ss : List (String × Shape)}
    {parts : List (Step × Shape)} (h : FieldParts r t ss parts) {u : TypeId} {name : String}
    {fields : List Value} {env : Env} :
    matchingFields r tagOf t ss fields env =
      matchingParts r tagOf parts (.object u name fields) env := by
  induction h generalizing env with
  | nil => rfl
  | field found _ ih =>
    rw [matchingFields, found]
    exact match_part_eq_bind fun env => ih

/-! ## Each kind of node -/

variable {declared : List String} {tags : List (String × Tag)} {v : Value}

/-- The settled demands of the shape at the path agree with matching it there. -/
def Reads (r : Registry) (tags : List (String × Tag)) (v : Value) (p : Path) (s : Shape)
    (ds : List Demand) : Prop :=
  ∀ u b env, p.resolve v = some u → Tracks v b env →
    Agrees v (settle tags b ds) (s.matching r (tagIn tags) u env)

theorem agrees_of_below {p : Path} {u : Value} (hu : p.resolve v = some u)
    {parts : List (Step × Shape)} {ds : List Demand} (h : Below (Reads r tags v) p parts ds)
    (hsteps : ∀ part ∈ parts, ∃ w, part.1.follow u = some w) {b : Bindings} {env : Env}
    (ht : Tracks v b env) :
    Agrees v (settle tags b ds) (matchingParts r (tagIn tags) parts u env) := by
  induction h generalizing b env with
  | nil => exact ⟨rfl, ht⟩
  | @cons step s parts ds es head _ ih =>
    obtain ⟨w, hw⟩ := hsteps (step, s) List.mem_cons_self
    have hchild : (p.child step).resolve v = some w := by
      rw [Path.resolve_child, hu, Option.bind_some, hw]
    rw [matchingParts, hw, Option.bind_some]
    exact (head w b env hchild ht).append fun b' env' ht' =>
      ih (fun part hp => hsteps part (List.mem_cons_of_mem _ hp)) ht'

theorem reads_literal (p : Path) (w : Value) :
    Reads r tags v p (.literal w) [.guard (.eqLiteral p w)] := by
  intro u b env hu ht
  cases hsame : u.same w with
  | false => simp [matching, hsame, Agrees, settle, Guard.holds, hu]
  | true => simpa [matching, hsame, Agrees, settle, Guard.holds, hu] using ht

theorem all_tagGuards {p : Path} {u : Value} (hu : p.resolve v = some u) (tag : Tag) :
    (tagGuards tag p).all (·.holds v) = tag.admits u := by
  unfold tagGuards
  by_cases hany : tag = .any
  · subst hany
    rfl
  · simp [hany, Guard.holds, hu]

/-- The first occurrence of a variable checks its tag, a later one compares. -/
theorem reads_var (p : Path) (x : String) : Reads r tags v p (.var x) [.occurs x p] := by
  intro u b env hu ht
  rw [matching]
  cases hx : b.find? x with
  | none =>
    rw [ht.lookup_eq_none hx, settle_fresh hx]
    cases hadmits : (tagIn tags x).admits u with
    | false => simpa [Agrees, settle, hadmits] using (all_tagGuards hu _).trans hadmits
    | true =>
      refine ⟨?_, ht.bind hx hu⟩
      rw [settle, List.append_nil, all_tagGuards hu, hadmits]
  | some first =>
    obtain ⟨w, hw, hfirst⟩ := ht.lookup_eq_some hx
    rw [hw, settle_repeated hx]
    cases hsame : w.same u with
    | false => simp [hsame, Agrees, settle, Guard.holds, hu, hfirst]
    | true => simpa [hsame, Agrees, settle, Guard.holds, hu, hfirst] using ht

end Shape

theorem SequenceKind.items?_eq {kind : SequenceKind} {u : Value}
    (h : kind.tag.admits u = true) : kind.items? u = u.items? := by
  cases kind <;> cases u <;> first | rfl | simp [SequenceKind.tag, Tag.admits] at h

theorem SequenceKind.items?_eq_none {kind : SequenceKind} {u : Value}
    (h : kind.tag.admits u = false) : kind.items? u = none := by
  cases kind <;> cases u <;> first | rfl | simp [SequenceKind.tag, Tag.admits] at h

namespace Shape

variable {r : Registry} {declared : List String} {tags : List (String × Tag)} {v : Value}

theorem reads_sequence {p : Path} {kind : SequenceKind} {items : List Shape} {ds : List Demand}
    (h : Below (Reads r tags v) p (itemParts 0 items) ds) :
    Reads r tags v p (.sequence kind items)
      ([Guard.typeIs p kind.tag, .countIs p items.length].map .guard ++ ds) := by
  intro u b env hu ht
  rw [matching]
  cases hkind : kind.tag.admits u with
  | false =>
    rw [SequenceKind.items?_eq_none hkind]
    exact Agrees.of_guards_false (by simp [Guard.holds, hu, hkind])
  | true =>
    obtain ⟨vs, hvs, hcount, hfollow⟩ := SequenceKind.exists_items hkind
    rw [SequenceKind.items?_eq hkind, hvs]
    show Agrees v _ (matchingItems r (tagIn tags) items vs env)
    by_cases hlen : items.length = vs.length
    · have hparts : matchingItems r (tagIn tags) items vs env =
          matchingParts r (tagIn tags) (itemParts 0 items) u env := by
        simpa using matchingItems_eq_parts hfollow (i := 0) (by omega)
      rw [hparts]
      refine Agrees.guards (by simp [Guard.holds, hu, hkind, hcount, hlen]) ?_
      refine agrees_of_below hu h (fun part hp => ?_) ht
      obtain ⟨i, hi, hstep⟩ := mem_itemParts hp
      rw [hstep, hfollow]
      exact ⟨vs[i], List.getElem?_eq_getElem (by omega)⟩
    · rw [matchingItems_eq_none hlen]
      exact Agrees.of_guards_false (by simp [Guard.holds, hu, hcount, Ne.symm hlen])

theorem matchingEntries_eq_none {tagOf : String → Tag} {ss : List (String × Shape)}
    {es : List (String × Value)} {env : Env} {e : String × Shape} (he : e ∈ ss)
    (h : es.lookup e.1 = none) : matchingEntries r tagOf ss es env = none := by
  induction ss generalizing env with
  | nil => exact absurd he List.not_mem_nil
  | cons e' ss ih =>
    rw [matchingEntries]
    rcases List.mem_cons.mp he with rfl | he
    · rw [h]
    · split
      · rfl
      · split
        · rfl
        · exact ih he

theorem reads_map {p : Path} {entries : List (String × Shape)} {ds : List Demand}
    (h : Below (Reads r tags v) p (entryParts entries) ds) :
    Reads r tags v p (.map entries)
      ((Guard.typeIs p .map :: entries.map fun e => .hasKey p e.1).map .guard ++ ds) := by
  intro u b env hu ht
  rw [matching]
  cases u with
  | map es =>
    show Agrees v _ (matchingEntries r (tagIn tags) entries es env)
    by_cases hmissing : ∃ e ∈ entries, es.lookup e.1 = none
    · obtain ⟨e, he, hlookup⟩ := hmissing
      rw [matchingEntries_eq_none he hlookup]
      refine Agrees.of_guards_false (List.all_eq_false.mpr ⟨.hasKey p e.1, ?_, ?_⟩)
      · exact List.mem_cons_of_mem _ (List.mem_map.mpr ⟨e, he, rfl⟩)
      · simp [Guard.holds, hu, Value.entries?, hlookup]
    · have hkeys : ∀ e ∈ entries, ∃ w, es.lookup e.1 = some w := fun e he =>
        Option.ne_none_iff_exists'.mp fun hnone => hmissing ⟨e, he, hnone⟩
      rw [matchingEntries_eq_parts]
      refine Agrees.guards (List.all_eq_true.mpr fun g hg => ?_)
        (agrees_of_below hu h (fun part hp => ?_) ht)
      · rcases List.mem_cons.mp hg with rfl | hg
        · simp [Guard.holds, hu, Tag.admits]
        · obtain ⟨e, he, rfl⟩ := List.mem_map.mp hg
          obtain ⟨w, hw⟩ := hkeys e he
          simp [Guard.holds, hu, Value.entries?, hw]
      · obtain ⟨e, he, rfl⟩ := List.mem_map.mp hp
        exact hkeys e he
  | _ => exact Agrees.of_guards_false (by simp [Guard.holds, hu, Tag.admits])

theorem type_ne_of_admits_eq_false {t : TypeId} {u : Value} {o : Instance}
    (h : (Tag.object t).admits u = false) (ho : u.instance? = some o) : o.type ≠ t := by
  cases u with
  | object t' name fields =>
    cases ho
    exact fun htype => beq_eq_false_iff_ne.mp h htype.symm
  | _ => cases ho

/-- Both kinds of construction check the type and then match their parts.  Conforming is
what makes sure that the fields of the parts are there. -/
theorem reads_instance (hv : r.conforms v = true) {p : Path} {t : TypeId} {s : Shape}
    {parts : List (Step × Shape)} {ds : List Demand}
    (hfields : ∀ part ∈ parts, ∃ f name, part.1 = f.step ∧ r.field t name = .ok f)
    (h : Below (Reads r tags v) p parts ds)
    (hparts : ∀ name fields env, s.matching r (tagIn tags) (.object t name fields) env =
      matchingParts r (tagIn tags) parts (.object t name fields) env)
    (hnone : ∀ u env, (Tag.object t).admits u = false → s.matching r (tagIn tags) u env = none) :
    Reads r tags v p s ([Guard.typeIs p (.object t)].map .guard ++ ds) := by
  intro u b env hu ht
  cases htype : (Tag.object t).admits u with
  | false =>
    rw [hnone u env htype]
    exact Agrees.of_guards_false (by simp [Guard.holds, hu, htype])
  | true =>
    obtain ⟨name, fields, rfl⟩ : ∃ name fields, u = .object t name fields := by
      cases u <;> simp [Tag.admits] at htype
      subst htype
      exact ⟨_, _, rfl⟩
    rw [hparts]
    refine Agrees.guards (by simp [Guard.holds, hu, htype]) (agrees_of_below hu h ?_ ht)
    intro part hp
    obtain ⟨f, fieldName, hstep, hf⟩ := hfields part hp
    obtain ⟨d, hd, hindex, -⟩ := Registry.field_eq_ok hf
    have hlt : f.index < d.fields.length := (List.getElem?_eq_some_iff.mp hindex).1
    rw [hstep]
    exact Registry.exists_field_of_conforms (Registry.conforms_of_resolve hv hu) hd hlt

theorem matchingParts_append (parts more : List (Step × Shape)) (u : Value) (env : Env) :
    matchingParts r (tagIn tags) (parts ++ more) u env =
      (matchingParts r (tagIn tags) parts u env).bind fun env =>
        matchingParts r (tagIn tags) more u env := by
  induction parts generalizing env with
  | nil => rfl
  | cons part parts ih =>
    obtain ⟨step, s⟩ := part
    simp only [List.cons_append, matchingParts, ih, Option.bind_assoc]

/-- Whatever the shape, settling its demands on a conforming value keeps in step with
matching it. -/
theorem reads_of_demands (hv : r.conforms v = true) {p : Path} {s : Shape} {ds : List Demand}
    (h : demands r declared p s = .ok ds) : Reads r tags v p s ds := by
  refine demands_induction (motive := Reads r tags v) ?discard reads_literal ?var ?sequence ?map
    ?construct ?constructWith h
  case discard => exact fun p u b env hu ht => ⟨rfl, ht⟩
  case var => exact fun p x _ => reads_var p x
  case sequence => exact fun p kind items ds _ hbelow => reads_sequence hbelow
  case map => exact fun p entries ds _ hbelow => reads_map hbelow
  case construct =>
    intro p t args ctor parts ds _ hargs hbelow
    refine reads_instance hv hargs.steps hbelow (fun name fields env => ?_) (fun u env hu => ?_)
    · rw [matching, ← matchingArgs_eq_parts hargs]
      simp [Value.instance?]
    · rw [matching]
      cases ho : u.instance? with
      | none => rfl
      | some o => exact if_neg (type_ne_of_admits_eq_false hu ho)
  case constructWith =>
    intro p t args fields ctor parts more ds es _ hargs _ hfields hbelow hbelow'
    refine reads_instance hv (fun part hp => ?_) (hbelow.append hbelow')
      (fun name fields env => ?_) (fun u env hu => ?_)
    · rcases List.mem_append.mp hp with hp | hp
      · exact hargs.steps part hp
      · exact hfields.steps part hp
    · rw [matching, matchingParts_append, ← matchingArgs_eq_parts hargs]
      simp only [Value.instance?, if_true]
      cases matchingArgs r (tagIn tags) t args.length 0 args fields env with
      | none => rfl
      | some env' => exact matchingFields_eq_parts hfields
    · rw [matching]
      cases ho : u.instance? with
      | none => rfl
      | some o => exact if_neg (type_ne_of_admits_eq_false hu ho)

end Shape

namespace Clause

/-- A compiled clause accepts a conforming value exactly when the value has the shape of
the clause. -/
theorem accepts_eq_fits {α : Type} {c : Clause} {r : Registry} {limit : Nat} {body : Body α}
    {arm : Arm α} (h : c.compile r limit body = .ok arm) {v : Value}
    (hv : r.conforms v = true) : arm.accepts v = c.fits r body.tags v := by
  obtain ⟨hplan, -⟩ := compile_eq_ok h
  obtain ⟨assigned, ds, hcheck, -, hds, hguards, -⟩ := compilePlan_eq_ok hplan
  obtain ⟨-, -, -, htags⟩ := checkParams_eq_ok hcheck
  have hread : tagIn assigned = c.tagFor body.tags := funext (lookup_paramTags htags)
  have hagrees : Agrees v (settle assigned Bindings.empty ds)
      (c.shape.matching r (tagIn assigned) v []) :=
    Shape.reads_of_demands hv hds v Bindings.empty [] (Path.resolve_nil v) fun _ => rfl
  rw [Plan.accepts_eq_all_holds, hguards, fits, ← hread]
  cases hm : c.shape.matching r (tagIn assigned) v [] with
  | none =>
    rw [hm] at hagrees
    exact hagrees
  | some env =>
    rw [hm] at hagrees
    exact hagrees.1

/-- A list of a point and, once more, its first coordinate. -/
def abscissaClause : Clause :=
  .ofParams ["a"] (.sequence .list [.construct ⟨0⟩ [.var "a", .discard], .var "a"])

def points : Registry := ⟨[⟨"Point", ["x", "y"], [⟨[.mapped "x", .mapped "y"]⟩]⟩]⟩

def echo : Body Value := ⟨"echo", [.value], fun | .cons v _ => v⟩

def abscissaArm : Arm Value where
  guards := [.typeIs [] .list, .countIs [] 2, .typeIs [.item 0] (.object ⟨0⟩),
    .sameValue [.item 0, .field 0 "x"] [.item 1]]
  bindings := [("a", [.item 0, .field 0 "x"])]
  body := echo

def pointAndValue (w : Value) : Value := .list [.object ⟨0⟩ "Point" [.int 3, .float .nan], w]

theorem accepts_eq_fits_abscissa :
    abscissaClause.compile points 3 echo = .ok abscissaArm ∧
      points.conforms (pointAndValue (.int 3)) = true ∧
      abscissaArm.accepts (pointAndValue (.int 3)) = true ∧
      abscissaArm.accepts (pointAndValue (.int 3)) =
        abscissaClause.fits points echo.tags (pointAndValue (.int 3)) ∧
      abscissaArm.accepts (pointAndValue (.int 4)) = false ∧
      abscissaArm.accepts (pointAndValue (.int 4)) =
        abscissaClause.fits points echo.tags (pointAndValue (.int 4)) := by
  have h : abscissaClause.compile points 3 echo = .ok abscissaArm := rfl
  exact ⟨h, by decide, by decide, accepts_eq_fits h (by decide), by decide,
    accepts_eq_fits h (by decide)⟩

end Clause
end Destructure
