/-
Clauses with their variables renamed.

A clause that is renamed goes through the stages of compiling as it did before.  Every table on
the way has its names renamed and nothing else changed, and every error names the new variable
in place of the old one.  This takes no more than that the names of the clause stay apart: only
then does a renamed table answer for the new name what the table answered for the old one.

A registry knows of no variables.  The errors of its lookups therefore stay as they are.
-/
import Mathlib.Data.Set.Operations
import Destructure.Proofs.Clause.Parallel
import Destructure.Proofs.Clause.Stages

namespace Destructure

/-! ## Renamed tables -/

section Tables

variable {σ : String → String} {names : List String} {β : Type}

theorem renameKeys_zip (σ : String → String) (xs : List String) (bs : List β) :
    renameKeys σ (xs.zip bs) = (xs.map σ).zip bs := by
  rw [List.zip_map_left]
  rfl

variable (hσ : Set.InjOn σ {x | x ∈ names})
include hσ

theorem mem_map_name_iff {xs : List String} (hxs : xs ⊆ names) {x : String} (hx : x ∈ names) :
    σ x ∈ xs.map σ ↔ x ∈ xs := by
  constructor
  · intro h
    obtain ⟨y, hy, hxy⟩ := List.mem_map.mp h
    rwa [← hσ (hxs hy) hx hxy]
  · exact List.mem_map_of_mem

theorem lookup_renameKeys {es : List (String × β)} (hes : es.map (·.1) ⊆ names) {x : String}
    (hx : x ∈ names) : (renameKeys σ es).lookup (σ x) = es.lookup x := by
  induction es with
  | nil => rfl
  | cons e es ih =>
    rw [List.map_cons, List.cons_subset] at hes
    obtain ⟨he, hes⟩ := hes
    show List.lookup (σ x) ((σ e.1, e.2) :: renameKeys σ es) = _
    rw [List.lookup_cons, List.lookup_cons, ih hes]
    by_cases hxe : x = e.1
    · rw [hxe, beq_self_eq_true, beq_self_eq_true]
    · rw [beq_false_of_ne hxe, beq_false_of_ne (fun h => hxe (hσ hx he h))]

/-- The first name that is not on a list, with what the table has for it. -/
theorem find?_renameKeys {xs : List String} (hxs : xs ⊆ names) {es : List (String × β)}
    (hes : es.map (·.1) ⊆ names) :
    (renameKeys σ es).find? (·.1 ∉ xs.map σ) =
      (es.find? (·.1 ∉ xs)).map fun e => (σ e.1, e.2) := by
  induction es with
  | nil => rfl
  | cons e es ih =>
    rw [List.map_cons, List.cons_subset] at hes
    obtain ⟨he, hes⟩ := hes
    have hname : σ e.1 ∈ xs.map σ ↔ e.1 ∈ xs := mem_map_name_iff hσ hxs he
    show List.find? _ ((σ e.1, e.2) :: renameKeys σ es) = _
    by_cases hmem : e.1 ∈ xs
    · rw [List.find?_cons_of_neg (by simpa using hname.mpr hmem),
        List.find?_cons_of_neg (by simpa using hmem), ih hes]
    · rw [List.find?_cons_of_pos (by simpa using mt hname.mp hmem),
        List.find?_cons_of_pos (by simpa using hmem)]
      rfl

theorem firstRepeated_map {xs : List String} (hxs : xs ⊆ names) :
    firstRepeated (xs.map σ) = (firstRepeated xs).map σ := by
  have hafter : ∀ seen, seen ⊆ names →
      repeatedAfter (seen.map σ) (xs.map σ) = (repeatedAfter seen xs).map σ := by
    induction xs with
    | nil => exact fun seen _ => rfl
    | cons x xs ih =>
      intro seen hseen
      obtain ⟨hx, hxs⟩ := List.cons_subset.mp hxs
      have hrest := ih hxs (x :: seen) (List.cons_subset.mpr ⟨hx, hseen⟩)
      rw [List.map_cons, repeatedAfter, repeatedAfter]
      simp only [mem_map_name_iff hσ hseen hx]
      by_cases hmem : x ∈ seen
      · rw [if_pos hmem, if_pos hmem]
        rfl
      · rw [if_neg hmem, if_neg hmem]
        exact hrest
  exact hafter [] (List.nil_subset _)

end Tables

/-! ## Renamed results -/

/-- The result of a stage on a renamed clause: what the stage makes is changed along `f`, and an
error is renamed. -/
def renameResult {β γ : Type} (σ : String → String) (f : β → γ) :
    Except ClauseError β → Except ClauseError γ
  | .ok b => .ok (f b)
  | .error e => .error (e.rename σ)

section Results

variable {σ : String → String} {β β' γ γ' : Type} {f : β → β'} {g : γ → γ'}

theorem renameResult_bind {x : Except ClauseError β} {k : β → Except ClauseError γ}
    {k' : β' → Except ClauseError γ'} (h : ∀ b, x = .ok b → k' (f b) = renameResult σ g (k b)) :
    (renameResult σ f x).bind k' = renameResult σ g (x.bind k) := by
  cases x with
  | error e => rfl
  | ok b => exact h b rfl

theorem renameResult_map {x : Except ClauseError β} {h : β → γ} {h' : β' → γ'}
    (hh : ∀ b, h' (f b) = g (h b)) :
    (renameResult σ f x).map h' = renameResult σ g (x.map h) := by
  cases x with
  | error e => rfl
  | ok b => exact congrArg _ (hh b)

theorem exists_renameResult_eq_ok_iff {x : Except ClauseError β} :
    (∃ b', renameResult σ f x = .ok b') ↔ ∃ b, x = .ok b := by
  cases x with
  | error e => simp [renameResult]
  | ok b => simp [renameResult]

/-- There is no error that names a variable. -/
def NamesNoVariable (x : Except ClauseError β) : Prop := ∀ σ e, x = .error e → e.rename σ = e

theorem NamesNoVariable.ok (b : β) : NamesNoVariable (.ok b) := nofun

theorem NamesNoVariable.error {e : ClauseError} (h : ∀ σ, e.rename σ = e) :
    NamesNoVariable (.error e : Except ClauseError β) := by
  intro σ e' he
  cases he
  exact h σ

theorem NamesNoVariable.bind {x : Except ClauseError β} {k : β → Except ClauseError γ}
    (hx : NamesNoVariable x) (hk : ∀ b, NamesNoVariable (k b)) : NamesNoVariable (x.bind k) := by
  cases x with
  | error e => exact .error fun σ => hx σ e rfl
  | ok b => exact hk b

end Results

namespace Registry

variable (r : Registry) (t : TypeId)

theorem typeDecl_namesNoVariable : NamesNoVariable (r.typeDecl t) := by
  intro σ e he
  rw [(typeDecl_eq_error he).2]
  rfl

theorem constructor_namesNoVariable (arity : Nat) : NamesNoVariable (r.constructor t arity) := by
  rw [constructor_eq_bind]
  refine (r.typeDecl_namesNoVariable t).bind fun d => ?_
  cases d.constructor? arity with
  | none => exact .error fun σ => rfl
  | some c => exact .ok c

theorem field_namesNoVariable (name : String) : NamesNoVariable (r.field t name) := by
  rw [field_eq_bind]
  refine (r.typeDecl_namesNoVariable t).bind fun d => ?_
  cases d.fieldIndex? name with
  | none => exact .error fun σ => rfl
  | some i => exact .ok _

theorem argField_namesNoVariable (arity i : Nat) : NamesNoVariable (r.argField t arity i) := by
  rw [argField_eq_bind]
  refine (r.typeDecl_namesNoVariable t).bind fun d =>
    (r.constructor_namesNoVariable t arity).bind fun c => ?_
  cases c.params[i]? with
  | none => exact .error fun σ => rfl
  | some param =>
    obtain ⟨label, field?⟩ := param
    cases field? with
    | none => exact .error fun σ => rfl
    | some name => exact r.field_namesNoVariable t name

end Registry

/-! ## Shapes -/

def Demand.rename (σ : String → String) : Demand → Demand
  | guard g => guard g
  | occurs x p => occurs (σ x) p

theorem Demand.map_rename_guards (σ : String → String) (gs : List Guard) :
    (gs.map Demand.guard).map (Demand.rename σ) = gs.map .guard := by
  rw [List.map_map]
  rfl

namespace Shape

variable {σ : String → String} {names : List String} {r : Registry} {declared : List String}
  {s : Shape}

theorem depthItems_rename {ss : List Shape} (h : ∀ s ∈ ss, (s.rename σ).depth = s.depth) :
    depthItems (renameItems σ ss) = depthItems ss := by
  induction ss with
  | nil => rfl
  | cons s ss ih =>
    obtain ⟨hs, hss⟩ := List.forall_mem_cons.mp h
    rw [renameItems, depthItems, depthItems, hs, ih hss]

theorem depthEntries_rename {es : List (String × Shape)}
    (h : ∀ e ∈ es, (e.2.rename σ).depth = e.2.depth) :
    depthEntries (renameEntries σ es) = depthEntries es := by
  induction es with
  | nil => rfl
  | cons e es ih =>
    obtain ⟨he, hes⟩ := List.forall_mem_cons.mp h
    rw [renameEntries, depthEntries, depthEntries, he, ih hes]

theorem depth_rename (σ : String → String) (s : Shape) : (s.rename σ).depth = s.depth := by
  induction s with
  | discard | literal v | var x => rfl
  | sequence kind items ih => rw [rename, depth, depth, depthItems_rename ih]
  | map entries ih => rw [rename, depth, depth, depthEntries_rename ih]
  | construct t args ih => rw [rename, depth, depth, depthItems_rename ih]
  | constructWith t args fields iha ihf =>
    rw [rename, depth, depth, depthItems_rename iha, depthEntries_rename ihf]

/-- What a renamed shape demands, for renamed variables. -/
theorem demands_renamed (hσ : Set.InjOn σ {x | x ∈ names}) (hdeclared : declared ⊆ names)
    (hs : s.mentions ⊆ names) (p : Path) :
    demands r (declared.map σ) p (s.rename σ) =
      renameResult σ (List.map (Demand.rename σ)) (demands r declared p s) := by
  have hfollow : ∀ {β : Type} {x : Except ClauseError β}, NamesNoVariable x →
      Follow (fun l l' => l' = renameResult σ (List.map (Demand.rename σ)) l) x x :=
    fun hx => .same fun e he => congrArg Except.error (hx σ e he).symm
  have hparallel : Parallel σ names r r declared (declared.map σ)
      (fun l l' => l' = renameResult σ (List.map (Demand.rename σ)) l) :=
    { guards := fun gs => congrArg Except.ok (Demand.map_rename_guards σ gs).symm
      repeatedKey := fun key => rfl
      tooLong := rfl
      repeatedField := fun name => rfl
      andThen := fun {x x' y y'} hx hy => by
        rw [hx, hy, andThen_eq_bind, andThen_eq_bind]
        refine renameResult_bind fun ds _ => renameResult_bind fun es _ => ?_
        rw [renameResult, List.map_append]
      constructor := fun t arity => hfollow (r.constructor_namesNoVariable t arity)
      argField := fun t arity i => hfollow (r.argField_namesNoVariable t arity i)
      field := fun t name => hfollow (r.field_namesNoVariable t name)
      var := fun x hx p => by
        rw [demands, demands]
        simp only [mem_map_name_iff hσ hdeclared hx]
        by_cases hmem : x ∈ declared
        · rw [if_pos hmem, if_pos hmem]
          rfl
        · rw [if_neg hmem, if_neg hmem]
          rfl }
  exact hparallel.demands_rename hs p

end Shape

/-! ## Settling -/

def Bindings.rename (σ : String → String) (b : Bindings) : Bindings := ⟨renameKeys σ b.entries⟩

section Settle

variable {σ : String → String} {names : List String} {tags : List (String × Tag)} {b : Bindings}
  {x : String}

theorem Bindings.names_bind (hb : b.entries.map (·.1) ⊆ names) (hx : x ∈ names) (p : Path) :
    (b.bind x p).2.entries.map (·.1) ⊆ names := by
  cases hbound : b.find? x with
  | some first =>
    rw [bind_of_find? hbound]
    exact hb
  | none =>
    rw [bind_of_not_bound hbound, List.map_append]
    exact List.append_subset.mpr ⟨hb, List.cons_subset.mpr ⟨hx, List.nil_subset _⟩⟩

/-- No names are bound but those that occur. -/
theorem names_settle {ds : List Demand} (hds : (Demand.occurrences ds).map (·.1) ⊆ names)
    (hb : b.entries.map (·.1) ⊆ names) : (settle tags b ds).2.entries.map (·.1) ⊆ names := by
  induction ds generalizing b with
  | nil => exact hb
  | cons d ds ih =>
    cases d with
    | guard g => exact ih hds hb
    | occurs x p =>
      rw [Demand.occurrences, List.map_cons, List.cons_subset] at hds
      obtain ⟨hx, hds⟩ := hds
      cases hbound : b.find? x with
      | some first =>
        rw [settle_repeated hbound]
        exact ih hds hb
      | none =>
        rw [settle_fresh hbound]
        exact ih hds (Bindings.names_bind hb hx p)

variable (hσ : Set.InjOn σ {x | x ∈ names})
include hσ

theorem Bindings.find?_rename (hb : b.entries.map (·.1) ⊆ names) (hx : x ∈ names) :
    (b.rename σ).find? (σ x) = b.find? x :=
  lookup_renameKeys hσ hb hx

/-- An occurrence of a renamed variable binds it as it did before. -/
theorem Bindings.bind_rename (hb : b.entries.map (·.1) ⊆ names) (hx : x ∈ names) (p : Path) :
    (b.rename σ).bind (σ x) p = ((b.bind x p).1, (b.bind x p).2.rename σ) := by
  have hfind : (b.rename σ).find? (σ x) = b.find? x := find?_rename hσ hb hx
  cases hbound : b.find? x with
  | some first => rw [bind_of_find? hbound, bind_of_find? (hfind.trans hbound)]
  | none =>
    rw [bind_of_not_bound hbound, bind_of_not_bound (hfind.trans hbound)]
    simp only [Bindings.rename, renameKeys, List.map_append, List.map_singleton]

/-- Demands are settled under renamed variables as before. -/
theorem settle_rename (htags : tags.map (·.1) ⊆ names) {ds : List Demand}
    (hds : (Demand.occurrences ds).map (·.1) ⊆ names) (hb : b.entries.map (·.1) ⊆ names) :
    settle (renameKeys σ tags) (b.rename σ) (ds.map (Demand.rename σ)) =
      ((settle tags b ds).1, (settle tags b ds).2.rename σ) := by
  induction ds generalizing b with
  | nil => rfl
  | cons d ds ih =>
    cases d with
    | guard g => rw [List.map_cons, Demand.rename, settle, settle, ih hds hb]
    | occurs x p =>
      rw [Demand.occurrences, List.map_cons, List.cons_subset] at hds
      obtain ⟨hx, hds⟩ := hds
      have hfind : (b.rename σ).find? (σ x) = b.find? x := Bindings.find?_rename hσ hb hx
      rw [List.map_cons, Demand.rename]
      cases hbound : b.find? x with
      | some first =>
        rw [settle_repeated hbound, settle_repeated (hfind.trans hbound), ih hds hb]
      | none =>
        have htag : tagIn (renameKeys σ tags) (σ x) = tagIn tags x :=
          congrArg (·.getD .any) (lookup_renameKeys hσ htags hx)
        rw [settle_fresh hbound, settle_fresh (hfind.trans hbound), htag,
          Bindings.bind_rename hσ hb hx, ih hds (Bindings.names_bind hb hx p)]

theorem Bindings.forParams_rename {params : List String} (hparams : params ⊆ names)
    (hb : b.entries.map (·.1) ⊆ names) :
    (b.rename σ).forParams (params.map σ) = renameResult σ (renameKeys σ) (b.forParams params) := by
  induction params with
  | nil => rfl
  | cons x params ih =>
    obtain ⟨hx, hparams⟩ := List.cons_subset.mp hparams
    rw [List.map_cons, forParams, forParams, find?_rename hσ hb hx]
    cases b.find? x with
    | none => rfl
    | some p =>
      rw [ih hparams]
      exact renameResult_map fun rest => rfl

end Settle

/-! ## Parameters -/

namespace Clause

variable {σ : String → String} {c : Clause} {r : Registry} {limit : Nat} {tags : List Tag}

theorem params_subset_names (c : Clause) : c.params ⊆ c.names := fun _ hx =>
  List.mem_append_left _ (List.mem_append_left _ hx)

theorem types_subset_names (c : Clause) : c.types.map (·.1) ⊆ c.names := fun _ hx =>
  List.mem_append_left _ (List.mem_append_right _ hx)

theorem mentions_subset_names (c : Clause) : c.shape.mentions ⊆ c.names := fun _ hx =>
  List.mem_append_right _ hx

theorem paramTags_cons_eq_bind (name : String) (body : Tag) (rest : List (String × Tag)) :
    c.paramTags ((name, body) :: rest) = (c.paramTag name body).bind fun tag =>
      (c.paramTags rest).map ((name, tag) :: ·) := by
  rw [paramTags]
  cases c.paramTag name body <;> rfl

theorem map_fst_of_paramTags {given assigned : List (String × Tag)}
    (h : c.paramTags given = .ok assigned) : assigned.map (·.1) = given.map (·.1) := by
  induction given generalizing assigned with
  | nil =>
    cases h
    rfl
  | cons g given ih =>
    obtain ⟨tag, more, -, hmore, rfl⟩ := paramTags_cons_eq_ok h
    rw [List.map_cons, List.map_cons, ih hmore]

/-- Tags are assigned to parameters only. -/
theorem names_of_checkParams {assigned : List (String × Tag)}
    (h : c.checkParams tags = .ok assigned) : assigned.map (·.1) ⊆ c.names := by
  obtain ⟨-, harity, -, htags⟩ := checkParams_eq_ok h
  rw [map_fst_of_paramTags htags, List.map_fst_zip (by omega)]
  exact c.params_subset_names

section Rename

variable (hσ : Set.InjOn σ {x | x ∈ c.names})
include hσ

theorem paramTag_rename {x : String} (hx : x ∈ c.names) (body : Tag) :
    (c.rename σ).paramTag (σ x) body = renameResult σ id (c.paramTag x body) := by
  have htype : (c.rename σ).type? (σ x) = c.type? x :=
    lookup_renameKeys hσ c.types_subset_names hx
  rw [paramTag, paramTag, htype]
  cases c.type? x with
  | none => rfl
  | some declared =>
    dsimp only
    cases declared.narrow body <;> rfl

theorem paramTags_rename {given : List (String × Tag)} (hgiven : given.map (·.1) ⊆ c.names) :
    (c.rename σ).paramTags (renameKeys σ given) =
      renameResult σ (renameKeys σ) (c.paramTags given) := by
  induction given with
  | nil => rfl
  | cons g given ih =>
    obtain ⟨name, body⟩ := g
    rw [List.map_cons, List.cons_subset] at hgiven
    obtain ⟨hname, hgiven⟩ := hgiven
    show (c.rename σ).paramTags ((σ name, body) :: renameKeys σ given) = _
    rw [paramTags_cons_eq_bind, paramTags_cons_eq_bind, paramTag_rename hσ hname, ih hgiven]
    exact renameResult_bind fun tag _ => renameResult_map fun more => rfl

theorem checkParams_rename (tags : List Tag) :
    (c.rename σ).checkParams tags = renameResult σ (renameKeys σ) (c.checkParams tags) := by
  have hparams : (c.rename σ).params = c.params.map σ := rfl
  have htypes : (c.rename σ).types = renameKeys σ c.types := rfl
  rw [checkParams, checkParams, hparams, htypes, firstRepeated_map hσ c.params_subset_names,
    find?_renameKeys hσ c.params_subset_names c.types_subset_names, List.length_map,
    ← renameKeys_zip]
  cases firstRepeated c.params with
  | some name => rfl
  | none =>
    dsimp only [Option.map_none]
    by_cases harity : tags.length ≠ c.params.length
    · rw [if_pos harity, if_pos harity]
      rfl
    · rw [if_neg harity, if_neg harity]
      cases c.types.find? (·.1 ∉ c.params) with
      | some d => rfl
      | none =>
        refine paramTags_rename hσ ?_
        rw [List.map_fst_zip (by omega)]
        exact c.params_subset_names

/-! ## Clauses -/

theorem plan_rename {assigned : List (String × Tag)} (hassigned : assigned.map (·.1) ⊆ c.names) :
    (c.rename σ).plan r (renameKeys σ assigned) =
      renameResult σ (Plan.rename σ) (c.plan r assigned) := by
  have hdemands : (c.rename σ).shape.demands r (c.rename σ).params Path.root =
      renameResult σ (List.map (Demand.rename σ)) (c.shape.demands r c.params Path.root) :=
    Shape.demands_renamed hσ c.params_subset_names c.mentions_subset_names Path.root
  rw [plan_eq_bind, plan_eq_bind, hdemands]
  refine renameResult_bind fun ds hds => ?_
  have hoccurs : (Demand.occurrences ds).map (·.1) ⊆ c.names := by
    rw [Shape.demands_mentioned hds]
    exact c.mentions_subset_names
  have hempty : Bindings.empty.entries.map (·.1) ⊆ c.names := List.nil_subset _
  have hsettle : settle (renameKeys σ assigned) Bindings.empty (ds.map (Demand.rename σ)) =
      ((settle assigned Bindings.empty ds).1, (settle assigned Bindings.empty ds).2.rename σ) :=
    settle_rename hσ hassigned hoccurs hempty
  rw [hsettle]
  show (((settle assigned Bindings.empty ds).2.rename σ).forParams (c.params.map σ)).map _ = _
  rw [Bindings.forParams_rename hσ c.params_subset_names (names_settle hoccurs hempty)]
  exact renameResult_map fun bindings => rfl

theorem compilePlan_rename (r : Registry) (limit : Nat) (tags : List Tag) :
    (c.rename σ).compilePlan r limit tags =
      renameResult σ (Plan.rename σ) (c.compilePlan r limit tags) := by
  have hdepth : (c.rename σ).shape.depth = c.shape.depth := Shape.depth_rename σ c.shape
  rw [compilePlan_eq_bind, compilePlan_eq_bind, checkParams_rename hσ, hdepth]
  refine renameResult_bind fun assigned hassigned => ?_
  by_cases hdeep : limit < c.shape.depth
  · rw [if_pos hdeep, if_pos hdeep]
    rfl
  · rw [if_neg hdeep, if_neg hdeep]
    exact plan_rename hσ (names_of_checkParams hassigned)

/-- A renamed clause compiles to the renamed plan, with the same guards, or is rejected with the
renamed error. -/
theorem compile_rename {α : Type} (r : Registry) (limit : Nat) (body : Body α) :
    (c.rename σ).compile r limit body =
      renameResult σ (fun arm => ⟨arm.toPlan.rename σ, arm.body⟩) (c.compile r limit body) := by
  rw [compile, compile, compilePlan_rename hσ]
  exact renameResult_map fun plan => rfl

end Rename

end Clause

end Destructure
