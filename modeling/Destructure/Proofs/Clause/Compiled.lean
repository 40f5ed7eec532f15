/-
What a compiled clause is made of.

Compiling goes through three stages.  Every parameter gets its tag, the shape is
turned into demands, and the demands are settled.  Each stage is described here by
what it leaves behind when it succeeds: `compilePlan_eq_ok` takes a plan apart into
its tags and demands, `settle_append` says that settling goes through the demands
from left to right, and `find?_settle` that a variable is bound where it occurs
first.
-/
import Destructure.Clause.Compile
import Destructure.Clause.Semantics

namespace Destructure

theorem map_eq_ok {ε β γ : Type} {f : β → γ} {x : Except ε β} {c : γ} (h : x.map f = .ok c) :
    ∃ b, x = .ok b ∧ f b = c := by
  cases x with
  | error e => cases h
  | ok b => exact ⟨b, rfl, Except.ok.inj h⟩

theorem map_eq_error {ε β γ : Type} {f : β → γ} {x : Except ε β} {e : ε}
    (h : x.map f = .error e) : x = .error e := by
  cases x with
  | error e' => exact congrArg _ (Except.error.inj h)
  | ok b => cases h

/-! ## Tags of parameters -/

/-- The tag assigned to a variable; one without a tag may have any value. -/
abbrev tagIn (tags : List (String × Tag)) (x : String) : Tag := (tags.lookup x).getD .any

namespace Clause

variable {c : Clause}

theorem paramTags_cons_eq_ok {name : String} {body : Tag} {rest assigned : List (String × Tag)}
    (h : c.paramTags ((name, body) :: rest) = .ok assigned) :
    ∃ tag more, c.paramTag name body = .ok tag ∧ c.paramTags rest = .ok more ∧
      assigned = (name, tag) :: more := by
  rw [paramTags] at h
  cases htag : c.paramTag name body with
  | error e => simp [htag] at h
  | ok tag =>
    simp only [htag] at h
    obtain ⟨more, hmore, hassigned⟩ := map_eq_ok h
    exact ⟨tag, more, rfl, hmore, hassigned.symm⟩

theorem paramTag_eq_ok {name : String} {body tag : Tag} (h : c.paramTag name body = .ok tag) :
    (c.type? name = none ∧ tag = body) ∨
      ∃ declared, c.type? name = some declared ∧ declared.narrow body = some tag := by
  unfold paramTag at h
  cases ht : c.type? name with
  | none =>
    simp only [ht, Except.ok.injEq] at h
    exact .inl ⟨rfl, h.symm⟩
  | some declared =>
    cases hn : declared.narrow body with
    | none => simp [ht, hn] at h
    | some tag' =>
      simp only [ht, hn, Except.ok.injEq] at h
      exact .inr ⟨declared, rfl, h ▸ hn⟩

/-- The tags that are assigned are those that the direct reading of the clause gives to
its variables. -/
theorem lookup_paramTags {tags : List Tag} {assigned : List (String × Tag)}
    (h : c.paramTags (c.params.zip tags) = .ok assigned) (x : String) :
    tagIn assigned x = c.tagFor tags x := by
  unfold tagIn tagFor
  generalize c.params.zip tags = given at h ⊢
  induction given generalizing assigned with
  | nil =>
    cases h
    rfl
  | cons g given ih =>
    obtain ⟨name, body⟩ := g
    obtain ⟨tag, more, htag, hmore, rfl⟩ := paramTags_cons_eq_ok h
    by_cases hx : x = name
    · subst hx
      rcases paramTag_eq_ok htag with ⟨ht, rfl⟩ | ⟨declared, ht, hn⟩
      · simp [ht]
      · simp [ht, hn]
    · simp only [List.lookup_cons, beq_false_of_ne hx]
      exact ih hmore

/-- The tag assigned to a parameter comes from the entry of that parameter. -/
theorem paramTag_of_mem {given assigned : List (String × Tag)}
    (h : c.paramTags given = .ok assigned) (hkeys : (given.map (·.1)).Nodup) {x : String}
    {body : Tag} (hx : (x, body) ∈ given) : c.paramTag x body = .ok (tagIn assigned x) := by
  induction given generalizing assigned with
  | nil => exact absurd hx List.not_mem_nil
  | cons g given ih =>
    obtain ⟨tag, more, htag, hmore, rfl⟩ := paramTags_cons_eq_ok h
    rw [List.map_cons, List.nodup_cons] at hkeys
    rcases List.mem_cons.mp hx with rfl | hx
    · simpa [tagIn] using htag
    · have hne : x ≠ g.1 := fun heq =>
        hkeys.1 (List.mem_map.mpr ⟨(x, body), hx, heq⟩)
      rw [tagIn, List.lookup_cons, beq_false_of_ne hne]
      exact ih hmore hkeys.2 hx

theorem checkParams_eq_ok {tags : List Tag} {assigned : List (String × Tag)}
    (h : c.checkParams tags = .ok assigned) :
    c.params.Nodup ∧ tags.length = c.params.length ∧ (∀ d ∈ c.types, d.1 ∈ c.params) ∧
      c.paramTags (c.params.zip tags) = .ok assigned := by
  unfold checkParams at h
  split at h
  · cases h
  · split at h
    · cases h
    · split at h
      · cases h
      · refine ⟨firstRepeated_eq_none_iff.mp ‹_›, by omega, fun d hd => ?_, h⟩
        have hnone := List.find?_eq_none.mp ‹_› d hd
        simpa using hnone

end Clause

/-! ## Settling -/

/-- The occurrences of variables among demands, in order. -/
def Demand.occurrences : List Demand → List (String × Path)
  | [] => []
  | .guard _ :: ds => occurrences ds
  | .occurs x p :: ds => (x, p) :: occurrences ds

theorem Demand.occurrences_append (ds es : List Demand) :
    occurrences (ds ++ es) = occurrences ds ++ occurrences es := by
  induction ds with
  | nil => rfl
  | cons d ds ih => cases d <;> simp [occurrences, ih]

theorem Demand.occurrences_guards (gs : List Guard) : occurrences (gs.map .guard) = [] := by
  induction gs with
  | nil => rfl
  | cons g gs ih => simpa [occurrences] using ih

section Settle

variable {tags : List (String × Tag)} {b : Bindings} {x : String} {p : Path} {ds : List Demand}

theorem settle_fresh (h : b.find? x = none) :
    settle tags b (.occurs x p :: ds) =
      (tagGuards (tagIn tags x) p ++ (settle tags (b.bind x p).2 ds).1,
        (settle tags (b.bind x p).2 ds).2) := by
  simp only [settle, Bindings.bind_of_not_bound h]

theorem settle_repeated {first : Path} (h : b.find? x = some first) :
    settle tags b (.occurs x p :: ds) =
      (.sameValue first p :: (settle tags b ds).1, (settle tags b ds).2) := by
  simp only [settle, Bindings.bind_of_find? h]

/-- Demands are settled from left to right, with the bindings handed on. -/
theorem settle_append (tags : List (String × Tag)) (b : Bindings) (ds es : List Demand) :
    settle tags b (ds ++ es) =
      ((settle tags b ds).1 ++ (settle tags (settle tags b ds).2 es).1,
        (settle tags (settle tags b ds).2 es).2) := by
  induction ds generalizing b with
  | nil => rfl
  | cons d ds ih =>
    cases d with
    | guard g => simp only [List.cons_append, settle, ih]
    | occurs x p =>
      cases h : b.find? x with
      | none => simp only [List.cons_append, settle_fresh h, ih, List.append_assoc]
      | some first => simp only [List.cons_append, settle_repeated h, ih]

theorem settle_guards (gs : List Guard) (es : List Demand) :
    settle tags b (gs.map .guard ++ es) = (gs ++ (settle tags b es).1, (settle tags b es).2) := by
  induction gs with
  | nil => rfl
  | cons g gs ih => simp only [List.map_cons, List.cons_append, settle, ih]

/-- A variable keeps the path it had, and is otherwise bound where it occurs first. -/
theorem find?_settle (tags : List (String × Tag)) (b : Bindings) (ds : List Demand) (x : String) :
    (settle tags b ds).2.find? x = (b.find? x).or ((Demand.occurrences ds).lookup x) := by
  induction ds generalizing b with
  | nil => simp [settle, Demand.occurrences]
  | cons d ds ih =>
    cases d with
    | guard g => exact ih b
    | occurs y p =>
      rw [Demand.occurrences, List.lookup_cons]
      cases h : b.find? y with
      | none =>
        rw [settle_fresh h, ih, Bindings.find?_bind]
        by_cases hx : x = y
        · simp [hx, h]
        · simp [hx, beq_false_of_ne hx]
      | some first =>
        rw [settle_repeated h, ih]
        by_cases hx : x = y
        · simp [hx, h]
        · simp [beq_false_of_ne hx]

end Settle

/-- What holds of the paths of all variables and of the path that another one is bound at
holds after binding it. -/
theorem Bindings.forall_find?_bind {P : Path → Prop} {b : Bindings} {name : String} {path : Path}
    (hb : ∀ x p, b.find? x = some p → P p) (hpath : P path) :
    ∀ x p, (b.bind name path).2.find? x = some p → P p := by
  intro x p hp
  rw [find?_bind] at hp
  cases hx : b.find? x with
  | some first =>
    rw [hx, Option.some_or, Option.some.injEq] at hp
    exact hp ▸ hb x first hx
  | none =>
    rw [hx, Option.none_or] at hp
    split at hp
    · exact Option.some.inj hp ▸ hpath
    · cases hp

/-! ## Plans -/

theorem Bindings.forParams_eq_ok {b : Bindings} {params : List String}
    {bindings : List (String × Path)} (h : b.forParams params = .ok bindings) :
    bindings.map (·.1) = params ∧ ∀ e ∈ bindings, b.find? e.1 = some e.2 := by
  induction params generalizing bindings with
  | nil =>
    cases h
    exact ⟨rfl, fun e he => absurd he List.not_mem_nil⟩
  | cons name rest ih =>
    rw [forParams] at h
    cases hp : b.find? name with
    | none => simp [hp] at h
    | some p =>
      simp only [hp] at h
      obtain ⟨more, hmore, rfl⟩ := map_eq_ok h
      obtain ⟨hnames, hpaths⟩ := ih hmore
      refine ⟨by rw [List.map_cons, hnames], fun e he => ?_⟩
      rcases List.mem_cons.mp he with rfl | he
      · exact hp
      · exact hpaths e he

namespace Clause

theorem plan_eq_bind (c : Clause) (r : Registry) (assigned : List (String × Tag)) :
    c.plan r assigned = (c.shape.demands r c.params Path.root).bind fun ds =>
      ((settle assigned Bindings.empty ds).2.forParams c.params).map fun bindings =>
        ⟨(settle assigned Bindings.empty ds).1, bindings⟩ := by
  rw [plan]
  cases c.shape.demands r c.params Path.root <;> rfl

theorem compilePlan_eq_bind (c : Clause) (r : Registry) (limit : Nat) (tags : List Tag) :
    c.compilePlan r limit tags = (c.checkParams tags).bind fun assigned =>
      if limit < c.shape.depth then .error (.tooDeep limit) else c.plan r assigned := by
  rw [compilePlan]
  cases c.checkParams tags <;> rfl

/-- A plan consists of what settling the demands of the shape leaves behind. -/
theorem compilePlan_eq_ok {c : Clause} {r : Registry} {limit : Nat} {tags : List Tag} {plan : Plan}
    (h : c.compilePlan r limit tags = .ok plan) :
    ∃ assigned ds, c.checkParams tags = .ok assigned ∧ c.shape.depth ≤ limit ∧
      c.shape.demands r c.params Path.root = .ok ds ∧
      plan.guards = (settle assigned Bindings.empty ds).1 ∧
      (settle assigned Bindings.empty ds).2.forParams c.params = .ok plan.bindings := by
  unfold compilePlan at h
  cases hcheck : c.checkParams tags with
  | error e => simp [hcheck] at h
  | ok assigned =>
    simp only [hcheck] at h
    split at h
    · cases h
    · unfold Clause.plan at h
      cases hds : c.shape.demands r c.params Path.root with
      | error e => simp [hds] at h
      | ok ds =>
        simp only [hds] at h
        obtain ⟨bindings, hbindings, rfl⟩ := map_eq_ok h
        exact ⟨assigned, ds, rfl, by omega, rfl, rfl, hbindings⟩

theorem compile_eq_ok {α : Type} {c : Clause} {r : Registry} {limit : Nat} {body : Body α}
    {arm : Arm α} (h : c.compile r limit body = .ok arm) :
    c.compilePlan r limit body.tags = .ok arm.toPlan ∧ arm.body = body := by
  obtain ⟨plan, hplan, rfl⟩ := map_eq_ok h
  exact ⟨hplan, rfl⟩

/-! ## Another shape -/

/-- The clause with the same parameters and another shape. -/
def withShape (c : Clause) (s : Shape) : Clause := { c with shape := s }

section WithShape

variable {c : Clause} {s s' : Shape} {r : Registry} {tags : List Tag}

theorem paramTags_withShape (given : List (String × Tag)) :
    (c.withShape s).paramTags given = c.paramTags given := by
  induction given with
  | nil => rfl
  | cons g given ih => rw [paramTags, paramTags, ih]; rfl

/-- The parameters are checked without the shape. -/
theorem checkParams_withShape : (c.withShape s).checkParams tags = c.checkParams tags := by
  unfold checkParams
  rw [paramTags_withShape]
  rfl

/-- Of a shape no more is compiled than its depth and its demands. -/
theorem compile_withShape_congr {α : Type} (hdepth : s.depth = s'.depth)
    (hdemands : s.demands r c.params Path.root = s'.demands r c.params Path.root) (limit : Nat)
    (body : Body α) :
    (c.withShape s).compile r limit body = (c.withShape s').compile r limit body := by
  have hplan : ∀ assigned, (c.withShape s).plan r assigned = (c.withShape s').plan r assigned := by
    intro assigned
    simp only [plan, withShape, hdemands]
  have hdepth' : (c.withShape s).shape.depth = (c.withShape s').shape.depth := hdepth
  rw [compile, compile, compilePlan, compilePlan, checkParams_withShape, checkParams_withShape,
    hdepth']
  simp only [hplan]

end WithShape

end Clause
end Destructure
