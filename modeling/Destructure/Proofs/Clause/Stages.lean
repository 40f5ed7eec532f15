/-
What it takes to compile, stage by stage.

The check of the parameters looks at names and tags and at nothing of the shape.  Past it,
the shape must be within the limit, it must have a layout, and it must mention every
parameter.  None of these later conditions sees a tag: the tags that the first stage assigns
decide which guards settling puts at first occurrences, not what is bound where.  Two clauses
with the same shape can thus be compared by their parameters and types alone.
-/
import Destructure.Proofs.Clause.Widening

namespace Destructure

/-! ## Tags in settling -/

section Settle

variable {tags tags' : List (String × Tag)}

/-- Where variables are bound does not depend on their tags. -/
theorem settle_snd_eq (tags tags' : List (String × Tag)) (b : Bindings) (ds : List Demand) :
    (settle tags b ds).2 = (settle tags' b ds).2 := by
  induction ds generalizing b with
  | nil => rfl
  | cons d ds ih =>
    cases d with
    | guard g => exact ih b
    | occurs x p =>
      cases h : b.find? x with
      | none =>
        rw [settle_fresh h, settle_fresh h]
        exact ih _
      | some first =>
        rw [settle_repeated h, settle_repeated h]
        exact ih b

theorem settle_congr (h : ∀ x, tagIn tags x = tagIn tags' x) (b : Bindings) (ds : List Demand) :
    settle tags b ds = settle tags' b ds := by
  induction ds generalizing b with
  | nil => rfl
  | cons d ds ih =>
    cases d with
    | guard g => rw [settle, settle, ih b]
    | occurs x p =>
      cases hx : b.find? x with
      | none => rw [settle_fresh hx, settle_fresh hx, h x, ih]
      | some first => rw [settle_repeated hx, settle_repeated hx, ih b]

end Settle

namespace Clause

variable {c : Clause} {r : Registry} {limit : Nat} {tags : List Tag}

/-! ## Parameters -/

theorem exists_paramTags {given : List (String × Tag)}
    (h : ∀ e ∈ given, ∀ tag, c.type? e.1 = some tag → (tag.narrow e.2).isSome) :
    ∃ assigned, c.paramTags given = .ok assigned := by
  cases htags : c.paramTags given with
  | ok assigned => exact ⟨assigned, rfl⟩
  | error e =>
    obtain ⟨p, hp, hfails⟩ := paramTags_eq_error htags
    obtain ⟨declared, htype, hapart, -⟩ := paramTag_eq_error hfails
    have hsome := h p hp declared htype
    rw [hapart] at hsome
    cases hsome

/-- The parameters pass their check when they are distinct and as many as the body takes,
types are declared for them only, and each declared type narrows. -/
theorem exists_checkParams_iff :
    (∃ assigned, c.checkParams tags = .ok assigned) ↔
      c.params.Nodup ∧ tags.length = c.params.length ∧ (∀ d ∈ c.types, d.1 ∈ c.params) ∧
        ∀ e ∈ c.params.zip tags, ∀ tag, c.type? e.1 = some tag → (tag.narrow e.2).isSome := by
  constructor
  · rintro ⟨assigned, h⟩
    obtain ⟨hdistinct, harity, hdeclared, htags⟩ := checkParams_eq_ok h
    exact ⟨hdistinct, harity, hdeclared, isSome_narrow_of_paramTags htags⟩
  · rintro ⟨hdistinct, harity, hdeclared, hnarrow⟩
    have hfound : c.types.find? (·.1 ∉ c.params) = none :=
      List.find?_eq_none.mpr fun d hd => by simpa using hdeclared d hd
    have hcheck : c.checkParams tags = c.paramTags (c.params.zip tags) := by
      simp only [checkParams, firstRepeated_eq_none_iff.mpr hdistinct, hfound,
        if_neg (not_not_intro harity)]
    rw [hcheck]
    exact exists_paramTags hnarrow

/-! ## Clauses -/

/-- Past the check of its parameters a clause compiles when its shape is within the limit, can
be laid out, and mentions every parameter. -/
theorem exists_compile_iff {α : Type} {body : Body α} :
    (∃ arm, c.compile r limit body = .ok arm) ↔
      (∃ assigned, c.checkParams body.tags = .ok assigned) ∧ c.shape.depth ≤ limit ∧
        (∃ ds, c.shape.demands r c.params Path.root = .ok ds) ∧
        ∀ x ∈ c.params, x ∈ c.shape.mentions := by
  constructor
  · rintro ⟨arm, harm⟩
    obtain ⟨hplan, -⟩ := compile_eq_ok harm
    obtain ⟨assigned, ds, hcheck, hdepth, hds, -, -⟩ := compilePlan_eq_ok hplan
    exact ⟨⟨assigned, hcheck⟩, hdepth, ⟨ds, hds⟩,
      fun x => ((wellFormed_of_compilePlan hplan).mentioned x).mp⟩
  · rintro ⟨⟨assigned, hcheck⟩, hdepth, ⟨ds, hds⟩, hmentioned⟩
    obtain ⟨plan, hplan⟩ := exists_compilePlan hcheck hdepth hds hmentioned
    exact ⟨⟨plan, body⟩, by rw [compile, hplan]; rfl⟩

end Clause
end Destructure
