/-
Invoking a body on values.

A body takes as many leading values as it has arguments, and leaves the rest.  Whether it
takes the value at a position is a matter of that position alone: there has to be a value,
and the tag that the body advertises for the position has to admit it (`TakesAt`).  The
values are looked at from left to right, so what is reported is the first position at which
this fails (`ofValues_eq_error_iff`), and a body that runs has taken the values of all its
positions (`TakenFrom.takesAt`).
-/
import Destructure.Proofs.Body.Arguments
import Destructure.Registry

namespace Destructure

namespace ArgType

/-- What the body receives has the content of the value.  Of a sequence it receives the
elements, whichever of the two kinds it is of. -/
inductive Conveys : (t : ArgType) → Value → t.Carrier → Prop
  | value (v : Value) : Conveys .value v v
  | int (n : Int64) : Conveys .int (.int n) n
  | float (x : Binary64) : Conveys .float (.float x) x
  | bool (b : Bool) : Conveys .bool (.bool b) b
  | char (c : Char) : Conveys .char (.char c) c
  | str (s : String) : Conveys .str (.str s) s
  | object (t : TypeId) (name : String) (fields : List Value) :
      Conveys .object (.object t name fields) ⟨t, name, fields⟩
  | array (items : List Value) : Conveys .items (.array items) items
  | list (items : List Value) : Conveys .items (.list items) items
  | entries (entries : List (String × Value)) : Conveys .entries (.map entries) entries

theorem read?_eq_some_iff {t : ArgType} {v : Value} {x : t.Carrier} :
    t.read? v = some x ↔ t.Conveys v x := by
  constructor
  · intro h
    cases t <;> cases v <;> cases h <;> constructor
  · intro h
    cases h <;> rfl

end ArgType

/-! ## Positions -/

/-- There is a value at the position, and the tag at the position admits it. -/
def TakesAt (tags : List Tag) (vs : List Value) (i : Nat) : Prop :=
  ∃ tag v, tags[i]? = some tag ∧ vs[i]? = some v ∧ tag.admits v = true

/-- What is reported of a position where the value is missing or not of the tag. -/
inductive RefusesAt (tags : List Tag) (vs : List Value) (i : Nat) : ExtractError → Prop
  | missing {tag} (expected : tags[i]? = some tag) (absent : vs[i]? = none) :
      RefusesAt tags vs i (.missing tag)
  | mismatch {tag v} (expected : tags[i]? = some tag) (found : vs[i]? = some v)
      (other : tag.admits v = false) : RefusesAt tags vs i (.mismatch tag v.typeName)

/-- What is reported of the first position where the value is not taken. -/
def RefusesFirst (tags : List Tag) (vs : List Value) (e : ExtractError) : Prop :=
  ∃ i, RefusesAt tags vs i e ∧ ∀ j < i, TakesAt tags vs j

/-- The name of the type of the value at the position, or that there is nothing. -/
def foundAt (vs : List Value) (i : Nat) : String := (vs[i]?.map Value.typeName).getD "nothing"

section Positions

variable {tags : List Tag} {vs : List Value} {i : Nat} {e e' : ExtractError}

theorem RefusesAt.lt (h : RefusesAt tags vs i e) : i < tags.length := by
  cases h with
  | missing expected | mismatch expected => exact (List.getElem?_eq_some_iff.mp expected).1

theorem RefusesAt.unique (h : RefusesAt tags vs i e) (h' : RefusesAt tags vs i e') : e = e' := by
  cases h <;> cases h' <;> simp_all

theorem RefusesAt.not_takesAt (h : RefusesAt tags vs i e) : ¬ TakesAt tags vs i := by
  rintro ⟨tag, v, htag, hv, hadmits⟩
  cases h <;> simp_all

theorem message_missing (tag : Tag) : (ExtractError.missing tag).message =
    "expected a value of type " ++ tag.text ++ ", found " ++ "nothing" := by
  have hnothing : ", found nothing" = ", found " ++ "nothing" := by decide
  show "expected a value of type " ++ tag.text ++ ", found nothing" = _
  rw [hnothing, ← String.append_assoc]

/-- The message names the tag of the position and what was found there. -/
theorem RefusesAt.message (h : RefusesAt tags vs i e) : ∃ tag, tags[i]? = some tag ∧
    e.message = "expected a value of type " ++ tag.text ++ ", found " ++ foundAt vs i := by
  cases h with
  | @missing tag expected absent =>
    rw [foundAt, absent, Option.map_none, Option.getD_none]
    exact ⟨tag, expected, message_missing tag⟩
  | @mismatch tag v expected found =>
    rw [foundAt, found, Option.map_some, Option.getD_some]
    exact ⟨tag, expected, rfl⟩

/-- Nothing but the tag and the value at the position matters. -/
theorem RefusesAt.of_getElem? {tags' : List Tag} {vs' : List Value} {j : Nat}
    (h : RefusesAt tags vs i e) (htags : tags[i]? = tags'[j]?) (hvs : vs[i]? = vs'[j]?) :
    RefusesAt tags' vs' j e := by
  cases h with
  | missing expected absent => exact .missing (htags ▸ expected) (hvs ▸ absent)
  | mismatch expected found other => exact .mismatch (htags ▸ expected) (hvs ▸ found) other

theorem refusesAt_succ_iff {tag : Tag} {v : Value} :
    RefusesAt (tag :: tags) (v :: vs) (i + 1) e ↔ RefusesAt tags vs i e :=
  ⟨fun h => h.of_getElem? rfl rfl, fun h => h.of_getElem? rfl rfl⟩

theorem refusesFirst_iff_eq (h : RefusesAt tags vs 0 e') : RefusesFirst tags vs e ↔ e = e' := by
  constructor
  · rintro ⟨i, hi, hbefore⟩
    cases i with
    | zero => exact hi.unique h
    | succ i => exact absurd (hbefore 0 i.succ_pos) h.not_takesAt
  · rintro rfl
    exact ⟨0, h, fun j hj => absurd hj j.not_lt_zero⟩

theorem refusesFirst_iff_of_admits {tag : Tag} {v : Value} (h : tag.admits v = true) :
    RefusesFirst (tag :: tags) (v :: vs) e ↔ RefusesFirst tags vs e := by
  have hzero : TakesAt (tag :: tags) (v :: vs) 0 := ⟨tag, v, rfl, rfl, h⟩
  constructor
  · rintro ⟨i, hi, hbefore⟩
    cases i with
    | zero => exact absurd hzero hi.not_takesAt
    | succ i => exact ⟨i, refusesAt_succ_iff.mp hi, fun j hj => hbefore (j + 1) (by omega)⟩
  · rintro ⟨i, hi, hbefore⟩
    refine ⟨i + 1, refusesAt_succ_iff.mpr hi, fun j hj => ?_⟩
    cases j with
    | zero => exact hzero
    | succ j => exact hbefore j (by omega)

end Positions

/-! ## Arguments -/

namespace Args

variable {ts : Signature} {vs : List Value} {e : ExtractError}

theorem ofValues_cons_of_read? {t : ArgType} {v : Value} {x : t.Carrier}
    (h : t.read? v = some x) : ofValues (t :: ts) (v :: vs) = (ofValues ts vs).map (cons x) := by
  rw [ofValues, h]

/-- The arguments fail at the first position where a value is not taken. -/
theorem ofValues_eq_error_iff :
    ofValues ts vs = .error e ↔ RefusesFirst (ts.map ArgType.tag) vs e := by
  induction ts generalizing vs with
  | nil =>
    have hnone : ¬ RefusesFirst [] vs e := fun ⟨i, hi, _⟩ => absurd hi.lt i.not_lt_zero
    simp [ofValues, hnone]
  | cons t ts ih =>
    rw [List.map_cons]
    cases vs with
    | nil =>
      have hzero : RefusesAt (t.tag :: ts.map ArgType.tag) [] 0 (.missing t.tag) := .missing rfl rfl
      rw [refusesFirst_iff_eq hzero, ofValues, Except.error.injEq, eq_comm]
    | cons v vs =>
      cases hread : t.read? v with
      | none =>
        have hadmits : t.tag.admits v = false := by rw [← t.isSome_read? v, hread]; rfl
        have hzero : RefusesAt (t.tag :: ts.map ArgType.tag) (v :: vs) 0
            (.mismatch t.tag v.typeName) := .mismatch rfl rfl hadmits
        rw [refusesFirst_iff_eq hzero, ofValues, hread, Except.error.injEq, eq_comm]
      | some x =>
        have hadmits : t.tag.admits v = true := by rw [← t.isSome_read? v, hread]; rfl
        rw [refusesFirst_iff_of_admits hadmits, ofValues_cons_of_read? hread, ← ih]
        cases ofValues ts vs <;> simp [Except.map]

/-- Surplus values are not looked at. -/
theorem ofValues_take (ts : Signature) (vs : List Value) :
    ofValues ts (vs.take ts.length) = ofValues ts vs := by
  induction ts generalizing vs with
  | nil => rfl
  | cons t ts ih =>
    cases vs with
    | nil => rfl
    | cons v vs => simp only [List.length_cons, List.take_succ_cons, ofValues, ih]

theorem takenFrom_of_ofValues {args : Args ts} (h : ofValues ts vs = .ok args) :
    args.TakenFrom (vs.take ts.length) := by
  induction ts generalizing vs with
  | nil =>
    cases h
    exact .nil
  | cons t ts ih =>
    cases vs with
    | nil => cases h
    | cons v vs =>
      cases hread : t.read? v with
      | none => simp [ofValues, hread] at h
      | some x =>
        rw [ofValues_cons_of_read? hread] at h
        cases hrest : ofValues ts vs with
        | error e => simp [hrest, Except.map] at h
        | ok xs =>
          rw [hrest] at h
          cases h
          exact .cons hread (ih hrest)

theorem TakenFrom.takesAt {args : Args ts} (h : args.TakenFrom vs) {i : Nat}
    (hi : i < ts.length) : TakesAt (ts.map ArgType.tag) vs i := by
  induction h generalizing i with
  | nil => exact absurd hi i.not_lt_zero
  | @cons t ts x xs v vs hread _ ih =>
    cases i with
    | zero =>
      refine ⟨t.tag, v, rfl, rfl, ?_⟩
      rw [← t.isSome_read? v, hread]
      rfl
    | succ i => exact ih (Nat.lt_of_succ_lt_succ hi)

end Args

/-! ## Bodies -/

namespace Body

variable {α : Type} {b : Body α} {vs : List Value}

theorem length_tags (b : Body α) : b.tags.length = b.signature.length := List.length_map _

theorem invoke_eq_error_iff {e : ExtractError} :
    b.invoke vs = .error e ↔ RefusesFirst b.tags vs e := by
  rw [tags, ← Args.ofValues_eq_error_iff, invoke]
  cases Args.ofValues b.signature vs <;> simp [Except.map]

theorem exists_takenFrom_of_invoke {call : Call α} (h : b.invoke vs = .ok call) :
    ∃ args : Args b.signature,
      args.TakenFrom (vs.take b.tags.length) ∧ call = ⟨b.label, b.run args⟩ := by
  rw [invoke] at h
  cases hargs : Args.ofValues b.signature vs with
  | error e => simp [hargs, Except.map] at h
  | ok args =>
    rw [hargs] at h
    cases h
    rw [length_tags]
    exact ⟨args, Args.takenFrom_of_ofValues hargs, rfl⟩

theorem exists_invoke_iff : (∃ call, b.invoke vs = .ok call) ↔
    b.tags.length ≤ vs.length ∧ ∀ i < b.tags.length, TakesAt b.tags vs i := by
  constructor
  · rintro ⟨call, h⟩
    obtain ⟨args, hargs, -⟩ := exists_takenFrom_of_invoke h
    have htakes : ∀ i < b.tags.length, TakesAt b.tags vs i := by
      intro i hi
      obtain ⟨tag, v, htag, hv, hadmits⟩ := hargs.takesAt (b.length_tags ▸ hi)
      rw [List.getElem?_take_of_lt hi] at hv
      exact ⟨tag, v, htag, hv, hadmits⟩
    refine ⟨Nat.le_of_not_lt fun hshort => ?_, htakes⟩
    obtain ⟨_, v, -, hv, -⟩ := htakes vs.length hshort
    simp at hv
  · rintro ⟨-, htakes⟩
    cases h : b.invoke vs with
    | ok call => exact ⟨call, rfl⟩
    | error e =>
      obtain ⟨i, hrefuses, -⟩ := invoke_eq_error_iff.mp h
      exact absurd (htakes i hrefuses.lt) hrefuses.not_takesAt

theorem invoke_take (b : Body α) (vs : List Value) :
    b.invoke (vs.take b.tags.length) = b.invoke vs := by
  rw [invoke, invoke, length_tags, Args.ofValues_take]

/-- A body runs exactly when there are as many values as it takes and each is admitted by the
tag of its position.  Then it runs once, on these values, whose content it receives, and
further ones make no difference.  Otherwise it does not run, and what is reported is the
first position where a value is missing or not admitted, with the tag of the position and
what was found there: the name of the type, which is that of the registration for an
instance, or nothing. -/
theorem invocation_decided_by_tags (b : Body α) (vs : List Value) :
    ((∃ call, b.invoke vs = .ok call) ↔
        b.tags.length ≤ vs.length ∧ ∀ i < b.tags.length, TakesAt b.tags vs i) ∧
      (∀ call, b.invoke vs = .ok call → ∃ args : Args b.signature,
        args.TakenFrom (vs.take b.tags.length) ∧ call = ⟨b.label, b.run args⟩) ∧
      (∀ (t : ArgType) v x, t.read? v = some x ↔ t.Conveys v x) ∧
      (b.tags.length ≤ vs.length → ∀ more, b.invoke (vs ++ more) = b.invoke vs) ∧
      (∀ e, b.invoke vs = .error e ↔ RefusesFirst b.tags vs e) ∧
      (∀ i e, RefusesAt b.tags vs i e → ∃ tag, b.tags[i]? = some tag ∧
        e.message = "expected a value of type " ++ tag.text ++ ", found " ++ foundAt vs i) ∧
      ∀ (r : Registry) t fields o, r.instantiate t fields = .ok o →
        ∃ d, r.get? t = some d ∧ o.typeName = d.name := by
  refine ⟨exists_invoke_iff, fun call => exists_takenFrom_of_invoke,
    fun t v x => ArgType.read?_eq_some_iff, ?surplus, fun e => invoke_eq_error_iff,
    fun i e => RefusesAt.message, ?named⟩
  case surplus =>
    intro hlen more
    rw [← invoke_take, List.take_append_of_le_length hlen, invoke_take]
  case named =>
    intro r t fields o ho
    obtain ⟨d, hd, -, rfl⟩ := Registry.instantiate_eq_ok_iff.mp ho
    exact ⟨d, hd, rfl⟩

/-- The element at a position of a sequence. -/
def elementAt : Body (Option Value) :=
  ⟨"elementAt", [.int, .items], fun | .cons n (.cons items .nil) => items[n.toNatClampNeg]?⟩

theorem invocation_decided_by_tags_elementAt :
    let taken := [Value.int 1, .array [.unit, .bool true]]
    let refused := [Value.int 1, .object ⟨0⟩ "Point" [], .unit]
    elementAt.invoke taken = .ok ⟨"elementAt", some (.bool true)⟩ ∧
      elementAt.invoke (taken ++ [.unit]) = elementAt.invoke taken ∧
      (∀ i < 2, TakesAt [.int, .sequence] taken i) ∧
      elementAt.invoke refused = .error (.mismatch .sequence "Point") ∧
      RefusesFirst [.int, .sequence] refused (.mismatch .sequence "Point") ∧
      RefusesFirst [.int, .sequence] [.int 1] (.missing .sequence) := by
  intro taken refused
  obtain ⟨hruns, -, -, hsurplus, -⟩ := invocation_decided_by_tags elementAt taken
  obtain ⟨-, -, -, -, hrefused, -⟩ := invocation_decided_by_tags elementAt refused
  obtain ⟨-, -, -, -, hmissing, -⟩ := invocation_decided_by_tags elementAt [.int 1]
  have htaken : elementAt.invoke taken = .ok ⟨"elementAt", some (.bool true)⟩ := rfl
  have hmismatch : elementAt.invoke refused = .error (.mismatch .sequence "Point") := rfl
  exact ⟨htaken, hsurplus (Nat.le_refl 2) [.unit], (hruns.mp ⟨_, htaken⟩).2, hmismatch,
    (hrefused _).mp hmismatch, (hmissing _).mp rfl⟩

end Body
end Destructure
