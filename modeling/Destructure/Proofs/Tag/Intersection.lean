/-
Tags as sets of values.

A tag is no more than the values it admits.  One tag lies within another exactly when its
values do (`within_iff_admits`), and tags that share a value are nested (`nested_of_admits`).
The values that two tags have in common are therefore those of a tag again, or there are
none, and `narrow` tells which of the two it is.

An optional tag stands for a set of values as well, `none` for the empty one.  No two of
them stand for the same set (`eq_of_any_admits`), since every tag has a value.  With this a
law of narrowing is a law of conjunction: both sides admit the same values.
-/
import Destructure.Clause.Params

namespace Destructure

/-- The strictest tag of a value. -/
def Value.tag : Value → Tag
  | unit => .unit
  | bool _ => .bool
  | int _ => .int
  | float _ => .float
  | char _ => .char
  | str _ => .str
  | array _ => .array
  | list _ => .list
  | map _ => .map
  | object t _ _ => .object t

namespace Tag

variable {s t u : Tag} {v : Value}

/-! ## Nested tags -/

@[simp] theorem within_any (s : Tag) : s.within .any = true := by
  cases s <;> rfl

@[simp] theorem within_self (s : Tag) : s.within s = true := by
  cases s <;> simp [within]

theorem within_iff : s.within t = true ↔
    s = t ∨ t = .any ∨ (t = .sequence ∧ (s = .array ∨ s = .list)) ∨
      t = .anyObject ∧ ∃ type, s = .object type := by
  cases t with
  | any => simp
  | sequence => cases s <;> simp [within]
  | anyObject => cases s <;> simp [within]
  | _ => cases s <;> simp [within]

theorem eq_any_of_within (h : Tag.any.within t = true) : t = .any := by
  cases t <;> simp_all [within]

theorem within_antisymm (hst : s.within t = true) (hts : t.within s = true) : s = t := by
  rcases within_iff.mp hst with rfl | rfl | ⟨rfl, rfl | rfl⟩ | ⟨rfl, type, rfl⟩
  · rfl
  · exact eq_any_of_within hts
  · exact absurd hts (by decide)
  · exact absurd hts (by decide)
  · simp [within] at hts

theorem within_trans (hst : s.within t = true) (htu : t.within u = true) : s.within u = true := by
  rcases within_iff.mp hst with rfl | rfl | ⟨rfl, -⟩ | ⟨rfl, -⟩
  · exact htu
  · rw [eq_any_of_within htu]
    exact within_any s
  · rcases within_iff.mp htu with rfl | rfl | ⟨rfl, -⟩ | ⟨-, type, hobject⟩
    · exact hst
    · exact within_any s
    · exact hst
    · cases hobject
  · rcases within_iff.mp htu with rfl | rfl | ⟨-, harray | hlist⟩ | ⟨rfl, -⟩
    · exact hst
    · exact within_any s
    · cases harray
    · cases hlist
    · exact hst

/-- Tags that have a tag within both of them are nested. -/
theorem nested_of_within (hs : u.within s = true) (ht : u.within t = true) :
    s.within t = true ∨ t.within s = true := by
  rcases within_iff.mp hs with rfl | rfl | ⟨rfl, hsequence⟩ | ⟨rfl, type, rfl⟩
  · exact .inl ht
  · exact .inr (within_any t)
  · rcases within_iff.mp ht with rfl | rfl | ⟨rfl, -⟩ | ⟨rfl, type, rfl⟩
    · exact .inr hs
    · exact .inl (within_any _)
    · exact .inl (within_self _)
    · simp at hsequence
  · rcases within_iff.mp ht with rfl | rfl | ⟨rfl, hsequence⟩ | ⟨rfl, -⟩
    · exact .inr hs
    · exact .inl (within_any _)
    · simp at hsequence
    · exact .inl (within_self _)

theorem narrow_eq_some (h : s.narrow t = some u) :
    s.within t = true ∧ u = s ∨ t.within s = true ∧ u = t := by
  unfold narrow at h
  split at h
  · exact .inl ⟨‹_›, (Option.some.inj h).symm⟩
  · split at h
    · exact .inr ⟨‹_›, (Option.some.inj h).symm⟩
    · cases h

theorem not_nested_of_narrow_eq_none (h : s.narrow t = none) :
    ¬ (s.within t = true ∨ t.within s = true) := by
  rintro (hst | hts)
  · simp [narrow, hst] at h
  · by_cases hst : s.within t = true
    · simp [narrow, hst] at h
    · simp [narrow, hst, hts] at h

/-! ## Sets of values -/

/-- A value is admitted by the tags that its own tag lies within. -/
theorem admits_iff_within : t.admits v = true ↔ v.tag.within t = true := by
  cases v with
  | object type name fields =>
    cases t with
    | object other => simpa [admits, within, Value.tag] using eq_comm
    | _ => simp [admits, within, Value.tag]
  | _ => cases t <;> simp [admits, within, Value.tag]

/-- The values of a tag lie in every tag that it is within. -/
theorem admits_of_within (h : s.within t = true) (hv : s.admits v = true) : t.admits v = true :=
  admits_iff_within.mpr (within_trans (admits_iff_within.mp hv) h)

/-- Tags that share a value are nested. -/
theorem nested_of_admits (hs : s.admits v = true) (ht : t.admits v = true) :
    s.within t = true ∨ t.within s = true :=
  nested_of_within (admits_iff_within.mp hs) (admits_iff_within.mp ht)

/-- A value of the tag. -/
def sample : Tag → Value
  | any | unit => .unit
  | bool => .bool false
  | int => .int 0
  | float => .float .nan
  | char => .char 'a'
  | str => .str ""
  | array | sequence => .array []
  | list => .list []
  | map => .map []
  | anyObject => .object ⟨0⟩ "" []
  | object t => .object t "" []

theorem admits_sample (t : Tag) : t.admits t.sample = true := by
  cases t <;> simp [admits, sample]

/-- One tag lies within another exactly when all its values do. -/
theorem within_iff_admits :
    s.within t = true ↔ ∀ v, s.admits v = true → t.admits v = true := by
  refine ⟨fun h v => admits_of_within h, fun h => ?_⟩
  have hown : ∀ v : Value, s.admits v = true → v.tag.within t = true :=
    fun v hv => admits_iff_within.mp (h v hv)
  -- A tag that is the strictest one of its sample is settled by that sample.  For the three
  -- unions it takes values of two different tags.
  cases s with
  | any =>
    have hunit := hown .unit rfl
    have hbool := hown (.bool false) rfl
    cases t <;> simp_all [within, Value.tag]
  | sequence =>
    have harray := hown (.array []) rfl
    have hlist := hown (.list []) rfl
    cases t <;> simp_all [within, Value.tag]
  | anyObject =>
    have hzero : (object ⟨0⟩).within t = true := hown (.object ⟨0⟩ "" []) rfl
    have hone : (object ⟨1⟩).within t = true := hown (.object ⟨1⟩ "" []) rfl
    rcases within_iff.mp hzero with rfl | rfl | ⟨rfl, -⟩ | ⟨rfl, -⟩
    · exact absurd hone (by decide)
    · exact within_any _
    · exact absurd hzero (by decide)
    · exact within_self _
  | _ => exact hown _ (admits_sample _)

/-- Optional tags that stand for the same values are equal. -/
theorem eq_of_any_admits {x y : Option Tag}
    (h : ∀ v, x.any (·.admits v) = y.any (·.admits v)) : x = y := by
  cases x with
  | none =>
    cases y with
    | none => rfl
    | some t => simpa [admits_sample] using h t.sample
  | some s =>
    cases y with
    | none => simpa [admits_sample] using h s.sample
    | some t =>
      have hadmits : ∀ v, s.admits v = t.admits v := h
      have hst : s.within t = true := within_iff_admits.mpr fun v hv => hadmits v ▸ hv
      have hts : t.within s = true := within_iff_admits.mpr fun v hv => hadmits v ▸ hv
      rw [within_antisymm hst hts]

/-! ## Narrowing -/

/-- A narrowed tag admits what both tags admit. -/
theorem admits_of_narrow_eq_some (h : s.narrow t = some u) (v : Value) :
    u.admits v = true ↔ s.admits v = true ∧ t.admits v = true := by
  rcases narrow_eq_some h with ⟨hwithin, rfl⟩ | ⟨hwithin, rfl⟩
  · exact ⟨fun hv => ⟨hv, admits_of_within hwithin hv⟩, And.left⟩
  · exact ⟨fun hv => ⟨admits_of_within hwithin hv, hv⟩, And.right⟩

theorem disjoint_of_narrow_eq_none (h : s.narrow t = none) (v : Value) :
    ¬ (s.admits v = true ∧ t.admits v = true) :=
  fun ⟨hs, ht⟩ => not_nested_of_narrow_eq_none h (nested_of_admits hs ht)

/-- The values that are left by narrowing, whether there is a tag left or not. -/
theorem any_admits_narrow (s t : Tag) (v : Value) :
    (s.narrow t).any (·.admits v) = (s.admits v && t.admits v) := by
  rw [Bool.eq_iff_iff, Bool.and_eq_true]
  cases h : s.narrow t with
  | none => simpa using disjoint_of_narrow_eq_none h v
  | some u => exact admits_of_narrow_eq_some h v

theorem narrow_comm (s t : Tag) : s.narrow t = t.narrow s := by
  apply eq_of_any_admits
  intro v
  rw [any_admits_narrow, any_admits_narrow, Bool.and_comm]

/-- Narrowing by several tags one after another leaves the values that all of them admit. -/
theorem any_admits_foldlM (s : Tag) (ts : List Tag) (v : Value) :
    (ts.foldlM narrow s).any (·.admits v) = (s :: ts).all (·.admits v) := by
  induction ts generalizing s with
  | nil => simp
  | cons t ts ih =>
    have hnarrow := any_admits_narrow s t v
    rw [List.foldlM_cons, List.all_cons, List.all_cons, ← Bool.and_assoc, ← hnarrow]
    cases s.narrow t with
    | none => rfl
    | some u => exact (ih u).trans List.all_cons

theorem any_admits_bind (x : Option Tag) (t : Tag) (v : Value) :
    (x.bind (·.narrow t)).any (·.admits v) = (x.any (·.admits v) && t.admits v) := by
  cases x with
  | none => rfl
  | some s => exact any_admits_narrow s t v

theorem narrow_assoc (s t u : Tag) :
    (s.narrow t).bind (·.narrow u) = (t.narrow u).bind s.narrow := by
  have hcomm : s.narrow = (·.narrow s) := funext (narrow_comm s)
  apply eq_of_any_admits
  intro v
  have hleft := any_admits_bind (s.narrow t) u v
  have hright := any_admits_bind (t.narrow u) s v
  rw [any_admits_narrow] at hleft hright
  rw [hleft, hcomm, hright, Bool.and_comm (t.admits v && u.admits v), Bool.and_assoc]

/-- The order in which tags are narrowed by one another does not matter. -/
theorem foldlM_narrow_perm {s' : Tag} {ts ts' : List Tag} (h : (s :: ts).Perm (s' :: ts')) :
    ts.foldlM narrow s = ts'.foldlM narrow s' := by
  apply eq_of_any_admits
  intro v
  rw [any_admits_foldlM, any_admits_foldlM, h.all_eq]

end Tag

/-- The tag of a parameter is its declared type narrowed by the one its body takes. -/
theorem Clause.toOption_paramTag {c : Clause} {name : String} {declared body : Tag}
    (h : c.type? name = some declared) :
    (c.paramTag name body).toOption = declared.narrow body := by
  simp only [paramTag, h]
  cases declared.narrow body <;> rfl

namespace Tag

/-- Narrowing is exact intersection.  A narrowed tag admits what both tags admit, and tags
that cannot be narrowed have no value in common.  It does not matter in which order tags are
narrowed, of two, of three or of any list, nor whether the type that is declared for a
parameter or the one its body takes comes first. -/
theorem narrowing_intersects (s t : Tag) :
    (∀ u, s.narrow t = some u →
        ∀ v, u.admits v = true ↔ s.admits v = true ∧ t.admits v = true) ∧
      (s.narrow t = none → ∀ v, ¬ (s.admits v = true ∧ t.admits v = true)) ∧
      s.narrow t = t.narrow s ∧
      (∀ u, (s.narrow t).bind (·.narrow u) = (t.narrow u).bind s.narrow) ∧
      (∀ ts s' ts', (s :: ts).Perm (s' :: ts') → ts.foldlM narrow s = ts'.foldlM narrow s') ∧
      ∀ (c c' : Clause) (name : String), c.type? name = some s → c'.type? name = some t →
        (c.paramTag name t).toOption = (c'.paramTag name s).toOption := by
  refine ⟨fun u => admits_of_narrow_eq_some, disjoint_of_narrow_eq_none, narrow_comm s t,
    narrow_assoc s t, fun ts s' ts' => foldlM_narrow_perm, ?parameter⟩
  case parameter =>
    intro c c' name hs ht
    rw [Clause.toOption_paramTag hs, Clause.toOption_paramTag ht, narrow_comm]

/-- Declared as a sequence where the body takes a list, and the other way round. -/
def declaredAs (tag : Tag) : Clause := (Clause.ofParams ["a"] (.var "a")).declare "a" tag

theorem narrowing_intersects_sequence :
    sequence.narrow list = some list ∧ array.narrow list = none ∧
      (∀ v, list.admits v = true ↔ sequence.admits v = true ∧ list.admits v = true) ∧
      (∀ v, ¬ (array.admits v = true ∧ list.admits v = true)) ∧
      [sequence, any, list].Perm [list, sequence, any] ∧
      [any, list].foldlM narrow sequence = [sequence, any].foldlM narrow list ∧
      (declaredAs sequence).type? "a" = some sequence ∧ (declaredAs list).type? "a" = some list ∧
      ((declaredAs sequence).paramTag "a" list).toOption =
        ((declaredAs list).paramTag "a" sequence).toOption := by
  obtain ⟨hsome, -, -, -, hlist, hparam⟩ := narrowing_intersects sequence list
  obtain ⟨-, hnone, -⟩ := narrowing_intersects array list
  have hperm : [sequence, any, list].Perm [list, sequence, any] := by decide
  exact ⟨rfl, rfl, hsome list rfl, hnone rfl, hperm, hlist _ _ _ hperm, rfl, rfl,
    hparam (declaredAs sequence) (declaredAs list) "a" rfl rfl⟩

end Tag
end Destructure
