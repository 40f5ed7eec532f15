/-
Laws of equality of values.

Being the same is symmetric and transitive, and not reflexive because of NaN.  Two values
that are the same still differ as data, in the sign of a zero or in the name that an
instance carries, and no reading of a value can tell: not a tag, not a count, not a step
of a path.  What is found in both is the same again.
-/
import Destructure.Path
import Destructure.Tag
import Destructure.Value.Equality

namespace Destructure

namespace Value

/-- Induction on values, with the hypothesis for every value in the lists that a value
holds. -/
@[elab_as_elim, induction_eliminator]
theorem induct {motive : Value → Prop}
    (unit : motive unit)
    (bool : ∀ b, motive (bool b))
    (int : ∀ n, motive (int n))
    (float : ∀ x, motive (float x))
    (char : ∀ c, motive (char c))
    (str : ∀ s, motive (str s))
    (array : ∀ items, (∀ v ∈ items, motive v) → motive (array items))
    (list : ∀ items, (∀ v ∈ items, motive v) → motive (list items))
    (map : ∀ entries, (∀ e ∈ entries, motive e.2) → motive (map entries))
    (object : ∀ t name fields, (∀ v ∈ fields, motive v) → motive (object t name fields))
    (v : Value) : motive v := by
  refine @Value.rec motive (fun vs => ∀ v ∈ vs, motive v) (fun es => ∀ e ∈ es, motive e.2)
    (fun e => motive e.2) unit bool int float char str array list map object ?_ ?_ ?_ ?_ ?_ v
  · exact fun v hv => absurd hv List.not_mem_nil
  · exact fun v vs hv hvs => List.forall_mem_cons.mpr ⟨hv, hvs⟩
  · exact fun e he => absurd he List.not_mem_nil
  · exact fun e es he hes => List.forall_mem_cons.mpr ⟨he, hes⟩
  · exact fun _ _ hv => hv

/-! ## Symmetry and transitivity -/

section Lists

variable {vs ws us : List Value} {es fs gs : List (String × Value)}

theorem sameItems_comm (h : ∀ v ∈ vs, ∀ w, v.same w = w.same v) :
    sameItems vs ws = sameItems ws vs := by
  induction vs generalizing ws with
  | nil => cases ws <;> rfl
  | cons v vs ih =>
    cases ws with
    | nil => rfl
    | cons w ws =>
      have hhead : v.same w = w.same v := h v List.mem_cons_self w
      have htail := @ih ws fun v hv => h v (List.mem_cons_of_mem _ hv)
      rw [sameItems, sameItems, hhead, htail]

theorem sameEntries_comm (h : ∀ e ∈ es, ∀ w, e.2.same w = w.same e.2) :
    sameEntries es fs = sameEntries fs es := by
  induction es generalizing fs with
  | nil => cases fs <;> rfl
  | cons e es ih =>
    cases fs with
    | nil => rfl
    | cons f fs =>
      have hhead : e.2.same f.2 = f.2.same e.2 := h e List.mem_cons_self f.2
      have htail := @ih fs fun e he => h e (List.mem_cons_of_mem _ he)
      rw [sameEntries, sameEntries, hhead, htail, BEq.comm (a := e.1)]

theorem sameItems_trans (h : ∀ v ∈ vs, ∀ w u, v.same w = true → w.same u = true → v.same u = true)
    (hvw : sameItems vs ws = true) (hwu : sameItems ws us = true) : sameItems vs us = true := by
  induction vs generalizing ws us with
  | nil =>
    cases ws with
    | nil => exact hwu
    | cons w ws => cases hvw
  | cons v vs ih =>
    cases ws with
    | nil => cases hvw
    | cons w ws =>
      cases us with
      | nil => cases hwu
      | cons u us =>
        simp only [sameItems, Bool.and_eq_true] at hvw hwu ⊢
        have htail := ih (fun v hv => h v (List.mem_cons_of_mem _ hv)) hvw.2 hwu.2
        exact ⟨h v List.mem_cons_self w u hvw.1 hwu.1, htail⟩

theorem sameEntries_trans
    (h : ∀ e ∈ es, ∀ w u, e.2.same w = true → w.same u = true → e.2.same u = true)
    (hef : sameEntries es fs = true) (hfg : sameEntries fs gs = true) :
    sameEntries es gs = true := by
  induction es generalizing fs gs with
  | nil =>
    cases fs with
    | nil => exact hfg
    | cons f fs => cases hef
  | cons e es ih =>
    cases fs with
    | nil => cases hef
    | cons f fs =>
      cases gs with
      | nil => cases hfg
      | cons g gs =>
        simp only [sameEntries, Bool.and_eq_true, beq_iff_eq] at hef hfg ⊢
        obtain ⟨⟨hkey, hvalue⟩, hrest⟩ := hef
        obtain ⟨⟨hkey', hvalue'⟩, hrest'⟩ := hfg
        have htail := ih (fun e he => h e (List.mem_cons_of_mem _ he)) hrest hrest'
        exact ⟨⟨hkey.trans hkey', h e List.mem_cons_self f.2 g.2 hvalue hvalue'⟩, htail⟩

end Lists

theorem same_comm (v w : Value) : v.same w = w.same v := by
  induction v generalizing w with
  | float x => cases w <;> simp [same, Binary64.same_comm]
  | array items ih | list items ih =>
    cases w <;> simp only [same]
    exact sameItems_comm ih
  | map entries ih =>
    cases w <;> simp only [same]
    exact sameEntries_comm ih
  | object t name fields ih =>
    cases w <;> simp only [same]
    rw [sameItems_comm ih, BEq.comm (a := t)]
  | _ => cases w <;> simp [same, BEq.comm]

theorem same_trans {v w u : Value} (hvw : v.same w = true) (hwu : w.same u = true) :
    v.same u = true := by
  induction v generalizing w u with
  | float x =>
    cases w <;> simp only [same, Bool.false_eq_true] at hvw
    cases u <;> simp only [same, Bool.false_eq_true] at hwu
    exact Binary64.same_trans hvw hwu
  | array items ih | list items ih =>
    cases w <;> simp only [same, Bool.false_eq_true] at hvw
    cases u <;> simp only [same, Bool.false_eq_true] at hwu
    exact sameItems_trans ih hvw hwu
  | map entries ih =>
    cases w <;> simp only [same, Bool.false_eq_true] at hvw
    cases u <;> simp only [same, Bool.false_eq_true] at hwu
    exact sameEntries_trans ih hvw hwu
  | object t name fields ih =>
    cases w <;> simp only [same, Bool.false_eq_true] at hvw
    cases u <;> simp only [same, Bool.false_eq_true] at hwu
    simp only [Bool.and_eq_true, beq_iff_eq] at hvw hwu
    have hfields := sameItems_trans ih hvw.2 hwu.2
    simp only [same, hfields, hvw.1.trans hwu.1, BEq.rfl, Bool.and_self]
  | _ =>
    cases w <;> simp only [same, Bool.false_eq_true] at hvw
    cases u <;> simp_all [same]

/-- Values that are the same are the same as the same values. -/
theorem same_congr_left {v w : Value} (h : v.same w = true) (u : Value) :
    v.same u = w.same u := by
  have hwv : w.same v = true := (same_comm w v).trans h
  exact Bool.eq_iff_iff.mpr ⟨same_trans hwv, same_trans h⟩

theorem same_congr {v w v' w' : Value} (h : v.same w = true) (h' : v'.same w' = true) :
    v.same v' = w.same w' := by
  rw [same_congr_left h v', same_comm w v', same_congr_left h' w, same_comm w' w]

/-! ## Counts and parts -/

/-- The values are the same. -/
abbrev Same (v w : Value) : Prop := v.same w = true

section Parts

variable {vs ws : List Value} {es fs : List (String × Value)}

theorem length_eq_of_sameItems (h : sameItems vs ws = true) : vs.length = ws.length := by
  induction vs generalizing ws with
  | nil =>
    cases ws with
    | nil => rfl
    | cons w ws => cases h
  | cons v vs ih =>
    cases ws with
    | nil => cases h
    | cons w ws =>
      simp only [sameItems, Bool.and_eq_true] at h
      rw [List.length_cons, List.length_cons, ih h.2]

theorem length_eq_of_sameEntries (h : sameEntries es fs = true) : es.length = fs.length := by
  induction es generalizing fs with
  | nil =>
    cases fs with
    | nil => rfl
    | cons f fs => cases h
  | cons e es ih =>
    cases fs with
    | nil => cases h
    | cons f fs =>
      simp only [sameEntries, Bool.and_eq_true] at h
      rw [List.length_cons, List.length_cons, ih h.2]

theorem getElem?_same (h : sameItems vs ws = true) (i : Nat) : Option.Rel Same vs[i]? ws[i]? := by
  induction vs generalizing ws i with
  | nil =>
    cases ws with
    | nil => exact .none
    | cons w ws => cases h
  | cons v vs ih =>
    cases ws with
    | nil => cases h
    | cons w ws =>
      simp only [sameItems, Bool.and_eq_true] at h
      cases i with
      | zero => exact .some h.1
      | succ i => exact ih h.2 i

theorem lookup_same (h : sameEntries es fs = true) (key : String) :
    Option.Rel Same (es.lookup key) (fs.lookup key) := by
  induction es generalizing fs with
  | nil =>
    cases fs with
    | nil => exact .none
    | cons f fs => cases h
  | cons e es ih =>
    cases fs with
    | nil => cases h
    | cons f fs =>
      simp only [sameEntries, Bool.and_eq_true, beq_iff_eq] at h
      obtain ⟨⟨hkey, hvalue⟩, hrest⟩ := h
      rw [List.lookup_cons, List.lookup_cons, ← hkey]
      cases key == e.1 with
      | true => exact .some hvalue
      | false => exact ih hrest

end Parts

theorem count?_congr {v w : Value} (h : v.same w = true) : v.count? = w.count? := by
  cases v <;> cases w <;> simp only [same, Bool.false_eq_true] at h <;> try rfl
  · simp only [count?, length_eq_of_sameItems h]
  · simp only [count?, length_eq_of_sameItems h]
  · simp only [count?, length_eq_of_sameEntries h]

end Value

theorem Tag.admits_congr (tag : Tag) {v w : Value} (h : v.same w = true) :
    tag.admits v = tag.admits w := by
  cases v <;> cases w <;> simp only [Value.same, Bool.false_eq_true] at h <;>
    cases tag <;> simp_all [admits]

/-! ## Paths -/

theorem Step.follow_same (s : Step) {v w : Value} (h : v.same w = true) :
    Option.Rel Value.Same (s.follow v) (s.follow w) := by
  cases v <;> cases w <;> simp only [Value.same, Bool.false_eq_true] at h <;> cases s <;>
    first
    | exact .none
    | exact Value.getElem?_same h _
    | exact Value.lookup_same h _
    | exact Value.getElem?_same (Bool.and_eq_true_iff.mp h).2 _

/-- A path leads nowhere in both values or to parts that are the same. -/
theorem Path.resolve_same (p : Path) {v w : Value} (h : v.same w = true) :
    Option.Rel Value.Same (p.resolve v) (p.resolve w) := by
  induction p generalizing v w with
  | nil => exact .some h
  | cons s p ih =>
    have hstep : Option.Rel Value.Same (s.follow v) (s.follow w) := s.follow_same h
    rw [resolve_cons, resolve_cons]
    generalize s.follow v = x at hstep ⊢
    generalize s.follow w = y at hstep ⊢
    cases hstep with
    | none => exact .none
    | some hxy => exact ih hxy

end Destructure
