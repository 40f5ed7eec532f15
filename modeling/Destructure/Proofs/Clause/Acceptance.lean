/-
What a plan accepts does not depend on the order of its demands.

The guards of a plan do depend on it: a variable has its tag checked where it occurs first,
and is compared from there with its other occurrences.  On the values that pass, though,
any two occurrences of a variable are the same, and what is the same has the same tags.  So
every occurrence could have been checked, and every two of them compared.  Said like this,
in `Consistent`, the condition names no first occurrence, and it only becomes weaker when
occurrences are left out.
-/
import Mathlib.Data.List.Pairwise
import Mathlib.Data.List.Perm.Subperm
import Destructure.Proofs.Clause.Occurrences
import Destructure.Proofs.Value.Same

namespace Destructure

/-! ## Comparisons -/

namespace Guard

variable {p q s : Path} {v : Value} {tag : Tag}

theorem holds_sameValue_iff :
    (sameValue p q).holds v = true ↔
      ∃ a b, p.resolve v = some a ∧ q.resolve v = some b ∧ a.same b = true := by
  simp [holds, Option.any_eq_true]

theorem holds_sameValue_symm (h : (sameValue p q).holds v = true) :
    (sameValue q p).holds v = true := by
  obtain ⟨a, b, ha, hb, hab⟩ := holds_sameValue_iff.mp h
  exact holds_sameValue_iff.mpr ⟨b, a, hb, ha, (Value.same_comm b a).trans hab⟩

theorem holds_sameValue_trans (hpq : (sameValue p q).holds v = true)
    (hqs : (sameValue q s).holds v = true) : (sameValue p s).holds v = true := by
  obtain ⟨a, b, ha, hb, hab⟩ := holds_sameValue_iff.mp hpq
  obtain ⟨b', c, hb', hc, hbc⟩ := holds_sameValue_iff.mp hqs
  obtain rfl : b = b' := Option.some.inj (hb.symm.trans hb')
  exact holds_sameValue_iff.mpr ⟨a, c, ha, hc, Value.same_trans hab hbc⟩

/-- The tag of one of two parts that are the same is a tag of the other. -/
theorem holds_typeIs_of_sameValue (h : (sameValue p q).holds v = true)
    (htag : (typeIs p tag).holds v = true) : (typeIs q tag).holds v = true := by
  obtain ⟨a, b, ha, hb, hab⟩ := holds_sameValue_iff.mp h
  rw [holds, ha, Option.any_some] at htag
  rw [holds, hb, Option.any_some, ← tag.admits_congr hab, htag]

theorem holds_tagGuards_of_sameValue (h : (sameValue p q).holds v = true)
    (htag : ∀ g ∈ tagGuards tag p, g.holds v = true) :
    ∀ g ∈ tagGuards tag q, g.holds v = true := by
  unfold tagGuards at htag ⊢
  split
  · exact fun g hg => absurd hg List.not_mem_nil
  · rw [if_neg ‹_›, List.forall_mem_singleton] at htag
    rw [List.forall_mem_singleton]
    exact holds_typeIs_of_sameValue h htag

end Guard

/-! ## Consistent occurrences -/

/-- Two occurrences of one variable lead to parts of the value that are the same. -/
def AgreeOn (v : Value) (e f : String × Path) : Prop :=
  e.1 = f.1 → (Guard.sameValue e.2 f.2).holds v = true

theorem AgreeOn.symm {v : Value} {e f : String × Path} (h : AgreeOn v e f) : AgreeOn v f e :=
  fun hname => Guard.holds_sameValue_symm (h hname.symm)

/-- Every occurrence of a variable has the tag of the variable, and any two of them are the
same. -/
structure Consistent (tags : List (String × Tag)) (v : Value) (os : List (String × Path)) :
    Prop where
  tagged : ∀ e ∈ os, ∀ g ∈ tagGuards (tagIn tags e.1) e.2, g.holds v = true
  agree : os.Pairwise (AgreeOn v)

namespace Consistent

variable {tags : List (String × Tag)} {v : Value} {os os' : List (String × Path)} {x : String}
  {p q : Path}

theorem nil : Consistent tags v [] := ⟨fun _ he => absurd he List.not_mem_nil, .nil⟩

/-- What is consistent stays so in another order, and when occurrences are left out. -/
theorem of_subperm (h : Consistent tags v os) (hsub : os'.Subperm os) :
    Consistent tags v os' := by
  refine ⟨fun e he => h.tagged e (hsub.subset he), ?_⟩
  obtain ⟨l, hperm, hsublist⟩ := hsub
  exact hperm.pairwise (h.agree.sublist hsublist) AgreeOn.symm

/-- A variable that occurs at two places has the same value at both. -/
theorem sameValue (h : Consistent tags v os) (hp : (x, p) ∈ os) (hq : (x, q) ∈ os)
    (hne : p ≠ q) : (Guard.sameValue p q).holds v = true := by
  have hsymm : Std.Symm (AgreeOn v) := ⟨fun _ _ => AgreeOn.symm⟩
  exact h.agree.forall hp hq (fun heq => hne (Prod.mk.inj heq).2) rfl

end Consistent

/-! ## Settling -/

/-- The guards for a further occurrence: the check of a tag when the variable is new, else
a comparison with its first occurrence. -/
def occurrenceGuards (tags : List (String × Tag)) (before : List (String × Path)) (x : String)
    (p : Path) : List Guard :=
  match before.lookup x with
  | none => tagGuards (tagIn tags x) p
  | some first => [.sameValue first p]

section Settle

variable {tags : List (String × Tag)} {v : Value} {b : Bindings} {before : List (String × Path)}
  {x : String} {p : Path} {ds : List Demand}

theorem settle_occurs (hb : ∀ x, b.find? x = before.lookup x) :
    (settle tags b (.occurs x p :: ds)).1 =
      occurrenceGuards tags before x p ++ (settle tags (b.bind x p).2 ds).1 := by
  rw [occurrenceGuards, ← hb x]
  cases hx : b.find? x with
  | none => rw [settle_fresh hx]
  | some first => rw [settle_repeated hx, Bindings.bind_of_find? hx]; rfl

/-- One more occurrence is consistent with those before it when its guards hold. -/
theorem consistent_concat_iff :
    Consistent tags v (before ++ [(x, p)]) ↔
      Consistent tags v before ∧ ∀ g ∈ occurrenceGuards tags before x p, g.holds v = true := by
  constructor
  · intro h
    have hlast : (x, p) ∈ before ++ [(x, p)] := List.mem_append_right _ List.mem_cons_self
    refine ⟨h.of_subperm (List.sublist_append_left _ _).subperm, ?_⟩
    rw [occurrenceGuards]
    cases hx : before.lookup x with
    | none => exact h.tagged (x, p) hlast
    | some first =>
      have hfirst : (x, first) ∈ before := mem_of_lookup hx
      obtain ⟨-, -, hcross⟩ := List.pairwise_append.mp h.agree
      rw [List.forall_mem_singleton]
      exact hcross _ hfirst _ List.mem_cons_self rfl
  · rintro ⟨h, hguards⟩
    rw [occurrenceGuards] at hguards
    cases hx : before.lookup x with
    | none =>
      rw [hx] at hguards
      have hnew : ∀ e ∈ before, e.1 ≠ x := fun e he hname => by
        simpa [hname] using List.lookup_eq_none_iff.mp hx e he
      refine ⟨?_, List.pairwise_append.mpr ⟨h.agree, List.pairwise_singleton _ _, ?_⟩⟩
      · exact List.forall_mem_append.mpr ⟨h.tagged, List.forall_mem_singleton.mpr hguards⟩
      · intro e he f hf hname
        rw [List.mem_singleton.mp hf] at hname
        exact absurd hname (hnew e he)
    | some first =>
      rw [hx, List.forall_mem_singleton] at hguards
      have hfirst : (x, first) ∈ before := mem_of_lookup hx
      refine ⟨?_, List.pairwise_append.mpr ⟨h.agree, List.pairwise_singleton _ _, ?_⟩⟩
      · -- The tag was checked at the first occurrence, which is the same as this one.
        have htag := Guard.holds_tagGuards_of_sameValue hguards (h.tagged _ hfirst)
        exact List.forall_mem_append.mpr ⟨h.tagged, List.forall_mem_singleton.mpr htag⟩
      · rintro ⟨y, q⟩ he f hf hname
        obtain rfl := List.mem_singleton.mp hf
        obtain rfl : y = x := hname
        by_cases hq : q = first
        · rw [hq]
          exact hguards
        · exact Guard.holds_sameValue_trans (h.sameValue he hfirst hq) hguards

/-- The guards of settled demands hold when those among the demands do and the occurrences
are consistent with what was bound before. -/
theorem holds_settle_iff (hb : ∀ x, b.find? x = before.lookup x)
    (hbefore : Consistent tags v before) :
    (∀ g ∈ (settle tags b ds).1, g.holds v = true) ↔
      (∀ g ∈ Demand.guards ds, g.holds v = true) ∧
        Consistent tags v (before ++ Demand.occurrences ds) := by
  induction ds generalizing b before with
  | nil => simpa [settle, Demand.guards, Demand.occurrences] using hbefore
  | cons d ds ih =>
    cases d with
    | guard g =>
      rw [settle, Demand.guards, Demand.occurrences, List.forall_mem_cons, List.forall_mem_cons,
        ih hb hbefore, and_assoc]
    | occurs x p =>
      rw [settle_occurs hb, Demand.guards, Demand.occurrences, List.forall_mem_append,
        List.append_cons]
      by_cases hguards : ∀ g ∈ occurrenceGuards tags before x p, g.holds v = true
      · rw [ih (Bindings.find?_bind_of_lookup hb x p)
          (consistent_concat_iff.mpr ⟨hbefore, hguards⟩)]
        exact and_iff_right hguards
      · refine iff_of_false (fun h => hguards h.1) fun h => hguards ?_
        have hprefix := h.2.of_subperm (List.sublist_append_left _ (Demand.occurrences ds)).subperm
        exact (consistent_concat_iff.mp hprefix).2

end Settle

/-! ## Demands in another order -/

namespace Demand

theorem mem_guards_iff {g : Guard} {ds : List Demand} : g ∈ guards ds ↔ .guard g ∈ ds := by
  induction ds with
  | nil => simp [guards]
  | cons d ds ih => cases d <;> simp [guards, ih]

def occurrence? : Demand → Option (String × Path)
  | guard _ => none
  | occurs x p => some (x, p)

theorem occurrences_eq_filterMap (ds : List Demand) :
    occurrences ds = ds.filterMap occurrence? := by
  induction ds with
  | nil => rfl
  | cons d ds ih => cases d <;> simp [occurrences, occurrence?, List.filterMap_cons, ih]

theorem occurrences_subperm {ds es : List Demand} (h : es.Subperm ds) :
    (occurrences es).Subperm (occurrences ds) := by
  obtain ⟨fs, hperm, hsub⟩ := h
  simp only [occurrences_eq_filterMap]
  exact ⟨fs.filterMap occurrence?, hperm.filterMap occurrence?, hsub.filterMap occurrence?⟩

end Demand

/-- What a plan accepts, said of the demands it was made from and of no order of them. -/
theorem accepts_iff_of_settle {plan : Plan} {tags : List (String × Tag)} {ds : List Demand}
    (h : plan.guards = (settle tags Bindings.empty ds).1) {v : Value} :
    plan.accepts v = true ↔
      (∀ g ∈ Demand.guards ds, g.holds v = true) ∧ Consistent tags v (Demand.occurrences ds) := by
  have hnone : ∀ x, Bindings.empty.find? x = ([] : List (String × Path)).lookup x :=
    Bindings.find?_empty
  rw [Plan.accepts_eq_all_holds, List.all_eq_true, h]
  exact holds_settle_iff hnone .nil

end Destructure
