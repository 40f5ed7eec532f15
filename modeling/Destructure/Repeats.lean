/-
The first repetition in a list.

Names of fields, keys and parameters must not repeat where they are declared,
and the report names the first one that does.
-/

namespace Destructure

/-- The first element of the list that is among `seen` or occurred earlier in the
list. -/
def repeatedAfter {α : Type} [DecidableEq α] (seen : List α) : List α → Option α
  | [] => none
  | x :: xs => if x ∈ seen then some x else repeatedAfter (x :: seen) xs

/-- The first element that occurred earlier in the list. -/
def firstRepeated {α : Type} [DecidableEq α] (xs : List α) : Option α := repeatedAfter [] xs

/-- The element occurs again, and no element has done so before it does. -/
def RepeatsFirst {α : Type} (xs : List α) (x : α) : Prop :=
  ∃ before after, xs = before ++ x :: after ∧ before.Nodup ∧ x ∈ before

variable {α : Type} [DecidableEq α] {xs seen : List α} {x : α}

theorem repeatedAfter_eq_none_iff :
    repeatedAfter seen xs = none ↔ xs.Nodup ∧ ∀ x ∈ xs, x ∉ seen := by
  induction xs generalizing seen with
  | nil => simp [repeatedAfter]
  | cons x xs ih =>
    by_cases hx : x ∈ seen
    · simp [repeatedAfter, hx]
    · simp only [repeatedAfter, hx, if_false, ih, List.nodup_cons, List.mem_cons, not_or,
        forall_eq_or_imp]
      constructor
      · rintro ⟨hnd, h⟩
        exact ⟨⟨fun hm => (h x hm).1 rfl, hnd⟩, not_false, fun y hy => (h y hy).2⟩
      · rintro ⟨⟨hm, hnd⟩, -, h⟩
        exact ⟨hnd, fun y hy => ⟨fun e => hm (e ▸ hy), h y hy⟩⟩

/-- Nothing is reported exactly when no element repeats. -/
theorem firstRepeated_eq_none_iff : firstRepeated xs = none ↔ xs.Nodup := by
  simp [firstRepeated, repeatedAfter_eq_none_iff]

/-- What is reported ends a part of the list in which nothing repeats or was seen. -/
theorem exists_of_repeatedAfter (h : repeatedAfter seen xs = some x) :
    ∃ before after, xs = before ++ x :: after ∧ before.Nodup ∧ (∀ y ∈ before, y ∉ seen) ∧
      x ∈ before ++ seen := by
  induction xs generalizing seen with
  | nil => simp [repeatedAfter] at h
  | cons y ys ih =>
    by_cases hy : y ∈ seen
    · simp only [repeatedAfter, hy, if_true, Option.some.injEq] at h
      subst h
      exact ⟨[], ys, rfl, List.nodup_nil, by simp, hy⟩
    · simp only [repeatedAfter, hy, if_false] at h
      obtain ⟨before, after, rfl, hnd, hunseen, hx⟩ := ih h
      have hfresh : y ∉ before := fun hm => hunseen y hm List.mem_cons_self
      have hall : ∀ z ∈ y :: before, z ∉ seen :=
        List.forall_mem_cons.mpr ⟨hy, fun z hz hs => hunseen z hz (List.mem_cons_of_mem y hs)⟩
      exact ⟨y :: before, after, rfl, List.nodup_cons.mpr ⟨hfresh, hnd⟩, hall,
        List.perm_middle.mem_iff.mp hx⟩

/-- The part of the list in which nothing repeats or was seen is passed over. -/
theorem repeatedAfter_append {before after : List α} (hnd : before.Nodup)
    (hunseen : ∀ y ∈ before, y ∉ seen) (hx : x ∈ before ++ seen) :
    repeatedAfter seen (before ++ x :: after) = some x := by
  induction before generalizing seen with
  | nil => exact if_pos hx
  | cons y before ih =>
    obtain ⟨hfresh, hnd⟩ := List.nodup_cons.mp hnd
    obtain ⟨hy, hrest⟩ := List.forall_mem_cons.mp hunseen
    have hall : ∀ z ∈ before, z ∉ y :: seen := by
      intro z hz hm
      rcases List.mem_cons.mp hm with rfl | hs
      · exact hfresh hz
      · exact hrest z hz hs
    rw [List.cons_append, repeatedAfter, if_neg hy]
    exact ih hnd hall (List.perm_middle.mem_iff.mpr hx)

/-- The scan reports exactly the first repetition. -/
theorem firstRepeated_eq_some_iff : firstRepeated xs = some x ↔ RepeatsFirst xs x := by
  constructor
  · intro h
    obtain ⟨before, after, hsplit, hnd, -, hx⟩ := exists_of_repeatedAfter h
    exact ⟨before, after, hsplit, hnd, by simpa using hx⟩
  · rintro ⟨before, after, rfl, hnd, hx⟩
    exact repeatedAfter_append hnd (fun y _ => List.not_mem_nil) (by simpa using hx)

theorem not_nodup_of_count (h : 1 < xs.count x) : ¬ xs.Nodup := by
  intro hxs
  have hle : xs.count x ≤ 1 := List.nodup_iff_count.mp hxs x
  omega

end Destructure
