/-
Lists put in another order.

The new order is given by the old positions, each at its new place.  One order can so be
applied to several lists, which keeps together what belongs together.
-/

namespace Destructure

/-- The entries at these positions, in this order. -/
def rearrange {β : Type} (order : List Nat) (xs : List β) : List β :=
  order.filterMap (xs[·]?)

variable {β γ : Type} {order : List Nat} {xs : List β} {ys : List γ}

theorem rearrange_cons (i : Nat) (order : List Nat) (xs : List β) :
    rearrange (i :: order) xs = xs[i]?.toList ++ rearrange order xs := by
  rw [rearrange, List.filterMap_cons]
  cases xs[i]? <;> rfl

/-- The order that leaves every entry in its place may name positions behind the last. -/
theorem rearrange_range {n : Nat} (h : xs.length ≤ n) : rearrange (List.range n) xs = xs := by
  induction n generalizing xs with
  | zero =>
    rw [List.length_eq_zero_iff.mp (Nat.le_zero.mp h)]
    rfl
  | succ n ih =>
    cases xs with
    | nil => exact List.filterMap_eq_nil_iff.mpr fun i _ => rfl
    | cons x xs =>
      have hrest : (List.range n).filterMap (xs[·]?) = xs := ih (by simpa using h)
      rw [List.range_succ_eq_map, rearrange_cons, rearrange, List.filterMap_map]
      exact congrArg (x :: ·) hrest

theorem rearrange_perm {n : Nat} (horder : order.Perm (List.range n)) (h : xs.length ≤ n) :
    (rearrange order xs).Perm xs := by
  have hperm : (rearrange order xs).Perm (rearrange (List.range n) xs) := horder.filterMap _
  rwa [rearrange_range h] at hperm

theorem map_rearrange (f : β → γ) (order : List Nat) (xs : List β) :
    (rearrange order xs).map f = rearrange order (xs.map f) := by
  rw [rearrange, rearrange, List.map_filterMap]
  exact congrArg (List.filterMap · order) (funext fun i => List.getElem?_map.symm)

theorem rearrange_zip (h : xs.length = ys.length) (order : List Nat) :
    rearrange order (xs.zip ys) = (rearrange order xs).zip (rearrange order ys) := by
  induction order with
  | nil => rfl
  | cons i order ih =>
    rw [rearrange_cons, rearrange_cons, rearrange_cons, ih]
    rcases Nat.lt_or_ge i xs.length with hi | hi
    · have hx : xs[i]? = some xs[i] := List.getElem?_eq_getElem hi
      have hy : ys[i]? = some ys[i] := List.getElem?_eq_getElem (h ▸ hi)
      have hzip : (xs.zip ys)[i]? = some (xs[i], ys[i]) :=
        List.getElem?_zip_eq_some.mpr ⟨hx, hy⟩
      rw [hzip, hx, hy]
      rfl
    · have hzip : (xs.zip ys).length ≤ i := by
        rw [List.length_zip]
        omega
      have hys : ys.length ≤ i := by omega
      rw [List.getElem?_eq_none hi, List.getElem?_eq_none hys, List.getElem?_eq_none hzip]
      rfl

/-- The entry at a place is the one that was at the position put there. -/
theorem getElem?_rearrange (h : ∀ i ∈ order, i < xs.length) (j : Nat) :
    (rearrange order xs)[j]? = order[j]?.bind (xs[·]?) := by
  induction order generalizing j with
  | nil => rfl
  | cons i order ih =>
    obtain ⟨hi, horder⟩ := List.forall_mem_cons.mp h
    rw [rearrange_cons, List.getElem?_eq_getElem hi]
    cases j with
    | zero => exact (List.getElem?_eq_getElem hi).symm
    | succ j => exact ih horder j

end Destructure
