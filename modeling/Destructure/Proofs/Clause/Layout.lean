/-
Layouts of shapes that differ in one place.

The layout of a composite shape is the layouts of its parts one after another, up to the
first that fails, whichever kind of parts they are.  Any relation between layouts that is
kept by putting them together therefore passes from a node to every shape that the node
stands in: `related_fill` says so for all places at once.

One such relation is `Covers`.  A layout covers another when the other succeeds with some
of its demands, in whatever order.  Discarding a node leaves some of the demands, and
listing named parts in another order leaves all of them.
-/
import Mathlib.Data.List.Perm.Subperm
import Destructure.Proofs.Clause.Parts
import Destructure.Shape.Context

namespace Destructure
namespace Shape

/-- What laying out a shape results in. -/
abbrev Layout := Except ClauseError (List Demand)

variable {r : Registry} {declared : List String} {t : TypeId} {arity i : Nat} {p : Path}

/-! ## Parts one after another -/

/-- The layouts of the parts in order, up to the first that fails. -/
def joined (parts : List Layout) : Layout := parts.foldr andThen (.ok [])

theorem joined_cons (x : Layout) (parts : List Layout) :
    joined (x :: parts) = andThen x (joined parts) := rfl

theorem ok_nil_andThen (x : Layout) : andThen (.ok []) x = x := by
  cases x <;> rfl

/-- The layout of an element at index `i`, for which there may be no step. -/
def itemLayout (r : Registry) (declared : List String) (p : Path) (i : Nat) (s : Shape) : Layout :=
  if i < Step.itemLimit then
    demands r declared (p.child (.item i)) s
  else
    .error (.unsupported .sequenceTooLong)

/-- The layout of an argument at position `i`, for which nothing is looked up when it is
discarded. -/
def argLayout (r : Registry) (declared : List String) (p : Path) (t : TypeId) (arity i : Nat) :
    Shape → Layout
  | discard => .ok []
  | s =>
    match r.argField t arity i with
    | .error e => .error e
    | .ok f => demands r declared (p.child f.step) s

def fieldLayout (r : Registry) (declared : List String) (p : Path) (t : TypeId) (name : String)
    (s : Shape) : Layout :=
  match r.field t name with
  | .error e => .error e
  | .ok f => demands r declared (p.child f.step) s

theorem argLayout_of_ne {s : Shape} (hs : s ≠ discard) :
    argLayout r declared p t arity i s =
      match r.argField t arity i with
      | .error e => .error e
      | .ok f => demands r declared (p.child f.step) s := by
  cases s <;> first | rfl | exact absurd rfl hs

theorem demandsItems_eq_joined (ss : List Shape) :
    demandsItems r declared p i ss =
      joined ((ss.zipIdx i).map fun e => itemLayout r declared p e.2 e.1) := by
  induction ss generalizing i with
  | nil => rfl
  | cons s ss ih =>
    rw [demandsItems, ih, List.zipIdx_cons, List.map_cons, joined_cons, itemLayout]
    split <;> rfl

theorem demandsEntries_eq_joined (es : List (String × Shape)) :
    demandsEntries r declared p es =
      joined (es.map fun e => demands r declared (p.child (.key e.1)) e.2) := by
  induction es with
  | nil => rfl
  | cons e es ih => rw [demandsEntries, ih, List.map_cons, joined_cons]

theorem demandsArgs_eq_joined (ss : List Shape) :
    demandsArgs r declared p t arity i ss =
      joined ((ss.zipIdx i).map fun e => argLayout r declared p t arity e.2 e.1) := by
  induction ss generalizing i with
  | nil => rfl
  | cons s ss ih =>
    rw [List.zipIdx_cons, List.map_cons, joined_cons, ← ih]
    by_cases hs : s = discard
    · rw [hs, demandsArgs]
      exact (ok_nil_andThen _).symm
    · rw [demandsArgs, argLayout_of_ne hs]
      · cases r.argField t arity i <;> rfl
      · exact hs

theorem demandsFields_eq_joined (es : List (String × Shape)) :
    demandsFields r declared p t es =
      joined (es.map fun e => fieldLayout r declared p t e.1 e.2) := by
  induction es with
  | nil => rfl
  | cons e es ih =>
    rw [demandsFields, ih, List.map_cons, joined_cons, fieldLayout]
    cases r.field t e.1 <;> rfl

/-! ## One place -/

theorem map_fst_append_cons (before after : List (String × Shape)) (name : String) (s : Shape) :
    (before ++ (name, s) :: after).map (·.1) = before.map (·.1) ++ name :: after.map (·.1) := by
  rw [List.map_append, List.map_cons]

/-- The relation holds between equal layouts and is kept by putting layouts together. -/
structure Compatible (Q : Layout → Layout → Prop) : Prop where
  refl : ∀ x, Q x x
  andThen : ∀ {x x' y y'}, Q x x' → Q y y' → Q (andThen x y) (andThen x' y')

theorem compatible_eq : Compatible Eq := ⟨fun _ => rfl, fun hx hy => by rw [hx, hy]⟩

section Related

variable {Q : Layout → Layout → Prop} (hQ : Compatible Q) {node node' : Shape}
include hQ

theorem related_joined {x x' : Layout} (h : Q x x') (before after : List Layout) :
    Q (joined (before ++ x :: after)) (joined (before ++ x' :: after)) := by
  induction before with
  | nil => exact hQ.andThen h (hQ.refl _)
  | cons y before ih => exact hQ.andThen (hQ.refl y) ih

theorem related_onPosition {x x' : Layout} (gs : List Guard) (h : Q x x') :
    Q (onPosition gs x) (onPosition gs x') :=
  hQ.andThen (hQ.refl _) h

theorem related_itemLayout {s s' : Shape}
    (h : ∀ q, Q (demands r declared q s) (demands r declared q s')) :
    Q (itemLayout r declared p i s) (itemLayout r declared p i s') := by
  rw [itemLayout, itemLayout]
  split
  · exact h _
  · exact hQ.refl _

theorem related_argLayout {s s' : Shape} (hread : s = discard ↔ s' = discard)
    (h : ∀ q, Q (demands r declared q s) (demands r declared q s')) :
    Q (argLayout r declared p t arity i s) (argLayout r declared p t arity i s') := by
  by_cases hs : s = discard
  · rw [hs, hread.mp hs]
    exact hQ.refl _
  · rw [argLayout_of_ne hs, argLayout_of_ne (mt hread.mpr hs)]
    cases r.argField t arity i with
    | error e => exact hQ.refl _
    | ok f => exact h _

theorem related_fieldLayout {name : String} {s s' : Shape}
    (h : ∀ q, Q (demands r declared q s) (demands r declared q s')) :
    Q (fieldLayout r declared p t name s) (fieldLayout r declared p t name s') := by
  rw [fieldLayout, fieldLayout]
  cases r.field t name with
  | error e => exact hQ.refl _
  | ok f => exact h _

/-- What relates the layouts of two nodes, as arguments too, relates those of two shapes
that differ in this node only. -/
theorem related_fill (hnode : ∀ q, Q (demands r declared q node) (demands r declared q node'))
    (harg : ∀ q t arity i, Q (argLayout r declared q t arity i node)
      (argLayout r declared q t arity i node')) (ctx : Context) (p : Path) :
    Q (demands r declared p (ctx.fill node)) (demands r declared p (ctx.fill node')) := by
  -- Only an open place that is itself the argument can hold a discarded one.
  have hinner : ∀ ctx : Context,
      (∀ q, Q (demands r declared q (ctx.fill node)) (demands r declared q (ctx.fill node'))) →
      ∀ q t arity i, Q (argLayout r declared q t arity i (ctx.fill node))
        (argLayout r declared q t arity i (ctx.fill node')) := by
    intro ctx hctx q t arity i
    cases ctx with
    | hole => exact harg q t arity i
    | _ => exact related_argLayout hQ ⟨nofun, nofun⟩ hctx
  induction ctx generalizing p with
  | hole => exact hnode p
  | item kind before inner after ih =>
    rw [Context.fill, Context.fill, demands, demands, demandsItems_eq_joined,
      demandsItems_eq_joined, List.length_append, List.length_append, List.zipIdx_append,
      List.zipIdx_append, List.map_append, List.map_append]
    exact related_onPosition hQ _ (related_joined hQ (related_itemLayout hQ ih) _ _)
  | entry before key inner after ih =>
    have hguards : ∀ es : List (String × Shape),
        (es.map fun e => Guard.hasKey p e.1) = (es.map (·.1)).map (Guard.hasKey p) :=
      fun es => by rw [List.map_map]; rfl
    rw [Context.fill, Context.fill, demands, demands, hguards, hguards, map_fst_append_cons,
      map_fst_append_cons]
    split
    · exact hQ.refl _
    · rw [demandsEntries_eq_joined, demandsEntries_eq_joined]
      simp only [List.map_append, List.map_cons]
      exact related_onPosition hQ _ (related_joined hQ (ih _) _ _)
  | arg t before inner after ih =>
    rw [Context.fill, Context.fill, demands, demands, List.length_append, List.length_append]
    simp only [List.length_cons]
    split
    · exact hQ.refl _
    · rw [demandsArgs_eq_joined, demandsArgs_eq_joined, List.zipIdx_append, List.zipIdx_append,
        List.map_append, List.map_append]
      exact related_onPosition hQ _ (related_joined hQ (hinner inner ih _ _ _ _) _ _)
  | argWith t before inner after fields ih =>
    rw [Context.fill, Context.fill, demands, demands, List.length_append, List.length_append]
    simp only [List.length_cons]
    split
    · exact hQ.refl _
    · rw [demandsArgs_eq_joined, demandsArgs_eq_joined, List.zipIdx_append, List.zipIdx_append,
        List.map_append, List.map_append]
      refine related_onPosition hQ _ (hQ.andThen ?_ (hQ.refl _))
      exact related_joined hQ (hinner inner ih _ _ _ _) _ _
  | field t args before name inner after ih =>
    rw [Context.fill, Context.fill, demands, demands, map_fst_append_cons, map_fst_append_cons]
    split
    · exact hQ.refl _
    · refine related_onPosition hQ _ (hQ.andThen (hQ.refl _) ?_)
      split
      · exact hQ.refl _
      · rw [demandsFields_eq_joined, demandsFields_eq_joined, List.map_append, List.map_append]
        exact related_joined hQ (related_fieldLayout hQ ih) _ _

end Related

/-! ## Fewer demands -/

/-- If the first layout succeeds then so does the second, with some of the demands of the
first, each no more often than there. -/
def Covers (x y : Layout) : Prop :=
  ∀ ds, x = .ok ds → ∃ es, y = .ok es ∧ es.Subperm ds

namespace Covers

variable {x y z : Layout}

theorem refl (x : Layout) : Covers x x := fun ds hds => ⟨ds, hds, .refl ds⟩

theorem trans (hxy : Covers x y) (hyz : Covers y z) : Covers x z := by
  intro ds hds
  obtain ⟨es, hes, hsub⟩ := hxy ds hds
  obtain ⟨fs, hfs, hsub'⟩ := hyz es hes
  exact ⟨fs, hfs, hsub'.trans hsub⟩

theorem of_error (e : ClauseError) (y : Layout) : Covers (.error e) y := nofun

/-- Nothing is left of a discarded node. -/
theorem ok_nil (x : Layout) : Covers x (.ok []) := fun _ _ => ⟨[], rfl, List.nil_subperm⟩

theorem of_perm {ds es : List Demand} (h : ds.Perm es) : Covers (.ok ds) (.ok es) := by
  intro fs hfs
  cases hfs
  exact ⟨es, rfl, h.symm.subperm⟩

theorem compatible : Compatible Covers where
  refl := Covers.refl
  andThen := by
    intro x x' y y' hx hy ds hds
    obtain ⟨es, fs, hes, hfs, rfl⟩ := andThen_eq_ok hds
    obtain ⟨es', hes', hsub⟩ := hx es hes
    obtain ⟨fs', hfs', hsub'⟩ := hy fs hfs
    exact ⟨es' ++ fs', by rw [hes', hfs']; rfl, hsub.append hsub'⟩

theorem andThen_comm (x y z : Layout) :
    Covers (andThen x (andThen y z)) (andThen y (andThen x z)) := by
  intro ds hds
  obtain ⟨es, gs, hes, hgs, rfl⟩ := andThen_eq_ok hds
  obtain ⟨fs, gs, hfs, hgs', rfl⟩ := andThen_eq_ok hgs
  refine ⟨fs ++ (es ++ gs), by rw [hes, hfs, hgs']; rfl, List.Perm.subperm ?_⟩
  rw [← List.append_assoc, ← List.append_assoc]
  exact List.perm_append_comm.append_right gs

theorem joined_of_perm {xs ys : List Layout} (h : xs.Perm ys) : Covers (joined xs) (joined ys) := by
  induction h with
  | nil => exact .refl _
  | cons x _ ih => exact compatible.andThen (.refl x) ih
  | swap x y zs => exact andThen_comm y x (joined zs)
  | trans _ _ first second => exact first.trans second

end Covers

theorem Context.fill_eq_discard_iff {ctx : Context} {node : Shape} :
    ctx.fill node = discard ↔ ctx = hole ∧ node = discard := by
  cases ctx <;> simp [fill]

theorem Reordered.eq_discard_iff {s s' : Shape} (h : Reordered s s') :
    s = discard ↔ s' = discard := by
  induction h with
  | refl s => exact Iff.rfl
  | entries perm => exact iff_of_false nofun nofun
  | fields perm => exact iff_of_false nofun nofun
  | inside ctx node ih =>
    rw [Context.fill_eq_discard_iff, Context.fill_eq_discard_iff, ih]
  | trans _ _ first second => exact first.trans second

/-- The layout of a shape covers that of one with its named parts in another order. -/
theorem Reordered.covers {s s' : Shape} (h : Reordered s s') (p : Path) :
    Covers (demands r declared p s) (demands r declared p s') := by
  induction h generalizing p with
  | refl s => exact .refl _
  | @entries entries entries' perm =>
    have hkeys : (entries.map (·.1)).Nodup ↔ (entries'.map (·.1)).Nodup :=
      (perm.map (·.1)).nodup_iff
    rw [demands, demands]
    cases hrepeated : firstRepeated (entries.map (·.1)) with
    | some key => exact .of_error _ _
    | none =>
      rw [firstRepeated_eq_none_iff.mpr (hkeys.mp (firstRepeated_eq_none_iff.mp hrepeated)),
        demandsEntries_eq_joined, demandsEntries_eq_joined]
      refine Covers.compatible.andThen (.of_perm ?_) (.joined_of_perm (perm.map _))
      exact ((perm.map fun e => Guard.hasKey p e.1).cons _).map Demand.guard
  | @fields t args fields fields' perm =>
    have hnames : (fields.map (·.1)).Nodup ↔ (fields'.map (·.1)).Nodup :=
      (perm.map (·.1)).nodup_iff
    rw [demands, demands]
    split
    · exact .refl _
    · refine related_onPosition Covers.compatible _ (Covers.compatible.andThen (.refl _) ?_)
      cases hrepeated : firstRepeated (fields.map (·.1)) with
      | some name => exact .of_error _ _
      | none =>
        rw [firstRepeated_eq_none_iff.mpr (hnames.mp (firstRepeated_eq_none_iff.mp hrepeated)),
          demandsFields_eq_joined, demandsFields_eq_joined]
        exact .joined_of_perm (perm.map _)
  | inside ctx node ih =>
    exact related_fill Covers.compatible ih
      (fun _ _ _ _ => related_argLayout Covers.compatible node.eq_discard_iff ih) ctx p
  | trans _ _ first second => exact (first p).trans (second p)

/-! ## Depth -/

theorem depthItems_append (ss ss' : List Shape) :
    depthItems (ss ++ ss') = max (depthItems ss) (depthItems ss') := by
  induction ss with
  | nil => exact (Nat.zero_max _).symm
  | cons s ss ih => rw [List.cons_append, depthItems, depthItems, ih, Nat.max_assoc]

theorem depthEntries_eq_depthItems (es : List (String × Shape)) :
    depthEntries es = depthItems (es.map (·.2)) := by
  induction es with
  | nil => rfl
  | cons e es ih => rw [depthEntries, ih, List.map_cons, depthItems]

theorem depthEntries_append (es es' : List (String × Shape)) :
    depthEntries (es ++ es') = max (depthEntries es) (depthEntries es') := by
  simp only [depthEntries_eq_depthItems, List.map_append, depthItems_append]

theorem depthEntries_perm {es es' : List (String × Shape)} (h : es.Perm es') :
    depthEntries es = depthEntries es' := by
  induction h with
  | nil => rfl
  | cons e _ ih => rw [depthEntries, depthEntries, ih]
  | swap e e' es => rw [depthEntries, depthEntries, depthEntries, depthEntries, Nat.max_left_comm]
  | trans _ _ first second => exact first.trans second

theorem depth_discard_le (node : Shape) : discard.depth ≤ node.depth := by
  cases node <;> simp [depth]

/-- A node that is no deeper makes no shape deeper. -/
theorem Context.depth_fill_le {node node' : Shape} (h : node'.depth ≤ node.depth)
    (ctx : Context) : (ctx.fill node').depth ≤ (ctx.fill node).depth := by
  induction ctx with
  | hole => exact h
  | item kind before inner after ih | arg t before inner after ih =>
    simp only [fill, depth, depthItems_append, depthItems]
    omega
  | entry before key inner after ih =>
    simp only [fill, depth, depthEntries_append, depthEntries]
    omega
  | argWith t before inner after fields ih =>
    simp only [fill, depth, depthItems_append, depthItems]
    omega
  | field t args before name inner after ih =>
    simp only [fill, depth, depthEntries_append, depthEntries]
    omega

theorem Reordered.depth_le {s s' : Shape} (h : Reordered s s') : s'.depth ≤ s.depth := by
  induction h with
  | refl s => exact Nat.le_refl _
  | entries perm | fields perm => simp only [depth, depthEntries_perm perm, Nat.le_refl]
  | inside ctx _ ih => exact ctx.depth_fill_le ih
  | trans _ _ first second => exact Nat.le_trans second first

end Shape
end Destructure
