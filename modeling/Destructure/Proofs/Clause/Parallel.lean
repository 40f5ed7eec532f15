/-
One shape laid out twice.

The two layouts may be against different registries and for different declared variables,
and the second is of the shape with its variables renamed.  They still go through the same
nodes in the same order and make their lookups at the same places.  So a relation between
their results only has to be shown where the two can differ: at a lookup and at a wildcard.
`Parallel` lists what is needed there, and `Parallel.demands_rename` carries the relation
through every shape.
-/
import Destructure.Clause.Rename
import Destructure.Proofs.Clause.Layout

namespace Destructure
namespace Shape

/-! ## Renamed shapes -/

section Rename

variable (σ : String → String)

theorem renameItems_eq_map (ss : List Shape) : renameItems σ ss = ss.map (rename σ) := by
  induction ss with
  | nil => rfl
  | cons s ss ih => rw [renameItems, ih, List.map_cons]

theorem renameEntries_eq_map (es : List (String × Shape)) :
    renameEntries σ es = es.map fun e => (e.1, e.2.rename σ) := by
  induction es with
  | nil => rfl
  | cons e es ih => rw [renameEntries, ih, List.map_cons]

theorem length_renameItems (ss : List Shape) : (renameItems σ ss).length = ss.length := by
  rw [renameItems_eq_map, List.length_map]

theorem map_fst_renameEntries (es : List (String × Shape)) :
    (renameEntries σ es).map (·.1) = es.map (·.1) := by
  rw [renameEntries_eq_map, List.map_map]
  rfl

theorem rename_eq_discard_iff {s : Shape} : s.rename σ = discard ↔ s = discard := by
  cases s <;> simp [rename]

end Rename

theorem renameItems_id {ss : List Shape} (h : ∀ s ∈ ss, s.rename id = s) :
    renameItems id ss = ss := by
  rw [renameItems_eq_map]
  exact (List.map_congr_left h).trans (List.map_id ss)

theorem renameEntries_id {es : List (String × Shape)} (h : ∀ e ∈ es, e.2.rename id = e.2) :
    renameEntries id es = es := by
  have hentry : ∀ e ∈ es, (e.1, e.2.rename id) = id e := fun e he => by rw [h e he]; rfl
  rw [renameEntries_eq_map]
  exact (List.map_congr_left hentry).trans (List.map_id es)

theorem rename_id (s : Shape) : s.rename id = s := by
  induction s with
  | discard | literal v | var x => rfl
  | sequence kind items ih => rw [rename, renameItems_id ih]
  | map entries ih => rw [rename, renameEntries_id ih]
  | construct t args ih => rw [rename, renameItems_id ih]
  | constructWith t args fields iha ihf => rw [rename, renameItems_id iha, renameEntries_id ihf]

/-! ## Lookups and what is laid out after them -/

section Bind

variable {r : Registry} {declared : List String} {p : Path} {t : TypeId}

theorem andThen_eq_bind (x y : Layout) :
    andThen x y = x.bind fun ds => y.bind fun es => .ok (ds ++ es) := by
  cases x with
  | error e => rfl
  | ok ds => cases y <;> rfl

theorem demands_construct (args : List Shape) :
    demands r declared p (.construct t args) =
      (r.constructor t args.length).bind fun _ =>
        onPosition [.typeIs p (.object t)]
          (demandsArgs r declared p t args.length 0 args) := by
  rw [demands]
  cases r.constructor t args.length <;> rfl

theorem demands_constructWith (args : List Shape) (fields : List (String × Shape)) :
    demands r declared p (.constructWith t args fields) =
      (r.constructor t args.length).bind fun _ =>
        onPosition [.typeIs p (.object t)]
          (andThen (demandsArgs r declared p t args.length 0 args)
            (match firstRepeated (fields.map (·.1)) with
            | some name => .error (.unsupported (.repeatedField name))
            | none => demandsFields r declared p t fields)) := by
  rw [demands]
  cases r.constructor t args.length <;> rfl

theorem demandsArgs_cons {arity i : Nat} {s : Shape} (hs : s ≠ discard) (ss : List Shape) :
    demandsArgs r declared p t arity i (s :: ss) =
      (r.argField t arity i).bind fun f =>
        andThen (demands r declared (p.child f.step) s)
          (demandsArgs r declared p t arity (i + 1) ss) := by
  rw [demandsArgs]
  · cases r.argField t arity i <;> rfl
  · exact hs

theorem demandsFields_cons (name : String) (s : Shape) (ss : List (String × Shape)) :
    demandsFields r declared p t ((name, s) :: ss) =
      (r.field t name).bind fun f =>
        andThen (demands r declared (p.child f.step) s) (demandsFields r declared p t ss) := by
  rw [demandsFields]
  cases r.field t name <;> rfl

end Bind

/-! ## Parallel layouts -/

/-- Whatever is laid out with what two lookups found, the results are related. -/
def Follow (Q : Layout → Layout → Prop) {β : Type} (x x' : Except ClauseError β) : Prop :=
  ∀ k k' : β → Layout, (∀ b, Q (k b) (k' b)) → Q (x.bind k) (x'.bind k')

/-- Of a lookup that is made twice only the error has to be related. -/
theorem Follow.same {Q : Layout → Layout → Prop} {β : Type} {x : Except ClauseError β}
    (herror : ∀ e, x = .error e → Q (.error e) (.error e)) : Follow Q x x := by
  intro k k' hk
  cases x with
  | error e => exact herror e rfl
  | ok b => exact hk b

/-- What keeps two layouts of one shape related, the second against another registry and for
other declared variables, with those in `names` renamed. -/
structure Parallel (σ : String → String) (names : List String) (r r' : Registry)
    (declared declared' : List String) (Q : Layout → Layout → Prop) : Prop where
  guards : ∀ gs : List Guard, Q (.ok (gs.map .guard)) (.ok (gs.map .guard))
  repeatedKey : ∀ key, Q (.error (.unsupported (.repeatedKey key)))
    (.error (.unsupported (.repeatedKey key)))
  tooLong : Q (.error (.unsupported .sequenceTooLong)) (.error (.unsupported .sequenceTooLong))
  repeatedField : ∀ name, Q (.error (.unsupported (.repeatedField name)))
    (.error (.unsupported (.repeatedField name)))
  andThen : ∀ {x x' y y'}, Q x x' → Q y y' → Q (andThen x y) (andThen x' y')
  constructor : ∀ t arity, Follow Q (r.constructor t arity) (r'.constructor t arity)
  argField : ∀ t arity i, Follow Q (r.argField t arity i) (r'.argField t arity i)
  field : ∀ t name, Follow Q (r.field t name) (r'.field t name)
  var : ∀ x ∈ names, ∀ p, Q (demands r declared p (.var x)) (demands r' declared' p (.var (σ x)))

namespace Parallel

variable {σ : String → String} {names : List String} {r r' : Registry}
  {declared declared' : List String} {Q : Layout → Layout → Prop}
  (h : Parallel σ names r r' declared declared' Q) {p : Path} {t : TypeId}
include h

theorem onPosition (gs : List Guard) {x x' : Layout} (hx : Q x x') :
    Q (onPosition gs x) (onPosition gs x') :=
  h.andThen (h.guards gs) hx

theorem demandsItems {ss : List Shape}
    (hss : ∀ s ∈ ss, ∀ p, Q (demands r declared p s) (demands r' declared' p (s.rename σ)))
    (i : Nat) :
    Q (demandsItems r declared p i ss) (demandsItems r' declared' p i (renameItems σ ss)) := by
  induction ss generalizing i with
  | nil => exact h.guards []
  | cons s ss ih =>
    obtain ⟨hs, hss⟩ := List.forall_mem_cons.mp hss
    rw [renameItems, Shape.demandsItems, Shape.demandsItems]
    split
    · exact h.andThen (hs _) (ih hss (i + 1))
    · exact h.tooLong

theorem demandsEntries {es : List (String × Shape)}
    (hes : ∀ e ∈ es, ∀ p, Q (demands r declared p e.2) (demands r' declared' p (e.2.rename σ))) :
    Q (demandsEntries r declared p es) (demandsEntries r' declared' p (renameEntries σ es)) := by
  induction es with
  | nil => exact h.guards []
  | cons e es ih =>
    obtain ⟨he, hes⟩ := List.forall_mem_cons.mp hes
    rw [renameEntries, Shape.demandsEntries, Shape.demandsEntries]
    exact h.andThen (he _) (ih hes)

theorem demandsArgs {ss : List Shape}
    (hss : ∀ s ∈ ss, ∀ p, Q (demands r declared p s) (demands r' declared' p (s.rename σ)))
    (arity i : Nat) :
    Q (demandsArgs r declared p t arity i ss)
      (demandsArgs r' declared' p t arity i (renameItems σ ss)) := by
  induction ss generalizing i with
  | nil => exact h.guards []
  | cons s ss ih =>
    obtain ⟨hs, hss⟩ := List.forall_mem_cons.mp hss
    rw [renameItems]
    by_cases hdiscard : s = discard
    · rw [hdiscard, rename, Shape.demandsArgs, Shape.demandsArgs]
      exact ih hss (i + 1)
    · rw [demandsArgs_cons hdiscard, demandsArgs_cons (mt (rename_eq_discard_iff σ).mp hdiscard)]
      exact h.argField t arity i _ _ fun f => h.andThen (hs _) (ih hss (i + 1))

theorem demandsFields {es : List (String × Shape)}
    (hes : ∀ e ∈ es, ∀ p, Q (demands r declared p e.2) (demands r' declared' p (e.2.rename σ))) :
    Q (demandsFields r declared p t es) (demandsFields r' declared' p t (renameEntries σ es)) := by
  induction es with
  | nil => exact h.guards []
  | cons e es ih =>
    obtain ⟨he, hes⟩ := List.forall_mem_cons.mp hes
    rw [renameEntries, demandsFields_cons, demandsFields_cons]
    exact h.field t e.1 _ _ fun f => h.andThen (he _) (ih hes)

/-- The two layouts of a shape are related. -/
theorem demands_rename {s : Shape} (hs : s.mentions ⊆ names) (p : Path) :
    Q (demands r declared p s) (demands r' declared' p (s.rename σ)) := by
  induction s generalizing p with
  | discard => exact h.guards []
  | literal v => exact h.guards [.eqLiteral p v]
  | var x => exact h.var x (hs List.mem_cons_self) p
  | sequence kind items ih =>
    have hitems : ∀ s ∈ items, ∀ p,
        Q (demands r declared p s) (demands r' declared' p (s.rename σ)) :=
      fun s hmem => ih s hmem (List.Subset.trans (mentions_subset_mentionsItems hmem) hs)
    rw [rename, demands, demands, length_renameItems]
    exact h.onPosition _ (h.demandsItems hitems 0)
  | map entries ih =>
    have hentries : ∀ e ∈ entries, ∀ p,
        Q (demands r declared p e.2) (demands r' declared' p (e.2.rename σ)) :=
      fun e hmem => ih e hmem (List.Subset.trans (mentions_subset_mentionsEntries hmem) hs)
    have hkeys : ∀ es : List (String × Shape),
        (es.map fun e => Guard.hasKey p e.1) = (es.map (·.1)).map (Guard.hasKey p) :=
      fun es => by rw [List.map_map]; rfl
    rw [rename, demands, demands, hkeys, hkeys, map_fst_renameEntries]
    cases firstRepeated (entries.map (·.1)) with
    | some key => exact h.repeatedKey key
    | none => exact h.onPosition _ (h.demandsEntries hentries)
  | construct t args ih =>
    have hargs : ∀ s ∈ args, ∀ p,
        Q (demands r declared p s) (demands r' declared' p (s.rename σ)) :=
      fun s hmem => ih s hmem (List.Subset.trans (mentions_subset_mentionsItems hmem) hs)
    rw [rename, demands_construct, demands_construct, length_renameItems]
    exact h.constructor t args.length _ _ fun _ => h.onPosition _ (h.demandsArgs hargs _ 0)
  | constructWith t args fields iha ihf =>
    rw [mentions] at hs
    obtain ⟨hsargs, hsfields⟩ := List.append_subset.mp hs
    have hargs : ∀ s ∈ args, ∀ p,
        Q (demands r declared p s) (demands r' declared' p (s.rename σ)) :=
      fun s hmem => iha s hmem (List.Subset.trans (mentions_subset_mentionsItems hmem) hsargs)
    have hfields : ∀ e ∈ fields, ∀ p,
        Q (demands r declared p e.2) (demands r' declared' p (e.2.rename σ)) :=
      fun e hmem => ihf e hmem (List.Subset.trans (mentions_subset_mentionsEntries hmem) hsfields)
    rw [rename, demands_constructWith, demands_constructWith, length_renameItems,
      map_fst_renameEntries]
    refine h.constructor t args.length _ _ fun _ => h.onPosition _ ?_
    refine h.andThen (h.demandsArgs hargs _ 0) ?_
    cases firstRepeated (fields.map (·.1)) with
    | some name => exact h.repeatedField name
    | none => exact h.demandsFields hfields

end Parallel

end Shape
end Destructure
