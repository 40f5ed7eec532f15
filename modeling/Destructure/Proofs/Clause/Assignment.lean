/-
Only the tags of the variables matter.

The order of the parameters decides which of the body's tags each of them gets, and in which
order they are bound and handed over.  If the tags are put in the same order as the parameters,
every variable keeps its tag, and so every guard stays: the shape is laid out with nothing but
the set of the parameters, and is settled with nothing but their tags.  The bindings, and with
them the arguments of the body, come in the new order.

Together with the renaming of variables this leaves the tag of each variable as all that counts.
-/
import Destructure.Proofs.Clause.Renaming
import Destructure.Rearrange

namespace Destructure

/-! ## Tables in another order -/

section Tables

variable {β : Type} {es es' : List (String × β)}

theorem lookup_eq_some_iff_mem (h : (es.map (·.1)).Nodup) {x : String} {b : β} :
    es.lookup x = some b ↔ (x, b) ∈ es := by
  refine ⟨mem_of_lookup, fun hmem => ?_⟩
  induction es with
  | nil => exact absurd hmem List.not_mem_nil
  | cons e es ih =>
    obtain ⟨hfresh, hrest⟩ := List.nodup_cons.mp h
    rw [List.lookup_cons]
    rcases List.mem_cons.mp hmem with rfl | hmem
    · rw [beq_self_eq_true]
    · have hne : x ≠ e.1 := fun heq => hfresh (List.mem_map.mpr ⟨(x, b), hmem, heq⟩)
      rw [beq_false_of_ne hne]
      exact ih hrest hmem

/-- A table without repeated names answers the same in every order. -/
theorem lookup_eq_of_perm (hperm : es'.Perm es) (h : (es.map (·.1)).Nodup) (x : String) :
    es'.lookup x = es.lookup x := by
  have h' : (es'.map (·.1)).Nodup := (hperm.map (·.1)).nodup_iff.mpr h
  refine Option.ext fun b => ?_
  rw [lookup_eq_some_iff_mem h, lookup_eq_some_iff_mem h', hperm.mem_iff]

end Tables

/-- The variables are all that a shape is laid out with. -/
theorem Shape.demands_congr {r : Registry} {declared declared' : List String}
    (h : ∀ x, x ∈ declared' ↔ x ∈ declared) (p : Path) (s : Shape) :
    demands r declared' p s = demands r declared p s := by
  have hparallel : Parallel id s.mentions r r declared declared' (fun l l' => l' = l) :=
    { guards := fun gs => rfl
      repeatedKey := fun key => rfl
      tooLong := rfl
      repeatedField := fun name => rfl
      andThen := fun hx hy => by rw [hx, hy]
      constructor := fun t arity => .same fun e _ => rfl
      argField := fun t arity i => .same fun e _ => rfl
      field := fun t name => .same fun e _ => rfl
      var := fun x _ p => by
        rw [demands, demands]
        simp only [id, h x] }
  have hs := hparallel.demands_rename (List.Subset.refl s.mentions) p
  rwa [rename_id] at hs

/-! ## Parts in another order -/

namespace Path

variable {v : Value} {ps : List Path} {ws : List Value}

theorem resolveAll_eq_ok_iff :
    resolveAll v ps = .ok ws ↔ ps.map (resolve · v) = ws.map some := by
  refine ⟨map_resolve_of_resolveAll, fun h => ?_⟩
  induction ps generalizing ws with
  | nil =>
    rw [List.map_eq_nil_iff.mp h.symm]
    rfl
  | cons p ps ih =>
    cases ws with
    | nil => cases h
    | cons w ws =>
      obtain ⟨hp, hps⟩ := List.cons.inj h
      have hp : p.resolve v = some w := hp
      rw [resolveAll, hp, ih hps]
      rfl

/-- The parts come in the order of the paths, if there is one at every path. -/
theorem resolveAll_rearrange {order : List Nat} {n : Nat} (horder : order.Perm (List.range n))
    (hlen : ps.length ≤ n) (v : Value) :
    (∃ ws, resolveAll v ps = .ok ws ∧
        resolveAll v (rearrange order ps) = .ok (rearrange order ws)) ∨
      ∃ p p', resolveAll v ps = .error p ∧ resolveAll v (rearrange order ps) = .error p' := by
  cases hps : resolveAll v ps with
  | ok ws =>
    refine .inl ⟨ws, rfl, resolveAll_eq_ok_iff.mpr ?_⟩
    rw [map_rearrange, resolveAll_eq_ok_iff.mp hps, map_rearrange]
  | error p =>
    cases hps' : resolveAll v (rearrange order ps) with
    | error p' => exact .inr ⟨p, p', rfl, rfl⟩
    | ok ws' =>
      obtain ⟨hp, hnone⟩ := resolve_of_resolveAll_error hps
      have hmem : none ∈ (rearrange order ps).map (resolve · v) :=
        List.mem_map.mpr ⟨p, (rearrange_perm horder hlen).mem_iff.mpr hp, hnone⟩
      rw [resolveAll_eq_ok_iff.mp hps'] at hmem
      obtain ⟨w, -, hw⟩ := List.mem_map.mp hmem
      cases hw

end Path

namespace Args

/-- A value taken in a type. -/
def taken? (e : ArgType × Value) : Option ((t : ArgType) × t.Carrier) :=
  (e.1.read? e.2).map (Sigma.mk e.1)

theorem TakenFrom.map_some_toList {ts : Signature} {args : Args ts} {vs : List Value}
    (h : args.TakenFrom vs) :
    args.toList.map some = (ts.zip vs).map taken? ∧ ts.length = vs.length := by
  induction h with
  | nil => exact ⟨rfl, rfl⟩
  | @cons t ts x xs v vs head _ ih =>
    obtain ⟨hmap, hlen⟩ := ih
    have hhead : taken? (t, v) = some ⟨t, x⟩ := by rw [taken?, head]; rfl
    rw [toList, List.map_cons, List.zip_cons_cons, List.map_cons, hhead, hmap]
    exact ⟨rfl, congrArg (· + 1) hlen⟩

/-- Arguments taken in another order are the arguments in that order. -/
theorem TakenFrom.toList_rearrange {order : List Nat} {ts ts' : Signature} {xs : Args ts}
    {ys : Args ts'} {vs : List Value} (hts : ts' = rearrange order ts) (hxs : xs.TakenFrom vs)
    (hys : ys.TakenFrom (rearrange order vs)) : ys.toList = rearrange order xs.toList := by
  obtain ⟨hxs, hlen⟩ := hxs.map_some_toList
  obtain ⟨hys, -⟩ := hys.map_some_toList
  have hsome : ys.toList.map some = (rearrange order xs.toList).map some := by
    rw [hys, hts, ← rearrange_zip hlen, map_rearrange, ← hxs, map_rearrange]
  exact (List.map_inj_right fun _ _ => Option.some.inj).mp hsome

end Args

/-- The paths of the parameters, in their order. -/
theorem Bindings.forParams_eq_map {b : Bindings} {params : List String}
    {bindings : List (String × Path)} (h : b.forParams params = .ok bindings) :
    bindings = params.map fun x => (x, (b.find? x).getD Path.root) := by
  obtain ⟨hnames, hpaths⟩ := forParams_eq_ok h
  rw [← hnames, List.map_map]
  refine (List.map_id bindings).symm.trans (List.map_congr_left fun e he => ?_)
  show e = (e.1, (b.find? e.1).getD Path.root)
  rw [hpaths e he, Option.getD_some]

/-! ## Parameters in another order -/

namespace Clause

/-- The clause with its parameters in another order. -/
def rearrangeParams (c : Clause) (order : List Nat) : Clause :=
  { c with params := rearrange order c.params }

section Order

variable {c : Clause} {r : Registry} {limit : Nat} {tags : List Tag} {order : List Nat} {n : Nat}
  (horder : order.Perm (List.range n))
include horder

/-- Each parameter goes along with its tag. -/
theorem perm_zip_rearrange (harity : tags.length = c.params.length) (htags : tags.length ≤ n) :
    ((rearrange order c.params).zip (rearrange order tags)).Perm (c.params.zip tags) := by
  have hlen : (c.params.zip tags).length ≤ n := by
    rw [List.length_zip]
    omega
  rw [← rearrange_zip harity.symm]
  exact rearrange_perm horder hlen

theorem tagFor_rearrangeParams (hnodup : c.params.Nodup) (harity : tags.length = c.params.length)
    (htags : tags.length ≤ n) (x : String) :
    (c.rearrangeParams order).tagFor (rearrange order tags) x = c.tagFor tags x := by
  have hkeys : ((c.params.zip tags).map (·.1)).Nodup := by
    rwa [List.map_fst_zip (by omega)]
  have hlookup : ((rearrange order c.params).zip (rearrange order tags)).lookup x =
      (c.params.zip tags).lookup x :=
    lookup_eq_of_perm (perm_zip_rearrange horder harity htags) hkeys x
  rw [tagFor, tagFor, rearrangeParams, hlookup]
  rfl

variable (hparams : c.params.length ≤ n) (htags : tags.length ≤ n)
include hparams htags

theorem exists_checkParams_rearrangeParams_iff :
    (∃ assigned, (c.rearrangeParams order).checkParams (rearrange order tags) = .ok assigned) ↔
      ∃ assigned, c.checkParams tags = .ok assigned := by
  have hperm : (c.rearrangeParams order).params.Perm c.params := rearrange_perm horder hparams
  have hlen : (rearrange order tags).length = tags.length :=
    (rearrange_perm horder htags).length_eq
  rw [exists_checkParams_iff, exists_checkParams_iff, hperm.nodup_iff, hperm.length_eq, hlen]
  refine and_congr_right fun _ => and_congr_right fun harity => ?_
  have hzip : ((c.rearrangeParams order).params.zip (rearrange order tags)).Perm
      (c.params.zip tags) := perm_zip_rearrange horder harity htags
  simp only [hperm.mem_iff, hzip.mem_iff]
  rfl

/-- The plan of a clause with its parameters in another order has the same guards, and its
bindings in that order. -/
theorem plan_rearrangeParams {plan plan' : Plan} (h : c.compilePlan r limit tags = .ok plan)
    (h' : (c.rearrangeParams order).compilePlan r limit (rearrange order tags) = .ok plan') :
    plan'.guards = plan.guards ∧ plan'.bindings = rearrange order plan.bindings := by
  obtain ⟨assigned, ds, hcheck, -, hds, hguards, hbindings⟩ := compilePlan_eq_ok h
  obtain ⟨assigned', ds', hcheck', -, hds', hguards', hbindings'⟩ := compilePlan_eq_ok h'
  obtain ⟨hnodup, harity, -, hassigned⟩ := checkParams_eq_ok hcheck
  obtain ⟨-, -, -, hassigned'⟩ := checkParams_eq_ok hcheck'
  have hperm : (c.rearrangeParams order).params.Perm c.params := rearrange_perm horder hparams
  have hdemands : c.shape.demands r (c.rearrangeParams order).params Path.root =
      c.shape.demands r c.params Path.root :=
    Shape.demands_congr (fun x => hperm.mem_iff) Path.root c.shape
  obtain rfl : ds = ds' := Except.ok.inj (hds.symm.trans (hdemands.symm.trans hds'))
  have htag : ∀ x, tagIn assigned' x = tagIn assigned x := by
    intro x
    rw [lookup_paramTags hassigned, lookup_paramTags hassigned',
      tagFor_rearrangeParams horder hnodup harity htags]
  have hsettle : settle assigned' Bindings.empty ds = settle assigned Bindings.empty ds :=
    settle_congr htag Bindings.empty ds
  rw [hsettle] at hguards' hbindings'
  refine ⟨hguards'.trans hguards.symm, ?_⟩
  rw [Bindings.forParams_eq_map hbindings', Bindings.forParams_eq_map hbindings, ← map_rearrange]
  rfl

end Order

/-- What two arms with the same bindings in another order get out of a value. -/
inductive FedRearranged {α β : Type} (order : List Nat) (arm : Arm α) (arm' : Arm β) (v : Value) :
    Prop
  | missing (p p' : Path) (fails : arm.extract v = .error (.noValueAt p))
      (fails' : arm'.extract v = .error (.noValueAt p'))
  | ran (xs : Args arm.body.signature) (ys : Args arm'.body.signature) (runs : arm.RunsOn v xs)
      (runs' : arm'.RunsOn v ys) (moved : ys.toList = rearrange order xs.toList)

section Bodies

variable {α β : Type} {c c' : Clause} {r : Registry} {limit : Nat} {body : Body α} {body' : Body β}
  {arm : Arm α} {arm' : Arm β} {order : List Nat} {n : Nat}

theorem tags_of_signature (h : body'.signature = rearrange order body.signature) :
    body'.tags = rearrange order body.tags := by
  rw [Body.tags, Body.tags, h, map_rearrange]

theorem exists_compile_rearrangeParams_iff (horder : order.Perm (List.range n))
    (hparams : c.params.length ≤ n) (hlen : body.signature.length ≤ n)
    (hsignature : body'.signature = rearrange order body.signature) :
    (∃ arm', (c.rearrangeParams order).compile r limit body' = .ok arm') ↔
      ∃ arm, c.compile r limit body = .ok arm := by
  have htags : body.tags.length ≤ n := by rwa [Body.tags, List.length_map]
  have hperm : (c.rearrangeParams order).params.Perm c.params := rearrange_perm horder hparams
  have hshape : (c.rearrangeParams order).shape = c.shape := rfl
  rw [exists_compile_iff, exists_compile_iff, tags_of_signature hsignature, hshape,
    exists_checkParams_rearrangeParams_iff horder hparams htags,
    Shape.demands_congr fun x => hperm.mem_iff]
  simp only [hperm.mem_iff]

theorem fedRearranged (horder : order.Perm (List.range n)) (hlen : arm.bindings.length ≤ n)
    (hsignature : body'.signature = rearrange order body.signature)
    (h : c.compile r limit body = .ok arm) (h' : c'.compile r limit body' = .ok arm')
    (hbindings : arm'.bindings = rearrange order arm.bindings) {v : Value}
    (hv : arm.accepts v = true) (hv' : arm'.accepts v = true) : FedRearranged order arm arm' v := by
  obtain ⟨-, rfl⟩ := compile_eq_ok h
  obtain ⟨-, rfl⟩ := compile_eq_ok h'
  have hparts' : arm'.parts v = Path.resolveAll v (rearrange order (arm.bindings.map (·.2))) := by
    rw [Plan.parts, hbindings, map_rearrange]
  have hpaths : (arm.bindings.map (·.2)).length ≤ n := by rwa [List.length_map]
  rcases Path.resolveAll_rearrange horder hpaths v with ⟨ws, hws, hws'⟩ | ⟨p, p', hp, hp'⟩
  · obtain ⟨xs, hxs, hruns⟩ := exists_runsOn_of_parts h hv hws
    obtain ⟨ys, hys, hruns'⟩ := exists_runsOn_of_parts h' hv' (hparts'.trans hws')
    exact .ran xs ys hruns hruns' (hxs.toList_rearrange hsignature hys)
  · exact .missing p p' (Arm.extract_of_parts_eq_error hp)
      (Arm.extract_of_parts_eq_error (hparts'.trans hp'))

end Bodies

/-- Names and the order of the parameters do not matter.  With its variables renamed, whatever
keeps their names apart, a clause compiles to the same guards and binds the renamed variables
where it bound the old ones; with its parameters in another order, for a body that takes its
arguments in that order, it compiles to the same guards and hands over the same arguments in
the new order. -/
theorem only_assignment_matters {α : Type} (c : Clause) (r : Registry) (limit : Nat)
    (body : Body α) :
    (∀ σ : String → String, Set.InjOn σ {x | x ∈ c.names} →
      ((∃ arm, (c.rename σ).compile r limit body = .ok arm) ↔
          ∃ arm, c.compile r limit body = .ok arm) ∧
        (∀ e, c.compile r limit body = .error e →
          (c.rename σ).compile r limit body = .error (e.rename σ)) ∧
        ∀ arm arm', c.compile r limit body = .ok arm →
          (c.rename σ).compile r limit body = .ok arm' →
            arm'.guards = arm.guards ∧ arm'.bindings = renameKeys σ arm.bindings ∧
              arm'.body = arm.body) ∧
      ∀ {β : Type} (body' : Body β) (order : List Nat) (n : Nat), order.Perm (List.range n) →
        c.params.length ≤ n → body.signature.length ≤ n →
        body'.signature = rearrange order body.signature →
          let c' := c.rearrangeParams order
          ((∃ arm', c'.compile r limit body' = .ok arm') ↔
              ∃ arm, c.compile r limit body = .ok arm) ∧
            ∀ arm arm', c.compile r limit body = .ok arm → c'.compile r limit body' = .ok arm' →
              arm'.guards = arm.guards ∧ arm'.bindings = rearrange order arm.bindings ∧
                ∀ v, arm'.accepts v = arm.accepts v ∧
                  (arm.accepts v = true → FedRearranged order arm arm' v) := by
  refine ⟨fun σ hσ => ?renamed, fun body' order n horder hparams hlen hsignature => ?rearranged⟩
  case renamed =>
    have hrename := compile_rename hσ r limit body
    refine ⟨by rw [hrename, exists_renameResult_eq_ok_iff], fun e he => ?_, fun arm arm' h h' => ?_⟩
    · rw [hrename, he, renameResult]
    · rw [hrename, h, renameResult] at h'
      cases h'
      exact ⟨rfl, rfl, rfl⟩
  case rearranged =>
    refine ⟨exists_compile_rearrangeParams_iff horder hparams hlen hsignature,
      fun arm arm' h h' => ?_⟩
    obtain ⟨hplan, -⟩ := compile_eq_ok h
    obtain ⟨hplan', -⟩ := compile_eq_ok h'
    have htags : body.tags.length ≤ n := by rwa [Body.tags, List.length_map]
    rw [tags_of_signature hsignature] at hplan'
    obtain ⟨hguards, hbindings⟩ := plan_rearrangeParams horder hparams htags hplan hplan'
    have haccepts : ∀ v, arm'.accepts v = arm.accepts v := fun v => by
      rw [Plan.accepts, Plan.accepts, hguards]
    refine ⟨hguards, hbindings, fun v => ⟨haccepts v, fun hv => ?_⟩⟩
    have hbound : arm.bindings.length ≤ n := by
      obtain ⟨assigned, ds, -, -, -, -, hbound⟩ := compilePlan_eq_ok hplan
      rwa [Bindings.forParams_eq_map hbound, List.length_map]
    exact fedRearranged horder hbound hsignature h h' hbindings hv ((haccepts v).trans hv)

/-- Something twice, with the abscissa of a point in between. -/
def between : Clause :=
  (ofParams ["a", "b"]
    (.sequence .list [.var "a", .construct ⟨0⟩ [.var "b", .discard], .var "a"])).declare "b" .int

def valueAndInt : Body (Value × Int64) :=
  ⟨"pair", [.value, .int], fun | .cons v (.cons n .nil) => (v, n)⟩

def intAndValue : Body (Int64 × Value) :=
  ⟨"pair", [.int, .value], fun | .cons n (.cons v .nil) => (n, v)⟩

/-- Renamed so that only these two names stay apart, and with the parameters swapped. -/
theorem only_assignment_matters_between :
    let σ : String → String := fun x => if x = "a" then "b" else "c"
    let v := Value.list [.unit, .object ⟨0⟩ "Point" [.int 3, .float .nan], .unit]
    Set.InjOn σ {x | x ∈ between.names} ∧ [1, 0].Perm (List.range 2) ∧
      ∃ arm renamed swapped, between.compile points 3 valueAndInt = .ok arm ∧
        (between.rename σ).compile points 3 valueAndInt = .ok renamed ∧
        (between.rearrangeParams [1, 0]).compile points 3 intAndValue = .ok swapped ∧
        renamed.guards = arm.guards ∧
        renamed.bindings = [("b", [.item 0]), ("c", [.item 1, .field 0 "x"])] ∧
        swapped.guards = arm.guards ∧
        swapped.bindings = [("b", [.item 1, .field 0 "x"]), ("a", [.item 0])] ∧
        swapped.accepts v = true ∧ FedRearranged [1, 0] arm swapped v := by
  intro σ v
  have hσ : Set.InjOn σ {x | x ∈ between.names} := by
    have hnames : ∀ x ∈ between.names, x = "a" ∨ x = "b" := by decide
    intro x hx y hy hxy
    rcases hnames x hx with rfl | rfl <;> rcases hnames y hy with rfl | rfl
    · rfl
    · exact absurd hxy (by decide)
    · exact absurd hxy (by decide)
    · rfl
  have horder : [1, 0].Perm (List.range 2) := by decide
  obtain ⟨hrenamed, hrearranged⟩ := only_assignment_matters between points 3 valueAndInt
  obtain ⟨-, -, hrename⟩ := hrenamed σ hσ
  obtain ⟨-, hswap⟩ :=
    hrearranged intAndValue [1, 0] 2 horder (by decide) (by decide) rfl
  obtain ⟨hguards, hbindings, -⟩ := hrename _ _ rfl rfl
  obtain ⟨hguards', hbindings', hvalues⟩ := hswap _ _ rfl rfl
  obtain ⟨haccepts, hfed⟩ := hvalues v
  exact ⟨hσ, horder, _, _, _, rfl, rfl, rfl, hguards, hbindings, hguards', hbindings',
    haccepts.trans (by decide), hfed (by decide)⟩

end Clause

end Destructure
