/-
Places in a shape.

A context is a shape with one place left open.  A node that fills the place stands at the
top of the shape or at any depth in it, and another node in the same place gives a shape
that differs there and nowhere else.

The entries of a map and the named fields of an instance are told apart by their names, so
they may be listed in another order.  Two shapes that differ in such orders only, in any
number of nodes, are related by `Reordered`.
-/
import Destructure.Shape

namespace Destructure
namespace Shape

/-- A shape with one place open, which any node may fill. -/
inductive Context where
  | hole
  | item (kind : SequenceKind) (before : List Shape) (inner : Context) (after : List Shape)
  | entry (before : List (String × Shape)) (key : String) (inner : Context)
      (after : List (String × Shape))
  | arg (type : TypeId) (before : List Shape) (inner : Context) (after : List Shape)
  | argWith (type : TypeId) (before : List Shape) (inner : Context) (after : List Shape)
      (fields : List (String × Shape))
  | field (type : TypeId) (args : List Shape) (before : List (String × Shape)) (name : String)
      (inner : Context) (after : List (String × Shape))

/-- The shape with the node in the open place. -/
def Context.fill : Context → Shape → Shape
  | hole, node => node
  | item kind before inner after, node => .sequence kind (before ++ inner.fill node :: after)
  | entry before key inner after, node => .map (before ++ (key, inner.fill node) :: after)
  | arg t before inner after, node => .construct t (before ++ inner.fill node :: after)
  | argWith t before inner after fields, node =>
    .constructWith t (before ++ inner.fill node :: after) fields
  | field t args before name inner after, node =>
    .constructWith t args (before ++ (name, inner.fill node) :: after)

/-- The same shape, up to the order of the entries of its maps and of the named fields of
its constructions. -/
inductive Reordered : Shape → Shape → Prop
  | refl (s : Shape) : Reordered s s
  | entries {entries entries' : List (String × Shape)} (perm : entries.Perm entries') :
      Reordered (.map entries) (.map entries')
  | fields {t : TypeId} {args : List Shape} {fields fields' : List (String × Shape)}
      (perm : fields.Perm fields') :
      Reordered (.constructWith t args fields) (.constructWith t args fields')
  | inside (ctx : Context) {s s' : Shape} (node : Reordered s s') :
      Reordered (ctx.fill s) (ctx.fill s')
  | trans {s s' s'' : Shape} (first : Reordered s s') (second : Reordered s' s'') :
      Reordered s s''

theorem Reordered.symm {s s' : Shape} (h : Reordered s s') : Reordered s' s := by
  induction h with
  | refl s => exact .refl s
  | entries perm => exact .entries perm.symm
  | fields perm => exact .fields perm.symm
  | inside ctx _ ih => exact .inside ctx ih
  | trans _ _ first second => exact .trans second first

end Shape
end Destructure
