import Feather.OrderedTree.Build
import Feather.XML.Traversal

/-!
# New nodes

Making a node and adding it to an element in a store `F ++ g`, in which `F` holds the documents
given and `g` the trees made.
-/

namespace Feather.XML

open OrderedTree Forest Program

theorem exec_newNode (w : World) (f : Nodes) :
    exec (newNode f) w = some (.ok (w.trees.fresh, w.add f)) := rfl

theorem exec_newNode_single (w : World) (b : Label) :
    exec (newNode (single 0 b)) w =
      some (.ok (w.trees.fresh, w.add (single 0 b))) :=
  exec_newNode w _

theorem World.trees_add_single (w : World) (b : Label) :
    (w.add (single 0 b)).trees = w.trees ++ single w.trees.fresh b :=
  congrArg (w.trees ++ ·) (renumber_single _ 0 b)

theorem exec_addChild {F f g : Nodes} {w : World} {m n : Node Tag Content} {t : Tag} {p : NodeID}
    (hw : w.trees = F ++ (f ++ (m.tree ++ g))) (hp : (f ++ g).find? p = some n)
    (ht : n.label = .inl t) :
    ∃ w', exec (addChild p m.id) w = some (.ok ((), w')) ∧
      w'.trees = F ++ (f ++ g).modifyChildren p (fun cs => cs ++ m.tree) := by
  have hnd := w.nodup
  rw [hw, ids_append, List.nodup_append] at hnd
  have hfind := find?_of_attach hnd.2.1 hp
  have hpF : p ∉ F.ids := fun h => hnd.2.2 p h p (mem_of_find? hfind) rfl
  have hmF : m.id ∉ F.ids := fun h => hnd.2.2 m.id h m.id (by
    simp [id_mem_tree m]) rfl
  have hnode : w.node? p = some n := by
    rw [World.node?, hw, find?_append_of_notMem hpF, hfind]
  have hpar : w.parent? m.id = none := by
    rw [World.parent?, parent?, hw, path?_append_of_notMem hmF, path?_of_attach hnd.2.1]
    rfl
  have hkind : w.kind? p = some .element := by
    rw [World.kind?, hnode, Option.map_some, ht]
    rfl
  have hchi := World.children_of_node? hnode
  refine ⟨w.attach p n.children.rootIDs.length m.id, ?_, ?_⟩
  · simp [addChild, insertChild, hkind, hpar, hchi]
  · show w.trees.attach p n.children.rootIDs.length m.id = _
    rw [hw, attach_append_right hpF hmF, attach_last hnd.2.1 hp]

end Feather.XML
