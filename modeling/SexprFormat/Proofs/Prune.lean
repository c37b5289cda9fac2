import SexprFormat.Node.Edit
import SexprFormat.Node.Visitor
import SexprFormat.Proofs.Tree

/-!
Taking leaves out of a tree. A quote mark goes with the leaf behind it, and everything else stays
where it is. Main statement: `editProgram_dropLeaves`, in which the leaves are those that visiting
meets (`Visitor.visit_eq`) and a place is told by the nodes above it (`Node.places`).
-/

namespace SexprFormat

namespace Visitor

section

variable {m : Type → Type} {α : Type} [Monad m] [LawfulMonad m]

mutual

/-- Visiting handles a node and then, one by one, all those below it. -/
theorem visit_eq (v : Visitor m α) : ∀ node : Node, v.visit node = do
    let result ← v.handle node
    (Node.subtreesAll node.children).forM fun n => (fun _ => ()) <$> v.handle n
    pure result
  | .quoted loc tag? lead inner => by
    rw [visit, visit_eq v inner]
    simp [Node.children, Node.subtreesAll, Node.subtrees_eq inner]
  | .list loc shape children | .program loc children => by
    rw [visit, visitAll_eq v children]
    rfl
  | .atom .. | .string .. | .comment .. | .directive .. | .blank _ | .unknown .. => by
    simp [visit, Node.children, Node.subtreesAll]

theorem visitAll_eq (v : Visitor m α) : ∀ nodes : List Node,
    v.visitAll nodes = (Node.subtreesAll nodes).forM fun n => (fun _ => ()) <$> v.handle n
  | [] => by simp [visitAll, Node.subtreesAll]
  | node :: rest => by
    rw [visitAll, visit_eq v node, visitAll_eq v rest]
    simp [Node.subtreesAll, Node.subtrees_eq node]

end

end

/-- Notes a node down. -/
def note (node : Node) : StateM (List Node) Unit :=
  modify (· ++ [node])

/-- Notes the leaves of a tree down. -/
def leafNotes : Visitor (StateM (List Node)) Unit where
  other _ := pure ()
  atom := note
  string := note
  comment := note
  directive := note
  blank := note

end Visitor

namespace Node

/-- Atoms, strings, comments, directives and empty lines. -/
def isLeaf : Node → Bool
  | atom _ _ | string _ _ | comment _ _ _ _ | directive _ _ _ | blank _ => true
  | quoted _ _ _ _ | list _ _ _ | program _ _ | unknown _ _ => false

def isQuoted : Node → Bool
  | quoted _ _ _ _ => true
  | _ => false

/-- The leaves of a tree, as visiting meets them. -/
def leaves (root : Node) : List Node :=
  (Id.run ((Visitor.leafNotes.visit root).run [])).2

theorem run_leafNotes (node : Node) (notes : List Node) :
    (Visitor.leafNotes.handle node).run notes = pure ((), notes ++ [node].filter isLeaf) := by
  cases node <;> simp [Visitor.handle, Visitor.leafNotes, Visitor.note, isLeaf] <;> rfl

theorem run_forM_leafNotes (nodes notes : List Node) :
    (forM nodes Visitor.leafNotes.handle).run notes = pure ((), notes ++ nodes.filter isLeaf) := by
  induction nodes generalizing notes with
  | nil => simp
  | cons node nodes ih =>
    rw [List.forM_cons, StateT.run_bind, run_leafNotes, pure_bind, ih, List.append_assoc,
      ← List.filter_append]
    rfl

theorem leaves_eq (root : Node) : root.leaves = root.subtrees.filter isLeaf := by
  have split : root.subtrees = [root] ++ subtreesAll root.children := subtrees_eq root
  rw [leaves, Visitor.visit_eq, split, List.filter_append]
  simp [run_leafNotes, run_forM_leafNotes]

/-- What becomes of a node under a change that has no effects; nothing, if it is removed. -/
def edit (f : Node → Option Node) (node : Node) : Option Node :=
  Id.run (editM (fun node => pure (f node)) node)

def editAll (f : Node → Option Node) (nodes : List Node) : List Node :=
  Id.run (editAllM (fun node => pure (f node)) nodes)

section

variable (f : Node → Option Node)

theorem edit_quoted (loc : Location) (tag? : Option Token.Tag) (lead : List Char) (inner : Node) :
    edit f (quoted loc tag? lead inner) = (edit f inner).bind fun inner =>
      f (quoted loc tag? lead inner) := by
  rw [edit, editM]
  cases h : edit f inner <;> simp_all [edit]

theorem edit_list (loc : Location) (shape : Delimiter) (children : List Node) :
    edit f (list loc shape children) = f (list loc shape (editAll f children)) := by
  simp [edit, editM, editAll]

theorem edit_program (loc : Location) (children : List Node) :
    edit f (program loc children) = f (program loc (editAll f children)) := by
  simp [edit, editM, editAll]

theorem editAll_cons (node : Node) (rest : List Node) :
    editAll f (node :: rest) = (edit f node).toList ++ editAll f rest := by
  simp [edit, editAllM, editAll]

theorem editProgram_of_edit {root : Node} {loc : Location} {children : List Node}
    (h : edit f root = some (program loc children)) :
    editProgram f root = .ok (program loc children) := by
  have result : Id.run (editM (fun node => pure (f node)) root) = some (program loc children) := h
  simp [editProgram, editProgramM, result]

end

/-- Removes the leaves for which the test holds, and changes nothing else. -/
def dropLeaves (p : Node → Bool) (node : Node) : Option Node :=
  if node.isLeaf && p node then none else some node

/-- The node is removed with a leaf: it is the leaf, or a quote mark with nothing but marks between
the two. -/
def falls (p : Node → Bool) (node : Node) : Bool :=
  node.core.isLeaf && p node.core

section

variable (p : Node → Bool)

theorem edit_dropLeaves_quoted (loc : Location) (tag? : Option Token.Tag) (lead : List Char)
    (inner : Node) : edit (dropLeaves p) (quoted loc tag? lead inner) =
      (edit (dropLeaves p) inner).map (quoted loc tag? lead) := by
  rw [edit_quoted]
  cases edit (dropLeaves p) inner <;> rfl

theorem edit_dropLeaves_list (loc : Location) (shape : Delimiter) (children : List Node) :
    edit (dropLeaves p) (list loc shape children) =
      some (list loc shape (editAll (dropLeaves p) children)) :=
  edit_list ..

theorem edit_dropLeaves_program (loc : Location) (children : List Node) :
    edit (dropLeaves p) (program loc children) =
      some (program loc (editAll (dropLeaves p) children)) :=
  edit_program ..

theorem edit_dropLeaves_leaf {node : Node} (h : node.isLeaf) :
    edit (dropLeaves p) node = if p node then none else some node := by
  have only : edit (dropLeaves p) node = dropLeaves p node := by
    cases node with
    | quoted | list | program | unknown => cases h
    | atom | string | comment | directive | blank => rfl
  rw [only, dropLeaves, h, Bool.true_and]

theorem falls_leaf {node : Node} (h : node.isLeaf) : node.falls p = p node := by
  have own : node.core = node := by
    cases node with
    | quoted => cases h
    | _ => rfl
  rw [falls, own, h, Bool.true_and]

theorem isNone_edit_dropLeaves : ∀ node : Node, (edit (dropLeaves p) node).isNone = node.falls p
  | quoted loc tag? lead inner => by
    rw [edit_dropLeaves_quoted, Option.isNone_map, isNone_edit_dropLeaves inner]
    rfl
  | list .. | program .. | unknown .. => rfl
  | atom .. | string .. | comment .. | directive .. | blank _ => by
    rw [edit_dropLeaves_leaf p rfl, falls_leaf p rfl]
    split <;> simp_all

mutual

/-- A tree without such leaves stays as it is. -/
theorem edit_eq_self : ∀ node : Node, (∀ leaf ∈ node.subtrees, leaf.isLeaf → p leaf = false) →
    edit (dropLeaves p) node = some node
  | quoted loc tag? lead inner, kept => by
    rw [subtrees, List.forall_mem_cons] at kept
    rw [edit_dropLeaves_quoted, edit_eq_self inner kept.2]
    rfl
  | list loc shape children, kept => by
    rw [subtrees, List.forall_mem_cons] at kept
    rw [edit_dropLeaves_list, editAll_eq_self children kept.2]
  | program loc children, kept => by
    rw [subtrees, List.forall_mem_cons] at kept
    rw [edit_dropLeaves_program, editAll_eq_self children kept.2]
  | unknown .., _ => rfl
  | atom .., kept | string .., kept | comment .., kept | directive .., kept | blank _, kept => by
    rw [edit_dropLeaves_leaf p rfl, kept _ (mem_subtrees_self _) rfl]
    rfl

theorem editAll_eq_self : ∀ nodes : List Node,
    (∀ leaf ∈ subtreesAll nodes, leaf.isLeaf → p leaf = false) →
      editAll (dropLeaves p) nodes = nodes
  | [], _ => rfl
  | node :: rest, kept => by
    rw [subtreesAll, List.forall_mem_append] at kept
    rw [editAll_cons, edit_eq_self node kept.1, editAll_eq_self rest kept.2]
    rfl

end

end

/-- What a node is, apart from the nodes below it. -/
inductive Head where
  | single (node : Node)
  | quoted (loc : Location) (tag? : Option Token.Tag) (lead : List Char)
  | list (loc : Location) (shape : Delimiter)
  | program (loc : Location)

def head : Node → Head
  | quoted loc tag? lead _ => .quoted loc tag? lead
  | list loc shape _ => .list loc shape
  | program loc _ => .program loc
  | node => .single node

namespace Head

def isList : Head → Bool
  | list _ _ => true
  | _ => false

def isQuoted : Head → Bool
  | quoted _ _ _ => true
  | _ => false

/-- The leaf that the head belongs to. -/
def leaf? : Head → Option Node
  | single node => if node.isLeaf then some node else none
  | _ => none

end Head

theorem isList_head (node : Node) : node.head.isList = node.isList := by
  cases node <;> rfl

theorem isQuoted_head (node : Node) : node.head.isQuoted = node.isQuoted := by
  cases node <;> rfl

theorem leaf_head (node : Node) : node.head.leaf? = if node.isLeaf then some node else none := by
  cases node <;> rfl

mutual

/-- The nodes of a tree in their order, each with what is above it, the nearest first. -/
def outline (above : List Head) : Node → List (List Head × Node)
  | quoted loc tag? lead inner =>
    (above, quoted loc tag? lead inner) :: outline (.quoted loc tag? lead :: above) inner
  | list loc shape children =>
    (above, list loc shape children) :: outlineAll (.list loc shape :: above) children
  | program loc children =>
    (above, program loc children) :: outlineAll (.program loc :: above) children
  | node => [(above, node)]

def outlineAll (above : List Head) : List Node → List (List Head × Node)
  | [] => []
  | node :: rest => outline above node ++ outlineAll above rest

end

/-- The way from a node up to the root. -/
def trail (entry : List Head × Node) : List Head :=
  entry.2.head :: entry.1

/-- Where the nodes of some kind stand in a tree, in their order. -/
def places (kind : Node → Bool) (root : Node) : List (List Head) :=
  ((root.outline []).filter (kind ·.2)).map trail

theorem outline_eq (above : List Head) (node : Node) :
    outlineAll above [node] = (above, node) :: outlineAll (node.head :: above) node.children := by
  cases node <;> simp [outlineAll, outline, children, head]

theorem outlineAll_append (above : List Head) (a b : List Node) :
    outlineAll above (a ++ b) = outlineAll above a ++ outlineAll above b := by
  induction a with
  | nil => rfl
  | cons node a ih => simp [outlineAll, ih]

mutual

theorem map_snd_outline (above : List Head) :
    ∀ node : Node, (outline above node).map Prod.snd = node.subtrees
  | quoted _ _ _ inner => congrArg (_ :: ·) (map_snd_outline _ inner)
  | list _ _ children | program _ children => congrArg (_ :: ·) (map_snd_outlineAll _ children)
  | atom .. | string .. | comment .. | directive .. | blank _ | unknown .. => rfl

theorem map_snd_outlineAll (above : List Head) : ∀ nodes : List Node,
    (outlineAll above nodes).map Prod.snd = subtreesAll nodes
  | [] => rfl
  | node :: rest => by
    rw [outlineAll, List.map_append, map_snd_outline above node,
      map_snd_outlineAll above rest, subtreesAll]

end

/-- The leaves of a tree are told by their places. -/
theorem filterMap_places (test : Node → Bool) (root : Node) :
    (root.places test).filterMap (·.head?.bind Head.leaf?) = root.leaves.filter test := by
  have found (entry : List Head × Node) :
      (trail entry).head?.bind Head.leaf? = if entry.2.isLeaf then some entry.2 else none :=
    leaf_head entry.2
  rw [leaves_eq, ← map_snd_outline [] root, places]
  induction root.outline [] with
  | nil => rfl
  | cons entry entries ih =>
    by_cases passes : test entry.2 <;> by_cases leaf : entry.2.isLeaf <;>
      simp [found, passes, leaf, ih]

section

variable (p : Node → Bool)

/-- A node that stays stands where it stood, if those below it do. -/
theorem map_trail_of_stays {above : List Head} {node left : Node} (head : left.head = node.head)
    (stays : node.falls p = false)
    (below : (outlineAll (node.head :: above) left.children).map trail =
      ((outlineAll (node.head :: above) node.children).filter (!·.2.falls p)).map trail) :
    (outlineAll above [left]).map trail =
      ((outlineAll above [node]).filter (!·.2.falls p)).map trail := by
  rw [outline_eq, outline_eq, List.filter_cons_of_pos (by simp [stays]), List.map_cons,
    List.map_cons, ← below,
    trail, trail, head]

mutual

/-- What is left stands where it stood. -/
theorem map_trail_edit (above : List Head) : ∀ node : Node,
    (outlineAll above (edit (dropLeaves p) node).toList).map trail =
      ((outlineAll above [node]).filter (!·.2.falls p)).map trail
  | quoted loc tag? lead inner => by
    have below := map_trail_edit (.quoted loc tag? lead :: above) inner
    have same : falls p (quoted loc tag? lead inner) = (edit (dropLeaves p) inner).isNone :=
      (isNone_edit_dropLeaves p inner).symm
    rw [edit_dropLeaves_quoted]
    cases left : edit (dropLeaves p) inner with
    | none =>
      rw [left] at below same
      rw [outline_eq, List.filter_cons_of_neg (by simp [same])]
      exact below
    | some node =>
      rw [left] at below same
      exact map_trail_of_stays p rfl same below
  | list _ _ children | program _ children =>
    map_trail_of_stays p rfl rfl (map_trail_editAll _ children)
  | unknown .. => rfl
  | atom .. | string .. | comment .. | directive .. | blank _ => by
    rw [edit_dropLeaves_leaf p rfl, outline_eq]
    split <;> simp_all [outline_eq, outlineAll, children, falls, core, isLeaf]

theorem map_trail_editAll (above : List Head) : ∀ nodes : List Node,
    (outlineAll above (editAll (dropLeaves p) nodes)).map trail =
      ((outlineAll above nodes).filter (!·.2.falls p)).map trail
  | [] => rfl
  | node :: rest => by
    have split : outlineAll above (node :: rest) =
        outlineAll above [node] ++ outlineAll above rest :=
      outlineAll_append above [node] rest
    rw [editAll_cons, outlineAll_append, split, List.filter_append, List.map_append,
      List.map_append,
      map_trail_edit above node, map_trail_editAll above rest]

end

theorem falls_of_isList {node : Node} (h : node.isList) : node.falls p = false := by
  cases node with
  | list => rfl
  | _ => cases h

/-- Of each kind of nodes, those are left that do not fall with a leaf, all in their places. -/
theorem places_edit (kind : Head → Bool) {root left : Node}
    (h : edit (dropLeaves p) root = some left) :
    left.places (kind ·.head) = root.places fun node => kind node.head && !node.falls p := by
  have whole (node : Node) : outlineAll [] [node] = node.outline [] := List.append_nil _
  have trails := map_trail_edit p [] root
  rw [h, Option.toList_some, whole, whole] at trails
  calc ((left.outline []).filter (kind ·.2.head)).map trail
    _ = ((left.outline []).map trail).filter (·.head?.any kind) := by
      rw [List.filter_map]
      rfl
    _ = (((root.outline []).filter (!·.2.falls p)).map trail).filter (·.head?.any kind) := by
      rw [trails]
    _ = ((root.outline []).filter fun entry =>
        kind entry.2.head && !entry.2.falls p).map trail := by
      rw [List.filter_map, List.filter_filter]
      rfl

theorem places_left {root left : Node} (h : edit (dropLeaves p) root = some left) :
    left.places (fun _ => true) = root.places (!·.falls p) := by
  simpa using places_edit p (fun _ => true) h

/-- The leaves that are left are those for which the test does not hold, in their order. -/
theorem leaves_edit {root left : Node} (h : edit (dropLeaves p) root = some left) :
    left.leaves = root.leaves.filter (!p ·) := by
  have stays : ∀ leaf ∈ root.leaves, (!leaf.falls p) = !p leaf := by
    intro leaf mem
    rw [leaves_eq] at mem
    rw [falls_leaf p (List.mem_filter.mp mem).2]
  calc left.leaves
    _ = (left.places fun _ => true).filterMap (·.head?.bind Head.leaf?) := by
      rw [filterMap_places, List.filter_eq_self.mpr fun _ _ => rfl]
    _ = root.leaves.filter (!·.falls p) := by rw [places_left p h, filterMap_places]
    _ = root.leaves.filter (!p ·) := List.filter_congr stays

end

example (loc : Location) (mark : List Char) :
    editProgram (dropLeaves fun _ => true) (program loc
      [quoted loc none mark (quoted loc none mark (blank loc)),
        quoted loc none mark (list loc .paren [atom loc ['a']])]) =
      .ok (program loc [quoted loc none mark (list loc .paren [])]) :=
  rfl

end Node

end SexprFormat
