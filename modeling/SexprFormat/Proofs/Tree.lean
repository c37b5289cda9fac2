import SexprFormat.Node

/-!
The nodes of a tree. They are listed in the order in which they stand in the source, each before
those below it.
-/

namespace SexprFormat.Node

def isList : Node → Bool
  | list _ _ _ => true
  | _ => false

mutual

/-- A node and all nodes below it. -/
def subtrees : Node → List Node
  | quoted loc tag? lead inner => quoted loc tag? lead inner :: subtrees inner
  | list loc shape children => list loc shape children :: subtreesAll children
  | program loc children => program loc children :: subtreesAll children
  | node => [node]

def subtreesAll : List Node → List Node
  | [] => []
  | child :: rest => subtrees child ++ subtreesAll rest

end

/-- The nodes right below a node. -/
def children : Node → List Node
  | quoted _ _ _ inner => [inner]
  | list _ _ children | program _ children => children
  | atom _ _ | string _ _ | comment _ _ _ _ | directive _ _ _ | blank _ | unknown _ _ => []

/-- What stands behind all quote marks. -/
def core : Node → Node
  | quoted _ _ _ inner => core inner
  | node => node

theorem subtrees_eq (node : Node) : node.subtrees = node :: subtreesAll node.children := by
  cases node <;> simp [subtrees, children, subtreesAll]

theorem mem_subtrees_self (node : Node) : node ∈ node.subtrees := by
  cases node <;> simp [subtrees]

theorem subtreesAll_append (a b : List Node) :
    subtreesAll (a ++ b) = subtreesAll a ++ subtreesAll b := by
  induction a with
  | nil => rfl
  | cons child a ih => simp [subtreesAll, ih]

theorem mem_subtreesAll {node : Node} {nodes : List Node} :
    node ∈ subtreesAll nodes ↔ ∃ child ∈ nodes, node ∈ child.subtrees := by
  induction nodes with
  | nil => simp [subtreesAll]
  | cons child rest ih => simp [subtreesAll, ih]

mutual

/-- A node that stands in a tree and is not its root is right below another one. -/
theorem parent_of_mem_subtrees {node : Node} : ∀ root : Node, node ∈ root.subtrees →
    node = root ∨ ∃ parent ∈ root.subtrees, node ∈ parent.children
  | atom .., h | string .., h | comment .., h | directive .., h | blank _, h | unknown .., h => by
    left
    simpa [subtrees] using h
  | quoted loc tag? lead inner, h => by
    rw [subtrees, List.mem_cons] at h
    rcases h with h | h
    · exact .inl h
    · right
      rcases parent_of_mem_subtrees inner h with rfl | ⟨parent, hp, hn⟩
      · exact ⟨_, mem_subtrees_self _, List.mem_singleton_self _⟩
      · exact ⟨parent, by rw [subtrees]; exact List.mem_cons_of_mem _ hp, hn⟩
  | list _ _ nodes, h | program _ nodes, h => by
    rw [subtrees, List.mem_cons] at h
    rcases h with h | h
    · exact .inl h
    · right
      rcases parent_of_mem_subtreesAll nodes h with hn | ⟨parent, hp, hn⟩
      · exact ⟨_, mem_subtrees_self _, hn⟩
      · exact ⟨parent, by rw [subtrees]; exact List.mem_cons_of_mem _ hp, hn⟩

theorem parent_of_mem_subtreesAll {node : Node} : ∀ nodes : List Node, node ∈ subtreesAll nodes →
    node ∈ nodes ∨ ∃ parent ∈ subtreesAll nodes, node ∈ parent.children
  | [], h => by simp [subtreesAll] at h
  | child :: rest, h => by
    rw [subtreesAll, List.mem_append] at h
    simp only [subtreesAll, List.mem_append, List.mem_cons]
    rcases h with h | h
    · rcases parent_of_mem_subtrees child h with rfl | ⟨parent, hp, hn⟩
      · exact .inl (.inl rfl)
      · exact .inr ⟨parent, .inl hp, hn⟩
    · rcases parent_of_mem_subtreesAll rest h with hn | ⟨parent, hp, hn⟩
      · exact .inl (.inr hn)
      · exact .inr ⟨parent, .inr hp, hn⟩

end

mutual

theorem subtrees_subset {node : Node} :
    ∀ root : Node, node ∈ root.subtrees → node.subtrees ⊆ root.subtrees
  | atom .., h | string .., h | comment .., h | directive .., h | blank _, h | unknown .., h => by
    obtain rfl := List.mem_singleton.mp h
    exact List.Subset.refl _
  | quoted _ _ _ inner, h => by
    rw [subtrees, List.mem_cons] at h
    rcases h with rfl | h
    · exact List.Subset.refl _
    · exact List.subset_cons_of_subset _ (subtrees_subset inner h)
  | list _ _ children, h | program _ children, h => by
    rw [subtrees, List.mem_cons] at h
    rcases h with rfl | h
    · exact List.Subset.refl _
    · exact List.subset_cons_of_subset _ (subtreesAll_subset children h)

theorem subtreesAll_subset {node : Node} :
    ∀ nodes : List Node, node ∈ subtreesAll nodes → node.subtrees ⊆ subtreesAll nodes
  | child :: rest, h => by
    rw [subtreesAll, List.mem_append] at h
    rcases h with h | h
    · exact List.subset_append_of_subset_left _ (subtrees_subset child h)
    · exact List.subset_append_of_subset_right _ (subtreesAll_subset rest h)

end

theorem core_mem_subtrees : ∀ node : Node, node.core ∈ node.subtrees
  | quoted _ _ _ inner => List.mem_cons_of_mem _ (core_mem_subtrees inner)
  | atom .. | string .. | comment .. | directive .. | blank _ | unknown .. =>
    List.mem_singleton_self _
  | list .. | program .. => List.mem_cons_self ..

end SexprFormat.Node
