import SexprFormat.Node

/-!
Changing a tree from its leaves up. Each node, with its children changed already, is replaced or
removed. A quoted form without its datum is removed; the program itself has to stay. Trees may nest
to any depth; there is no bound on nested calls.
-/

namespace SexprFormat

inductive EditError where
  | programLost
  deriving DecidableEq, Repr

def EditError.message : EditError → String
  | programLost => "transform fn must return a Module for the root (cannot remove root)"

namespace Node

section

variable {m : Type → Type} [Monad m]

mutual

/-- What becomes of a node; nothing, if it is removed. -/
def editM (f : Node → m (Option Node)) : Node → m (Option Node)
  | quoted loc tag? lead inner => do
    match ← editM f inner with
    | some inner => f (quoted loc tag? lead inner)
    | none => pure none
  | list loc shape children => do
    f (list loc shape (← editAllM f children))
  | program loc children => do
    f (program loc (← editAllM f children))
  | node => f node

def editAllM (f : Node → m (Option Node)) : List Node → m (List Node)
  | [] => pure []
  | node :: rest => do
    let node? ← editM f node
    let rest ← editAllM f rest
    pure (node?.toList ++ rest)

end

/-- The tree of a program after a change. -/
def editProgramM (f : Node → m (Option Node)) (root : Node) : m (Except EditError Node) := do
  match ← editM f root with
  | some (program loc children) => pure (.ok (program loc children))
  | _ => pure (.error .programLost)

end

/-- The tree of a program after a change that has no effects. -/
def editProgram (f : Node → Option Node) (root : Node) : Except EditError Node :=
  Id.run (editProgramM (fun node => pure (f node)) root)

end Node

end SexprFormat
