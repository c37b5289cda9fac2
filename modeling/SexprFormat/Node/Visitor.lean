import SexprFormat.Node

/-!
Visiting the nodes of a tree, parents before their children. A visitor has one handler per kind of
node; what it does not handle goes to its fallback.
-/

namespace SexprFormat

structure Visitor (m : Type → Type) (α : Type) where
  other : Node → m α
  atom : Node → m α := other
  string : Node → m α := other
  comment : Node → m α := other
  directive : Node → m α := other
  quoted : Node → m α := other
  list : Node → m α := other
  program : Node → m α := other
  blank : Node → m α := other

namespace Visitor

variable {m : Type → Type} {α : Type}

/-- Hands a node to its handler. -/
def handle (v : Visitor m α) (node : Node) : m α :=
  match node with
  | .atom _ _ => v.atom node
  | .string _ _ => v.string node
  | .comment _ _ _ _ => v.comment node
  | .directive _ _ _ => v.directive node
  | .quoted _ _ _ _ => v.quoted node
  | .list _ _ _ => v.list node
  | .program _ _ => v.program node
  | .blank _ => v.blank node
  | .unknown _ _ => v.other node

variable [Monad m]

mutual

/-- Visits a node and then all below it. The result is that of the node. -/
def visit (v : Visitor m α) : Node → m α
  | .quoted loc tag? lead inner => do
    let result ← v.handle (.quoted loc tag? lead inner)
    let _ ← visit v inner
    pure result
  | .list loc shape children => do
    let result ← v.handle (.list loc shape children)
    visitAll v children
    pure result
  | .program loc children => do
    let result ← v.handle (.program loc children)
    visitAll v children
    pure result
  | node => v.handle node

def visitAll (v : Visitor m α) : List Node → m Unit
  | [] => pure ()
  | node :: rest => do
    let _ ← visit v node
    visitAll v rest

end

end Visitor

end SexprFormat
