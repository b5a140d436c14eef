import LeastSquares.Factor

/-!
# Factor graphs

A factor graph is an ordered list of factors. It owns no variables: its cost and its linear model
are taken at an assignment. The models of the factors are stacked: each factor occupies the next
rows, as many as its bias has entries, and columns are the joint tangent coordinates of the
assignment (`Graph.linearize`).
-/

namespace LeastSquares

variable {α : Type}

/-- Factors in order. -/
structure Graph (α : Type) where
  /-- The factors. -/
  factors : List (Factor α)

namespace Graph

/-- The graph with one more factor behind the others. -/
def add (g : Graph α) (f : Factor α) : Graph α := ⟨g.factors ++ [f]⟩

/-- The keys that factors refer to, in order of first appearance. -/
def keys (g : Graph α) : List Int := (g.factors.flatMap (·.keys)).eraseDups

/-- The cost of an assignment, the sum of the costs of the factors. -/
def cost [Zero α] [Add α] (g : Graph α) (s : Assignment α) : Except Error α :=
  g.factors.foldlM (fun sum f => do
    let c ← f.cost s
    .ok (sum + c)) 0

/-- A linear model of some rows, together with their number. -/
structure Stack (α : Type) where
  /-- The stacked rows. -/
  model : LinearModel α
  /-- The number of rows. -/
  height : Int

/-- No rows. -/
def Stack.empty : Stack α := ⟨⟨0, 0⟩, 0⟩

/-- The stack with a linear model below it. The matrix is moved down, and the bias is placed in the
rows that its own entries occupy, materialized. -/
def Stack.push [Zero α] [Add α] (stack : Stack α) (model : LinearModel α) :
    Except Error (Stack α) := do
  let m := model.bias.dimension
  let matrix ← model.matrix.moveDown stack.height
  let dense ← model.bias.dense m
  let bias ← BlockVector.ofBlock dense ⟨stack.height, stack.height + m⟩
  .ok ⟨⟨stack.model.matrix + matrix, stack.model.bias + bias⟩, stack.height + m⟩

/-- The stacked linear models of the factors, in order. -/
def linearize [Zero α] [Add α] (g : Graph α) (s : Assignment α) :
    Except Error (LinearModel α) := do
  let stack ← g.factors.foldlM (fun stack f => do
    let model ← f.linearize s
    stack.push model) Stack.empty
  .ok stack.model

/-- A graph as one factor of a larger graph. -/
def toFactor [Zero α] [Add α] (name : String) (g : Graph α) : Factor α where
  name := name
  keys := g.keys
  cost := g.cost
  linearize := g.linearize

end Graph

end LeastSquares
