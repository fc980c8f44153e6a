/-!
# Tree — Operators and nodes

A program as a tree.  Statements and expressions are nodes of one type, and any node may stand
below any other; the parser builds only the sensible ones.

A tree is walked with a list of pending nodes (`Node.fold`), so that its depth costs no call
stack: expressions of many thousand terms are as deep as they are long.
-/

namespace Treewalk

/-- The operators between two operands. -/
inductive Operator where
  | add | sub | mul | div | mod | greater | less | equal
  deriving DecidableEq, Repr

/-- How a source writes the operator. -/
def Operator.symbol : Operator → String
  | add => "+"
  | sub => "-"
  | mul => "*"
  | div => "/"
  | mod => "%"
  | greater => ">"
  | less => "<"
  | equal => "=="

/-- A program, or a part of one. -/
inductive Node where
  /-- Statements in order. -/
  | block (statements : List Node)
  /-- The value under the name. -/
  | assign (name : String) (value : Node)
  /-- An integer read from the user, under the name. -/
  | input (name : String)
  /-- A text. -/
  | text (s : String)
  /-- The value, printed on a line. -/
  | print (value : Node)
  /-- One of two sequences of statements. -/
  | branch (condition : Node) (yes no : List Node)
  /-- The statements again and again, as long as the condition holds. -/
  | loop (condition : Node) (body : List Node)
  /-- An operator and its operands. -/
  | binary (op : Operator) (left right : Node)
  /-- An integer. -/
  | number (n : Int64)
  /-- The value of a name. -/
  | var (name : String)
  deriving Repr

namespace Node

mutual

/-- How many nodes the tree has. -/
def size : Node → Nat
  | block ss => sizes ss + 1
  | assign _ e => size e + 1
  | input _ => 1
  | text _ => 1
  | print e => size e + 1
  | branch c yes no => size c + sizes yes + sizes no + 1
  | loop c body => size c + sizes body + 1
  | binary _ l r => size l + size r + 1
  | number _ => 1
  | var _ => 1

/-- How many nodes the trees have together. -/
def sizes : List Node → Nat
  | [] => 0
  | n :: ns => size n + sizes ns

end

/-- The nodes right below a node, in the order in which they are evaluated. -/
def children : Node → List Node
  | block ss => ss
  | assign _ e => [e]
  | input _ => []
  | text _ => []
  | print e => [e]
  | branch c yes no => c :: (yes ++ no)
  | loop c body => c :: body
  | binary _ l r => [l, r]
  | number _ => []
  | var _ => []

theorem sizes_append (ms ns : List Node) : sizes (ms ++ ns) = sizes ms + sizes ns := by
  induction ms with
  | nil => simp [sizes]
  | cons m ms ih => simp [sizes, ih]; omega

theorem size_eq_sizes_children (n : Node) : n.size = sizes n.children + 1 := by
  cases n with
  | branch c yes no =>
    simp only [size, children, sizes, sizes_append]
    omega
  | _ => simp [size, sizes, children]

/-- Every node of the pending trees, parents first, given to `f` one after another. -/
def fold {β : Type} (f : β → Node → β) (done : β) : List Node → β
  | [] => done
  | n :: pending => fold f (f done n) (n.children ++ pending)
termination_by pending => sizes pending
decreasing_by
  simp only [sizes_append, sizes, size_eq_sizes_children n]
  omega

/-- The number of nodes, counted on a walk. -/
def count (n : Node) : Nat :=
  fold (fun k _ => k + 1) 0 [n]

/-- The name that the node itself assigns, inputs or reads. -/
def name? : Node → Option String
  | assign x _ => some x
  | input x => some x
  | var x => some x
  | _ => none

/-- The names that occur in the tree, each once. -/
def names (n : Node) : List String :=
  fold (fun xs m =>
    match m.name? with
    | some x => if xs.contains x then xs else x :: xs
    | none => xs) [] [n]

/-- The statements of a block; any other node has none. -/
def statements : Node → List Node
  | block ss => ss
  | _ => []

end Node

end Treewalk
