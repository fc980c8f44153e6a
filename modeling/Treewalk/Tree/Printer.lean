import Treewalk.Text.Quoted
import Treewalk.Tree.Basic

/-!
# Tree — Layout

The text of a tree, in parentheses with the operator first.  Each statement of a block, a branch or
a loop stands on a line of its own, two spaces deeper than what encloses it; an expression stays on
the line of its statement.

A layout is a list of pieces: text, and nodes still to be laid out at some depth.  `Node.layout`
replaces the first pending node by its pieces until only text is left.
-/

namespace Treewalk.Node

/-- Part of a layout. -/
inductive Piece where
  /-- Finished text. -/
  | text (s : String)
  /-- A node, whose lines are indented by `depth` steps. -/
  | node (depth : Nat) (n : Node)

/-- A line break, and the indentation of the next line. -/
def newline (depth : Nat) : Piece :=
  .text (String.ofList ('\n' :: List.replicate (2 * depth) ' '))

/-- Statements, each on a line of its own. -/
def lines (depth : Nat) : List Node → List Piece
  | [] => []
  | s :: ss => newline depth :: .node depth s :: lines depth ss

/-- The layout of a node, as far as the nodes right below it. -/
def pieces (depth : Nat) : Node → List Piece
  | block ss => .text "(block" :: (lines (depth + 1) ss ++ [.text ")"])
  | assign x e => [.text ("(= " ++ x ++ " "), .node depth e, .text ")"]
  | input x => [.text ("(input " ++ x ++ ")")]
  | text s => [.text (Text.quote s)]
  | print e => [.text "(print ", .node depth e, .text ")"]
  | branch c yes no =>
    .text "(if " :: .node depth c :: newline (depth + 1) :: .text "(then" ::
      (lines (depth + 2) yes ++ .text ")" :: newline (depth + 1) :: .text "(else" ::
        (lines (depth + 2) no ++ [.text "))"]))
  | loop c body =>
    .text "(while " :: .node depth c :: (lines (depth + 1) body ++ [.text ")"])
  | binary op l r =>
    [.text ("(" ++ op.symbol ++ " "), .node depth l, .text " ", .node depth r, .text ")"]
  | number n => [.text (Numeral.ofWord n)]
  | var x => [.text x]

/-- How many nodes the pieces still hold. -/
def held : List Piece → Nat
  | [] => 0
  | .text _ :: ps => held ps
  | .node _ n :: ps => n.size + held ps

theorem held_append (ps qs : List Piece) : held (ps ++ qs) = held ps + held qs := by
  induction ps with
  | nil => simp [held]
  | cons p ps ih =>
    cases p with
    | text s => simpa [held] using ih
    | node d n => simp [held, ih]; omega

theorem held_lines (depth : Nat) (ss : List Node) : held (lines depth ss) = sizes ss := by
  induction ss with
  | nil => simp [lines, held, sizes]
  | cons s ss ih => simp [lines, newline, held, sizes, ih]

theorem held_pieces (depth : Nat) (n : Node) : held (n.pieces depth) + 1 = n.size := by
  cases n with
  | branch c yes no =>
    simp only [pieces, newline, held, held_append, held_lines, size]
    omega
  | _ => simp [pieces, held, held_append, held_lines, size]

/-- The text of the pieces, behind `done`. -/
def layout (done : String) : List Piece → String
  | [] => done
  | .text s :: ps => layout (done ++ s) ps
  | .node depth n :: ps => layout done (n.pieces depth ++ ps)
termination_by ps => (held ps, ps.length)
decreasing_by
  · exact Prod.Lex.right _ (Nat.lt_succ_self _)
  · have := held_pieces depth n
    refine Prod.Lex.left _ _ ?_
    rw [held_append, held]
    omega

/-- The text of a tree. -/
def render (n : Node) : String :=
  layout "" [.node 0 n]

end Treewalk.Node
