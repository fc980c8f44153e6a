import Treewalk.Run.Value

/-!
# Run — Control

The constructs that decide which nodes are evaluated, and in what order: sequences, branches and
loops.  A construct asks for the value of one node at a time (`Request.ask`) and goes on with the
answer (`Control.resume`), so it neither knows how nodes are evaluated nor holds a place on the
call stack.

`Request.drive` carries a construct through with any evaluator that has a state of its own.
-/

namespace Treewalk

/-- A construct that waits for the value of a node. -/
inductive Control where
  /-- The value counts for nothing, and these statements come next. -/
  | sequence (rest : List Node)
  /-- The value decides which statements come next. -/
  | branch (yes no : List Node)
  /-- The value decides whether the loop goes on. -/
  | test (condition : Node) (body : List Node) (passes : UInt64)
  /-- The value counts for nothing, and these statements complete the pass. -/
  | pass (condition : Node) (body rest : List Node) (passes : UInt64)

/-- What a construct does next. -/
inductive Request where
  /-- It asks for the value of a node, and goes on as told. -/
  | ask (node : Node) (next : Control)
  /-- It has ended, after so many passes; only a loop makes any. -/
  | finished (passes : UInt64)

namespace Request

/-- Statements in order. -/
def sequence : List Node → Request
  | [] => .finished 0
  | s :: rest => .ask s (.sequence rest)

/-- One of two sequences, by the value of the condition. -/
def branch (condition : Node) (yes no : List Node) : Request :=
  .ask condition (.branch yes no)

/-- The body again and again, as long as the condition holds before it. -/
def loop (condition : Node) (body : List Node) : Request :=
  .ask condition (.test condition body 0)

/-- The rest of a pass, and then the condition again.  The number of passes wraps around. -/
def pass (condition : Node) (body : List Node) (passes : UInt64) : List Node → Request
  | [] => .ask condition (.test condition body (passes + 1))
  | s :: rest => .ask s (.pass condition body rest passes)

end Request

/-- What the construct does when the node it asked for has value `v`. -/
def Control.resume (v : Value) : Control → Request
  | sequence rest => .sequence rest
  | branch yes no => .sequence (if v.holds then yes else no)
  | test c body passes => if v.holds then .pass c body passes body else .finished passes
  | pass c body rest passes => .pass c body passes rest

/-- Evaluates nodes one by one in a state; no answer stands for an evaluation that does not end. -/
abbrev Evaluator (σ : Type) := Node → σ → Option (Except Fault Value × σ)

/-- The construct carried through with an evaluator, `fuel` evaluations at most: the number of
passes, or the first fault, and the state behind it. -/
def Request.drive {σ : Type} (evaluate : Evaluator σ) :
    Nat → Request → σ → Option (Except Fault UInt64 × σ)
  | _, .finished passes, s => some (.ok passes, s)
  | 0, .ask _ _, _ => none
  | fuel + 1, .ask n next, s =>
    match evaluate n s with
    | none => none
    | some (.error f, s) => some (.error f, s)
    | some (.ok v, s) => (next.resume v).drive evaluate fuel s

/-- The evaluator that also counts its calls. -/
def Evaluator.counted {σ : Type} (evaluate : Evaluator σ) : Evaluator (Nat × σ) :=
  fun n (calls, s) => (evaluate n s).map fun (r, s) => (r, (calls + 1, s))

end Treewalk
