import Treewalk.Run.Machine

/-!
# Evaluation — The rules

What evaluation means, told by rules.  `Evaluates t s r s'` says that task `t`, begun in state
`s`, ends with result `r` in state `s'`.  A task is one node, or the statements of a sequence.  An
evaluation that does not end has no derivation; a fault is a result like any other, and the state
behind it holds all that was done before.

The leaves have rules of their own, which mention neither the arithmetic of words nor the functions
that read text:

* `Operator.Yields`: an operator, by the integers that its operands stand for;
* `Numeral.Spells`, `Text.FirstWord`, `Bytes.FirstLine`: what a line of input says;
* `Reader.Gives`, `Supply.Opens`, `State.Asks`: one input, from the supply to the warning.
-/

namespace Treewalk

/-! ### Operators -/

/-- `op.Yields a b r`: the operator, applied to `a` and `b`, has result `r`.  A sum, difference,
product or quotient is the word that equals the exact one modulo the number of words. -/
inductive Operator.Yields : Operator → Int64 → Int64 → Except Fault Int64 → Prop where
  | add {a b : Int64} : Yields .add a b (.ok (.ofInt (a.toInt + b.toInt)))
  | sub {a b : Int64} : Yields .sub a b (.ok (.ofInt (a.toInt - b.toInt)))
  | mul {a b : Int64} : Yields .mul a b (.ok (.ofInt (a.toInt * b.toInt)))
  | div {a b : Int64} : b.toInt ≠ 0 → Yields .div a b (.ok (.ofInt (a.toInt.tdiv b.toInt)))
  | divZero {a b : Int64} : b.toInt = 0 → Yields .div a b (.error .divisionByZero)
  | mod {a b : Int64} : b.toInt ≠ 0 → Yields .mod a b (.ok (.ofInt (a.toInt.tmod b.toInt)))
  | modZero {a b : Int64} : b.toInt = 0 → Yields .mod a b (.error .moduloByZero)
  | greater {a b : Int64} : b.toInt < a.toInt → Yields .greater a b (.ok 1)
  | notGreater {a b : Int64} : a.toInt ≤ b.toInt → Yields .greater a b (.ok 0)
  | less {a b : Int64} : a.toInt < b.toInt → Yields .less a b (.ok 1)
  | notLess {a b : Int64} : b.toInt ≤ a.toInt → Yields .less a b (.ok 0)
  | equal {a b : Int64} : a.toInt = b.toInt → Yields .equal a b (.ok 1)
  | notEqual {a b : Int64} : a.toInt ≠ b.toInt → Yields .equal a b (.ok 0)

/-! ### One line of input -/

/-- The text spells the integer: one sign at most, then at least one digit. -/
inductive Numeral.Spells : List Char → Int → Prop where
  | plain {ds : List Char} : ds ≠ [] → (∀ c ∈ ds, c.isDigit) → Spells ds (value ds)
  | plus {ds : List Char} : ds ≠ [] → (∀ c ∈ ds, c.isDigit) → Spells ('+' :: ds) (value ds)
  | minus {ds : List Char} : ds ≠ [] → (∀ c ∈ ds, c.isDigit) → Spells ('-' :: ds) (-value ds)

/-- `word` is the first word of the text: blanks stand before it, and it ends at a blank or with
the text.  A text of blanks alone has the empty word. -/
def Text.FirstWord (cs word : List Char) : Prop :=
  ∃ blanks rest, cs = blanks ++ (word ++ rest) ∧ (∀ c ∈ blanks, isBlank c) ∧
    (∀ c ∈ word, ¬ isBlank c) ∧ (∀ c ∈ rest.head?, isBlank c) ∧ (word = [] → rest = [])

/-- `line` is the first line of the bytes, with the byte that ends it if there is one. -/
inductive Bytes.FirstLine : List UInt8 → List UInt8 → Prop where
  | ended {line rest : List UInt8} :
      lineEnd ∉ line → FirstLine (line ++ lineEnd :: rest) (line ++ [lineEnd])
  | unended {line : List UInt8} : lineEnd ∉ line → FirstLine line line

/-- What one read gives: the integer that the first word of the first line spells, if it is a
word's, and otherwise the reason why there is none. -/
inductive Reader.Gives : Reader → Except InputError Int64 → Prop where
  | failing {why : Failure} : Gives (.failing why) (.error (.unreadable why))
  | closed : Gives (.holding []) (.error .closed)
  | notText {bytes line : List UInt8} : bytes ≠ [] → Bytes.FirstLine bytes line →
      (∀ s, Bytes.encode s ≠ line) → Gives (.holding bytes) (.error (.unreadable .notText))
  | integer {bytes : List UInt8} {s : String} {word : List Char} {n : Int64} : bytes ≠ [] →
      Bytes.FirstLine bytes (Bytes.encode s) → Text.FirstWord s.toList word →
      Numeral.Spells word n.toInt → Gives (.holding bytes) (.ok n)
  | malformed {bytes : List UInt8} {s : String} {word : List Char} : bytes ≠ [] →
      Bytes.FirstLine bytes (Bytes.encode s) → Text.FirstWord s.toList word →
      (∀ n : Int64, ¬ Numeral.Spells word n.toInt) →
      Gives (.holding bytes) (.error (.malformed (String.ofList word)))

/-! ### One input -/

/-- `q.Opens r q'`: an input that finds supply `q` reads from `r`, or cannot be opened for the
reason given, and leaves `q'`.  A script gives each reply once, a device is always the same. -/
inductive Supply.Opens : Supply → Except Failure Reader → Supply → Prop where
  | exhausted : Opens (.script []) (.ok (.holding [])) (.script [])
  | line {s : String} {q : List Reply} :
      Opens (.script (.line s :: q)) (.ok (.holding (Bytes.encode s))) (.script q)
  | unavailable {q : List Reply} :
      Opens (.script (.unavailable :: q)) (.error .noTerminal) (.script q)
  | absent {why : Failure} :
      Opens (.device (.absent why)) (.error why) (.device (.absent why))
  | broken {why : Failure} :
      Opens (.device (.broken why)) (.ok (.failing why)) (.device (.broken why))
  | file {bytes : List UInt8} :
      Opens (.device (.file bytes)) (.ok (.holding bytes)) (.device (.file bytes))

/-- `s.Asks x n s'`: in state `s` the integer for `x` is `n`, and `s'` is the state behind it.  A
supply that opens brings a prompt, and every failure a warning and the integer zero. -/
inductive State.Asks : State → String → Int64 → State → Prop where
  | read {t : Table} {out err x : String} {q q' : Supply} {r : Reader} {n : Int64} :
      q.Opens (.ok r) q' → r.Gives (.ok n) →
      Asks ⟨t, ⟨out, err⟩, q⟩ x n ⟨t, ⟨out ++ ("Input for " ++ x ++ ": "), err⟩, q'⟩
  | invalid {t : Table} {out err x : String} {q q' : Supply} {r : Reader} {e : InputError} :
      q.Opens (.ok r) q' → r.Gives (.error e) →
      Asks ⟨t, ⟨out, err⟩, q⟩ x 0
        ⟨t, ⟨out ++ ("Input for " ++ x ++ ": "),
          err ++ ("warning: invalid integer input for " ++ x ++ ": " ++ e.message ++ "\n")⟩, q'⟩
  | shut {t : Table} {out err x : String} {q q' : Supply} {why : Failure} :
      q.Opens (.error why) q' →
      Asks ⟨t, ⟨out, err⟩, q⟩ x 0
        ⟨t, ⟨out, err ++ ("warning: cannot open terminal for input of " ++ x ++ ": " ++
          why.message ++ "\n")⟩, q'⟩

/-! ### Nodes and sequences -/

/-- What is evaluated: a node, or statements one after another. -/
inductive Task where
  | node (n : Node)
  | sequence (ss : List Node)

/-- `Evaluates t s r s'`: task `t`, begun in state `s`, ends with result `r` in state `s'`. -/
inductive Evaluates : Task → State → Except Fault Value → State → Prop where
  | number {n : Int64} {s : State} : Evaluates (.node (.number n)) s (.ok (.int n)) s
  | text {x : String} {s : State} : Evaluates (.node (.text x)) s (.ok (.text x)) s
  | var {x : String} {s : State} : Evaluates (.node (.var x)) s (.ok (s.table.read x)) s
  | assign {x : String} {e : Node} {s s' : State} {v : Value} :
      Evaluates (.node e) s (.ok v) s' →
      Evaluates (.node (.assign x e)) s (.ok v) { s' with table := s'.table.assign x v }
  | assignFault {x : String} {e : Node} {s s' : State} {f : Fault} :
      Evaluates (.node e) s (.error f) s' → Evaluates (.node (.assign x e)) s (.error f) s'
  | input {x : String} {s s' : State} {n : Int64} : s.Asks x n s' →
      Evaluates (.node (.input x)) s (.ok (.int n))
        { s' with table := s'.table.assign x (.int n) }
  | print {e : Node} {s : State} {t : Table} {out err : String} {q : Supply} {v : Value} :
      Evaluates (.node e) s (.ok v) ⟨t, ⟨out, err⟩, q⟩ →
      Evaluates (.node (.print e)) s (.ok .unit) ⟨t, ⟨out ++ (v.display ++ "\n"), err⟩, q⟩
  | printFault {e : Node} {s s' : State} {f : Fault} :
      Evaluates (.node e) s (.error f) s' → Evaluates (.node (.print e)) s (.error f) s'
  | binary {op : Operator} {l r : Node} {s s₁ s₂ : State} {a b : Value}
      {c : Except Fault Int64} :
      Evaluates (.node l) s (.ok a) s₁ → Evaluates (.node r) s₁ (.ok b) s₂ →
      op.Yields a.toInt b.toInt c → Evaluates (.node (.binary op l r)) s (c.map .int) s₂
  | leftFault {op : Operator} {l r : Node} {s s' : State} {f : Fault} :
      Evaluates (.node l) s (.error f) s' →
      Evaluates (.node (.binary op l r)) s (.error f) s'
  | rightFault {op : Operator} {l r : Node} {s s₁ s₂ : State} {a : Value} {f : Fault} :
      Evaluates (.node l) s (.ok a) s₁ → Evaluates (.node r) s₁ (.error f) s₂ →
      Evaluates (.node (.binary op l r)) s (.error f) s₂
  | branchYes {c : Node} {yes no : List Node} {s s₁ s₂ : State} {v : Value}
      {r : Except Fault Value} :
      Evaluates (.node c) s (.ok v) s₁ → v.toInt ≠ 0 → Evaluates (.sequence yes) s₁ r s₂ →
      Evaluates (.node (.branch c yes no)) s r s₂
  | branchNo {c : Node} {yes no : List Node} {s s₁ s₂ : State} {v : Value}
      {r : Except Fault Value} :
      Evaluates (.node c) s (.ok v) s₁ → v.toInt = 0 → Evaluates (.sequence no) s₁ r s₂ →
      Evaluates (.node (.branch c yes no)) s r s₂
  | branchFault {c : Node} {yes no : List Node} {s s' : State} {f : Fault} :
      Evaluates (.node c) s (.error f) s' →
      Evaluates (.node (.branch c yes no)) s (.error f) s'
  | loopEnd {c : Node} {body : List Node} {s s' : State} {v : Value} :
      Evaluates (.node c) s (.ok v) s' → v.toInt = 0 →
      Evaluates (.node (.loop c body)) s (.ok .unit) s'
  | loopPass {c : Node} {body : List Node} {s s₁ s₂ s₃ : State} {v w : Value}
      {r : Except Fault Value} :
      Evaluates (.node c) s (.ok v) s₁ → v.toInt ≠ 0 →
      Evaluates (.sequence body) s₁ (.ok w) s₂ → Evaluates (.node (.loop c body)) s₂ r s₃ →
      Evaluates (.node (.loop c body)) s r s₃
  | loopFault {c : Node} {body : List Node} {s s' : State} {f : Fault} :
      Evaluates (.node c) s (.error f) s' → Evaluates (.node (.loop c body)) s (.error f) s'
  | passFault {c : Node} {body : List Node} {s s₁ s₂ : State} {v : Value} {f : Fault} :
      Evaluates (.node c) s (.ok v) s₁ → v.toInt ≠ 0 →
      Evaluates (.sequence body) s₁ (.error f) s₂ →
      Evaluates (.node (.loop c body)) s (.error f) s₂
  | block {ss : List Node} {s s' : State} {r : Except Fault Value} :
      Evaluates (.sequence ss) s r s' → Evaluates (.node (.block ss)) s r s'
  | nil {s : State} : Evaluates (.sequence []) s (.ok .unit) s
  | cons {n : Node} {ss : List Node} {s s₁ s₂ : State} {v : Value} {r : Except Fault Value} :
      Evaluates (.node n) s (.ok v) s₁ → Evaluates (.sequence ss) s₁ r s₂ →
      Evaluates (.sequence (n :: ss)) s r s₂
  | stop {n : Node} {ss : List Node} {s s' : State} {f : Fault} :
      Evaluates (.node n) s (.error f) s' → Evaluates (.sequence (n :: ss)) s (.error f) s'

end Treewalk
