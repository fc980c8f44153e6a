import Treewalk.Run.Value

/-!
# Run — The table of names

One flat table holds the value of every name.  The first assignment binds a name, later ones
replace its value, and a name that was never bound reads as `Value.unit` without being bound by
that.
-/

namespace Treewalk

/-- The bound names with their values, in the order in which they were first bound. -/
structure Table where
  entries : List (String × Value)
  /-- Each name is bound once. -/
  nodup : (entries.map Prod.fst).Nodup := by decide
  deriving DecidableEq, Repr

namespace Table

/-- No name is bound. -/
def empty : Table := { entries := [] }

/-- The value of `x` among the entries. -/
def find? (x : String) : List (String × Value) → Option Value
  | [] => none
  | (y, v) :: es => if x = y then some v else find? x es

/-- The value of a name, if it is bound. -/
def get? (t : Table) (x : String) : Option Value :=
  find? x t.entries

/-- The value that reading a name gives. -/
def read (t : Table) (x : String) : Value :=
  (t.get? x).getD .unit

/-- The entries with `x` bound to `v`, in its old place or behind all others. -/
def put (x : String) (v : Value) : List (String × Value) → List (String × Value)
  | [] => [(x, v)]
  | (y, w) :: es => if x = y then (y, v) :: es else (y, w) :: put x v es

theorem map_fst_put (x : String) (v : Value) (es : List (String × Value)) :
    (put x v es).map Prod.fst =
      if x ∈ es.map Prod.fst then es.map Prod.fst else es.map Prod.fst ++ [x] := by
  induction es with
  | nil => rfl
  | cons e es ih =>
    obtain ⟨y, w⟩ := e
    rw [put]
    by_cases h : x = y
    · simp [h]
    · rw [if_neg h, List.map_cons, ih]
      by_cases hmem : x ∈ es.map Prod.fst <;> simp [h, hmem]

theorem nodup_put {es : List (String × Value)} (h : (es.map Prod.fst).Nodup) (x : String)
    (v : Value) : ((put x v es).map Prod.fst).Nodup := by
  rw [map_fst_put]
  split
  · exact h
  · next hnew =>
    refine List.nodup_append.mpr ⟨h, List.pairwise_singleton _ _, fun y hy z hz heq => hnew ?_⟩
    rwa [← List.mem_singleton.mp hz, ← heq]

/-- The table with `x` bound to `v`. -/
def assign (t : Table) (x : String) (v : Value) : Table :=
  ⟨put x v t.entries, nodup_put t.nodup x v⟩

/-- How many names are bound. -/
def size (t : Table) : Nat := t.entries.length

/-! ### What an assignment changes -/

theorem find?_put (x : String) (v : Value) (es : List (String × Value)) (y : String) :
    find? y (put x v es) = if y = x then some v else find? y es := by
  induction es with
  | nil => simp [put, find?]
  | cons e es ih =>
    obtain ⟨z, w⟩ := e
    by_cases hz : x = z
    · subst hz
      by_cases h : y = x <;> simp [put, find?, h]
    · by_cases h : y = x
      · subst h
        simp [put, find?, hz, ih]
      · simp [put, find?, hz, ih, h]

@[simp] theorem get?_assign (t : Table) (x : String) (v : Value) (y : String) :
    (t.assign x v).get? y = if y = x then some v else t.get? y :=
  find?_put x v t.entries y

theorem read_assign (t : Table) (x : String) (v : Value) (y : String) :
    (t.assign x v).read y = if y = x then v else t.read y := by
  by_cases h : y = x <;> simp [read, h]

end Table

end Treewalk
