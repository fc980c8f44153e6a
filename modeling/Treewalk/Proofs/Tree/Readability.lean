import Treewalk.Proofs.Lexical.Spelling
import Treewalk.Proofs.Text.Quotation
import Treewalk.Proofs.Tree.Parts
import Treewalk.Tree.Printer

/-!
# Tree — Unique readability

The text of a tree loses nothing.  Trees may be put together in any way, texts may say anything, and
names may be keywords, as long as they are words:

* `ofText?_chars`: the beginning of its text tells what a node is.
* `readable`: where the text of a node stands, no other node can be read, and it is told where that
  text ends.  Names and numbers end at a delimiter, quoted texts at their quotation mark, the
  statements of a body at the parenthesis that closes it.
* `render_injective`: trees with one text are one tree.
-/

namespace Treewalk.Node

open Text Lexeme

/-! ### The text of pieces -/

/-- The characters of a layout. -/
def chars (ps : List Piece) : List Char := (layout "" ps).toList

theorem layout_append (done : String) (ps qs : List Piece) :
    layout done (ps ++ qs) = layout (layout done ps) qs := by
  fun_induction layout done ps with
  | case1 done => rfl
  | case2 done s ps ih => rw [List.cons_append, layout, ih]
  | case3 done depth n ps ih => rw [List.cons_append, layout, ← List.append_assoc, ih]

/-- What is laid out already stays in front. -/
theorem toList_layout (done : String) (ps : List Piece) :
    (layout done ps).toList = done.toList ++ chars ps := by
  have h : ∀ (a b : String), layout (a ++ b) ps = a ++ layout b ps := fun a b => by
    fun_induction layout b ps with
    | case1 b => rw [layout]
    | case2 b s ps ih => rw [layout, String.append_assoc, ih]
    | case3 b depth n ps ih => rw [layout, ih]
  rw [chars, ← String.toList_append, ← h, String.append_empty]

@[simp] theorem chars_nil : chars [] = [] := by
  rw [chars, layout]
  rfl

@[simp] theorem chars_text (s : String) (ps : List Piece) :
    chars (.text s :: ps) = s.toList ++ chars ps := by
  rw [chars, layout, toList_layout, String.toList_append]
  rfl

@[simp] theorem chars_node (depth : Nat) (n : Node) (ps : List Piece) :
    chars (.node depth n :: ps) = chars (n.pieces depth) ++ chars ps := by
  rw [chars, layout, layout_append, toList_layout]
  rfl

@[simp] theorem chars_append (ps qs : List Piece) : chars (ps ++ qs) = chars ps ++ chars qs := by
  rw [chars, layout_append, toList_layout]
  rfl

theorem toList_render (n : Node) : n.render.toList = chars (n.pieces 0) := by
  have h : n.render.toList = chars [.node 0 n] := rfl
  rw [h, chars_node, chars_nil, List.append_nil]

/-! ### Numbers -/

/-- A character of the text of an integer. -/
def isNumeric (c : Char) : Bool := c == '-' || c.isDigit

theorem isNumeric_ofInt (i : Int) : ∀ c ∈ Numeral.ofInt i, isNumeric c = true :=
  Numeral.forall_mem_ofInt (by decide) (by decide) i

/-! ### What a text begins with -/

/-- What a node is, as far as the beginning of its text shows. -/
inductive Opening where
  | block | assign | input | text | print | branch | loop | binary (op : Operator) | number | var

/-- The opening of a node. -/
def opening : Node → Opening
  | block _ => .block
  | assign _ _ => .assign
  | input _ => .input
  | text _ => .text
  | print _ => .print
  | branch _ _ _ => .branch
  | loop _ _ => .loop
  | binary op _ _ => .binary op
  | number _ => .number
  | var _ => .var

/-- The opening of a text that goes on behind a parenthesis. -/
def Opening.inParens? : List Char → Option Opening
  | 'b' :: _ => some .block
  | '=' :: ' ' :: _ => some .assign
  | '=' :: _ => some (.binary .equal)
  | 'i' :: 'n' :: _ => some .input
  | 'i' :: _ => some .branch
  | 'p' :: _ => some .print
  | 'w' :: _ => some .loop
  | '+' :: _ => some (.binary .add)
  | '-' :: _ => some (.binary .sub)
  | '*' :: _ => some (.binary .mul)
  | '/' :: _ => some (.binary .div)
  | '%' :: _ => some (.binary .mod)
  | '>' :: _ => some (.binary .greater)
  | '<' :: _ => some (.binary .less)
  | _ => none

/-- The opening of a text. -/
def Opening.ofText? : List Char → Option Opening
  | [] => none
  | c :: cs =>
    if c = '(' then inParens? cs
    else if c = '"' then some .text
    else if isWordStart c then some .var
    else some .number

/-- The names in the tree are words. -/
def Worded (n : Node) : Prop := ∀ x ∈ n.names, isWord x.toList = true

theorem Worded.child {n c : Node} (h : n.Worded) (hc : c ∈ n.children) : c.Worded :=
  fun x hx => h x (mem_names_of_child hc hx)

theorem Worded.isWord {n : Node} (h : n.Worded) {x : String} (hx : n.name? = some x) :
    isWord x.toList = true :=
  h x (mem_names_iff.mpr ⟨n, .refl, hx⟩)

/-- **The beginning of its text tells what a node is.** -/
theorem ofText?_chars {n : Node} (h : n.Worded) (depth : Nat) (rest : List Char) :
    Opening.ofText? (chars (n.pieces depth) ++ rest) = some n.opening := by
  cases n with
  | block ss | print e | branch c yes no | loop c body =>
      simp only [pieces, chars_text]
      rfl
  | text s =>
      simp only [pieces, chars_text, quote, String.toList_ofList]
      rfl
  | assign x e | input x =>
      simp only [pieces, chars_text, String.toList_append, List.append_assoc]
      rfl
  | binary op l r =>
      simp only [pieces, chars_text, String.toList_append, List.append_assoc]
      cases op <;> rfl
  | number k =>
      obtain ⟨c, cs, hcs⟩ := List.exists_cons_of_ne_nil (Numeral.ofInt_ne_nil k.toInt)
      have hc : isNumeric c = true := isNumeric_ofInt k.toInt c (hcs ▸ List.mem_cons_self)
      have hparen : c ≠ '(' := by rintro rfl; exact absurd hc (by decide)
      have hquote : c ≠ '"' := by rintro rfl; exact absurd hc (by decide)
      have hword : ¬ isWordStart c = true := fun hw => by
        rw [isNumeric, Bool.or_eq_true, beq_iff_eq] at hc
        rcases hc with rfl | hc
        · exact absurd hw (by decide)
        · exact not_isDigit hw hc
      simp only [pieces, chars_text, Numeral.ofWord, String.toList_ofList, hcs, List.cons_append,
        Opening.ofText?, if_neg hparen, if_neg hquote, if_neg hword]
      rfl
  | var x =>
      have hx : isWord x.toList = true := h.isWord rfl
      obtain ⟨c, cs, hcs⟩ : ∃ c cs, x.toList = c :: cs := by
        cases hx' : x.toList with
        | nil => rw [hx'] at hx; cases hx
        | cons c cs => exact ⟨c, cs, rfl⟩
      rw [hcs, Lexeme.isWord, Bool.and_eq_true] at hx
      have hparen : c ≠ '(' := by rintro rfl; exact absurd hx.1 (by decide)
      have hquote : c ≠ '"' := by rintro rfl; exact absurd hx.1 (by decide)
      simp only [pieces, chars_text, hcs, List.cons_append, Opening.ofText?, if_neg hparen,
        if_neg hquote, if_pos hx.1]
      rfl

/-! ### Reading -/

/-- A character that ends names and numbers stands in front, or none. -/
def Delimited (cs : List Char) : Prop := ∀ c ∈ cs.head?, c ∈ [' ', ')', '\n']

theorem Delimited.stops {cs : List Char} (h : Delimited cs) {p : Char → Bool}
    (hp : [' ', ')', '\n'].any p = false) : Stops p cs := fun c hc =>
  Bool.eq_false_iff.mpr (List.any_eq_false.mp hp c (h c hc))

/-- A run of characters up to a delimiter can be told from what follows. -/
theorem Delimited.append_inj {p : Char → Bool} (hp : [' ', ')', '\n'].any p = false)
    {s t u v : List Char} (hs : ∀ c ∈ s, p c = true) (ht : ∀ c ∈ t, p c = true)
    (hu : Delimited u) (hv : Delimited v) (h : s ++ u = t ++ v) : s = t ∧ u = v := by
  have htake := congrArg (List.takeWhile p) h
  have hdrop := congrArg (List.dropWhile p) h
  rw [takeWhile_run hs (hu.stops hp), takeWhile_run ht (hv.stops hp)] at htake
  rw [dropWhile_run hs (hu.stops hp), dropWhile_run ht (hv.stops hp)] at hdrop
  exact ⟨htake, hdrop⟩

theorem delimited_append {cs ds : List Char}
    (h : cs.head?.any [' ', ')', '\n'].contains = true := by rfl) : Delimited (cs ++ ds) := by
  intro c hc
  cases cs with
  | nil => cases h
  | cons d cs =>
      cases hc
      exact List.contains_iff_mem.mp h

theorem isWordPart_of_isWord {cs : List Char} (h : isWord cs = true) :
    ∀ c ∈ cs, isWordPart c = true := by
  cases cs with
  | nil => cases h
  | cons d cs =>
      rw [isWord, Bool.and_eq_true, List.all_eq_true] at h
      intro c hc
      rcases List.mem_cons.mp hc with rfl | hc
      · rw [isWordPart, h.1, Bool.true_or]
      · exact h.2 c hc

theorem name_append_inj {x y : String} {u v : List Char} (hx : isWord x.toList = true)
    (hy : isWord y.toList = true) (hu : Delimited u) (hv : Delimited v)
    (h : x.toList ++ u = y.toList ++ v) : x = y ∧ u = v := by
  obtain ⟨hxy, huv⟩ := Delimited.append_inj (by decide) (isWordPart_of_isWord hx)
    (isWordPart_of_isWord hy) hu hv h
  exact ⟨String.toList_inj.mp hxy, huv⟩

theorem number_append_inj {k l : Int64} {u v : List Char} (hu : Delimited u) (hv : Delimited v)
    (h : (Numeral.ofWord k).toList ++ u = (Numeral.ofWord l).toList ++ v) : k = l ∧ u = v := by
  rw [Numeral.ofWord, Numeral.ofWord, String.toList_ofList, String.toList_ofList] at h
  obtain ⟨hkl, huv⟩ := Delimited.append_inj (by decide) (isNumeric_ofInt k.toInt)
    (isNumeric_ofInt l.toInt) hu hv h
  exact ⟨Int64.toInt_inj.mp (Numeral.ofInt_inj hkl), huv⟩

/-- Where the text of the node stands, no other node and no other rest can be read. -/
def Readable (m : Node) : Prop :=
  ∀ {n : Node} {depth : Nat} {u v : List Char}, n.Worded → Delimited u → Delimited v →
    chars (m.pieces depth) ++ u = chars (n.pieces depth) ++ v → m = n ∧ u = v

theorem chars_lines_nil (depth : Nat) : chars (lines depth []) = [] := chars_nil

theorem chars_lines_cons (depth : Nat) (s : Node) (ss : List Node) :
    chars (lines depth (s :: ss)) = '\n' :: (List.replicate (2 * depth) ' ' ++
      (chars (s.pieces depth) ++ chars (lines depth ss))) := by
  simp [lines, newline]

theorem delimited_lines (depth : Nat) (ns : List Node) (w : List Char) :
    Delimited (chars (lines depth ns) ++ ')' :: w) := by
  intro c hc
  cases ns with
  | nil =>
      rw [chars_lines_nil] at hc
      cases hc
      decide
  | cons n ns =>
      rw [chars_lines_cons] at hc
      cases hc
      decide

/-- Statements on lines of their own can be read, up to the parenthesis that closes them. -/
theorem lines_append_inj {depth : Nat} {ms : List Node} (hms : ∀ m ∈ ms, Readable m) :
    ∀ {ns : List Node} {u v : List Char}, (∀ n ∈ ns, n.Worded) →
      chars (lines depth ms) ++ ')' :: u = chars (lines depth ns) ++ ')' :: v →
      ms = ns ∧ u = v := by
  induction ms with
  | nil =>
      intro ns u v hns h
      cases ns with
      | nil => exact ⟨rfl, (List.cons.inj (List.append_cancel_left h)).2⟩
      | cons n ns =>
          rw [chars_lines_nil, chars_lines_cons] at h
          cases h
  | cons m ms ih =>
      intro ns u v hns h
      cases ns with
      | nil =>
          rw [chars_lines_nil, chars_lines_cons] at h
          cases h
      | cons n ns =>
          simp only [chars_lines_cons, List.cons_append, List.append_assoc] at h
          have htext := List.append_cancel_left (List.cons.inj h).2
          obtain ⟨rfl, hrest⟩ := hms m List.mem_cons_self (hns n List.mem_cons_self)
            (delimited_lines depth ms u) (delimited_lines depth ns v) htext
          obtain ⟨rfl, huv⟩ := ih (fun k hk => hms k (List.mem_cons_of_mem _ hk))
            (fun k hk => hns k (List.mem_cons_of_mem _ hk)) hrest
          exact ⟨rfl, huv⟩

/-- **The text of a node can be read in one way only.** -/
theorem readable (m : Node) : m.Worded → Readable m := by
  refine induction_children m fun m ih hm n depth u v hn hu hv h => ?_
  have hopening : m.opening = n.opening := by
    rw [← Option.some.injEq, ← ofText?_chars hm depth u, h, ofText?_chars hn depth v]
  have hread : ∀ c ∈ m.children, Readable c := fun c hc => ih c hc (hm.child hc)
  -- Both nodes are of one kind; their texts are taken apart from left to right.
  cases m with
  | block ss =>
      cases n with
      | block ts =>
          simp only [pieces, chars_text, chars_append, chars_nil, List.append_assoc] at h
          obtain ⟨rfl, huv⟩ := lines_append_inj hread (fun t ht => hn.child ht)
            (List.append_cancel_left h)
          exact ⟨rfl, huv⟩
      | _ => cases hopening
  | assign x e =>
      cases n with
      | assign y f =>
          simp only [pieces, chars_text, chars_node, chars_nil, String.toList_append,
            List.append_assoc] at h
          obtain ⟨rfl, he⟩ := name_append_inj (hm.isWord rfl) (hn.isWord rfl)
            delimited_append delimited_append (List.append_cancel_left h)
          obtain ⟨rfl, huv⟩ := hread e List.mem_cons_self (hn.child List.mem_cons_self)
            delimited_append delimited_append (List.append_cancel_left he)
          exact ⟨rfl, List.append_cancel_left huv⟩
      | _ => cases hopening
  | input x =>
      cases n with
      | input y =>
          simp only [pieces, chars_text, chars_nil, String.toList_append, List.append_assoc] at h
          obtain ⟨rfl, huv⟩ := name_append_inj (hm.isWord rfl) (hn.isWord rfl)
            delimited_append delimited_append (List.append_cancel_left h)
          exact ⟨rfl, List.append_cancel_left huv⟩
      | _ => cases hopening
  | text s =>
      cases n with
      | text t =>
          simp only [pieces, chars_text, chars_nil, quote, String.toList_ofList, List.cons_append,
            List.append_assoc, List.nil_append, List.cons.injEq, true_and] at h
          obtain ⟨hst, huv⟩ := quoted_append_inj h
          exact ⟨congrArg _ (String.toList_inj.mp hst), huv⟩
      | _ => cases hopening
  | print e =>
      cases n with
      | print f =>
          simp only [pieces, chars_text, chars_node, chars_nil, List.append_assoc] at h
          obtain ⟨rfl, huv⟩ := hread e List.mem_cons_self (hn.child List.mem_cons_self)
            delimited_append delimited_append (List.append_cancel_left h)
          exact ⟨rfl, List.append_cancel_left huv⟩
      | _ => cases hopening
  | branch c yes no =>
      cases n with
      | branch c' yes' no' =>
          have hyes : ∀ {c : Node} {yes no : List Node}, ∀ s ∈ yes, s ∈ c :: (yes ++ no) :=
            fun s hs => List.mem_cons_of_mem _ (List.mem_append_left _ hs)
          have hno : ∀ {c : Node} {yes no : List Node}, ∀ s ∈ no, s ∈ c :: (yes ++ no) :=
            fun s hs => List.mem_cons_of_mem _ (List.mem_append_right _ hs)
          simp only [pieces, chars_text, chars_node, chars_append, chars_nil, newline,
            String.toList_ofList, List.append_assoc] at h
          obtain ⟨rfl, hthen⟩ := hread c List.mem_cons_self (hn.child List.mem_cons_self)
            delimited_append delimited_append (List.append_cancel_left h)
          obtain ⟨rfl, helse⟩ := lines_append_inj (fun s hs => hread s (hyes s hs))
            (fun s hs => hn.child (hyes s hs))
            (List.append_cancel_left (List.append_cancel_left hthen))
          obtain ⟨rfl, huv⟩ := lines_append_inj (fun s hs => hread s (hno s hs))
            (fun s hs => hn.child (hno s hs))
            (List.append_cancel_left (List.append_cancel_left helse))
          exact ⟨rfl, (List.cons.inj huv).2⟩
      | _ => cases hopening
  | loop c body =>
      cases n with
      | loop c' body' =>
          simp only [pieces, chars_text, chars_node, chars_append, chars_nil,
            List.append_assoc] at h
          obtain ⟨rfl, hbody⟩ := hread c List.mem_cons_self (hn.child List.mem_cons_self)
            (delimited_lines _ body u) (delimited_lines _ body' v) (List.append_cancel_left h)
          obtain ⟨rfl, huv⟩ := lines_append_inj (fun s hs => hread s (List.mem_cons_of_mem _ hs))
            (fun s hs => hn.child (List.mem_cons_of_mem _ hs)) hbody
          exact ⟨rfl, huv⟩
      | _ => cases hopening
  | binary op l r =>
      cases n with
      | binary op' l' r' =>
          cases hopening
          have hright : ∀ {l r : Node}, r ∈ [l, r] := List.mem_cons_of_mem _ List.mem_cons_self
          simp only [pieces, chars_text, chars_node, chars_nil, List.append_assoc] at h
          obtain ⟨rfl, hr⟩ := hread l List.mem_cons_self (hn.child List.mem_cons_self)
            delimited_append delimited_append (List.append_cancel_left h)
          obtain ⟨rfl, huv⟩ := hread r hright (hn.child hright)
            delimited_append delimited_append (List.append_cancel_left hr)
          exact ⟨rfl, List.append_cancel_left huv⟩
      | _ => cases hopening
  | number k =>
      cases n with
      | number l =>
          simp only [pieces, chars_text, chars_nil, List.append_nil] at h
          obtain ⟨rfl, huv⟩ := number_append_inj hu hv h
          exact ⟨rfl, huv⟩
      | _ => cases hopening
  | var x =>
      cases n with
      | var y =>
          simp only [pieces, chars_text, chars_nil, List.append_nil] at h
          obtain ⟨rfl, huv⟩ := name_append_inj (hm.isWord rfl) (hn.isWord rfl) hu hv h
          exact ⟨rfl, huv⟩
      | _ => cases hopening

/-- **A tree is told by its text.**  Trees whose names are words, and whose texts are the same, are
the same. -/
theorem render_injective {m n : Node} (hm : ∀ x ∈ m.names, isWord x.toList = true)
    (hn : ∀ x ∈ n.names, isWord x.toList = true) (h : m.render = n.render) : m = n := by
  have htext : chars (m.pieces 0) ++ [] = chars (n.pieces 0) ++ [] := by
    rw [← toList_render, ← toList_render, h]
  have hend : Delimited [] := fun _ hc => nomatch hc
  exact (readable m hm hn hend hend htext).1

/-- Names may be keywords, and the least number is one node under both of its literals. -/
theorem least_number_told :
    let body := fun k => [print (text "(\"\\\n"), assign "if" (number k)]
    let m := loop (var "while") (body (-9223372036854775808))
    let n := loop (var "while") (body 9223372036854775808)
    m.render = n.render ∧ m = n := by
  intro body m n
  have hnames : ∀ k, (loop (var "while") (body k)).names = ["if", "while"] := fun k => by
    simp [body, names, fold, children, name?]
  have hwords : ∀ k, ∀ x ∈ (loop (var "while") (body k)).names, isWord x.toList = true :=
    fun k => by
      rw [hnames]
      decide
  exact ⟨rfl, render_injective (hwords _) (hwords _) rfl⟩

end Treewalk.Node
