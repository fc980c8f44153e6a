import Treewalk.Proofs.Evaluation.Agreement
import Treewalk.Proofs.Lexical.MaximalMunch

/-!
# Program — Concatenation

Two programs, one on the lines behind the other, are one program: it does what the first does and
then, if that ends without a fault, what the second does.

* `Symbol.ofText_append_line`: the end of a line ends every lexeme in front of it that is no
  offence, a comment too.
* `Symbol.Reads.append`: digits that can be read alone can be read behind anything, and mean the
  same.
* `Grammar.Derives.append`: statements behind statements are statements.
* `Evaluates.block_append_iff`: a block runs as its two parts, the second only if the first ends
  without a fault.
-/

namespace Treewalk

open Grammar Treewalk.Symbol Lexeme

/-! ### Texts -/

/-- Blanks say nothing. -/
theorem Symbol.ofText_gaps {gs : List Char} (hg : ∀ c ∈ gs, isGap c = true) (cs : List Char) :
    ofText (gs ++ cs) = ofText cs := by
  induction gs with
  | nil => rfl
  | cons c gs ih =>
      rw [List.forall_mem_cons] at hg
      rw [List.cons_append, ofText_gap hg.1, ih hg.2]

/-- A text goes on behind the end of its line as if it began there. -/
theorem Symbol.ofText_append_line {cs : List Char} (h : .offence ∉ ofText cs) (ds : List Char) :
    ofText (cs ++ '\n' :: ds) = ofText cs ++ ofText ds := by
  fun_induction ofText cs with
  | case1 => exact ofText_gap (by decide) ds
  | case2 c rest shape n hcut ih =>
      rw [List.mem_append, not_or] at h
      have ih := ih h.2
      by_cases hgap : shape = .gap
      · subst hgap
        have hg : ∀ d ∈ c :: rest.take n, isGap d = true := by
          cases matches_cut hcut rfl with
          | gap _ hall => exact fun d hd => isGap_iff.mpr (hall d hd)
        have hsplit : c :: rest ++ '\n' :: ds =
            (c :: rest.take n) ++ (rest.drop n ++ '\n' :: ds) := by
          rw [List.cons_append, List.cons_append, ← List.append_assoc, List.take_append_drop]
        rw [hsplit, ofText_gaps hg, ih]
        rfl
      · have hopen : shape ≠ .openText := by
          rintro rfl
          exact h.1 (by simp [ofLexeme?])
        have hcut' := cut_append hcut (by decide : isGap '\n' = true) hgap hopen (fun _ => rfl) ds
        rw [List.cons_append, ofText_cons hcut', List.take_append_of_le_length (cut_le hcut),
          List.drop_append_of_le_length (cut_le hcut), ih, List.append_assoc]

/-! ### Symbols -/

theorem Symbol.Reads.offence_not_mem {m : Bool} {ys : List Symbol} {ks : List TokenKind}
    (h : Reads m ys ks) : .offence ∉ ys := by
  induction h with
  | nil => exact List.not_mem_nil
  | cons hk _ ih =>
      refine List.not_mem_cons_of_ne_of_not_mem ?_ ih
      rintro rfl
      cases hk

/-- Behind a minus sign nothing is read differently that can be read elsewhere. -/
theorem Symbol.Reads.behind {ys : List Symbol} {ks : List TokenKind} (h : Reads false ys ks)
    (m : Bool) : Reads m ys ks := by
  cases h with
  | nil => exact .nil
  | @cons _ y _ k _ hk h =>
      refine .cons ?_ h
      cases y with
      | digits ds =>
          obtain ⟨n, hn, rfl⟩ := Option.map_eq_some_iff.mp hk
          obtain ⟨hv, hlt | ⟨⟨⟩, -⟩⟩ := literal?_eq_some_iff.mp hn
          rw [kind?, literal?_eq_some_iff.mpr ⟨hv, .inl hlt⟩]
          rfl
      | kind k => exact hk
      | offence => cases hk

theorem Symbol.Reads.append {m : Bool} {ys zs : List Symbol} {ks ls : List TokenKind}
    (h : Reads m ys ks) (h' : Reads false zs ls) : Reads m (ys ++ zs) (ks ++ ls) := by
  induction h with
  | nil => exact h'.behind _
  | cons hk _ ih => exact .cons hk ih

/-! ### Statements -/

theorem Grammar.Derives.append {ks ls : List TokenKind} {ms ns : List Node}
    (h : Derives .statements ks ms) (h' : Derives .statements ls ns) :
    Derives .statements (ks ++ ls) (ms ++ ns) := by
  generalize hp : Part.statements = p at h
  induction h with
  | nil => exact h'
  | cons hs _ _ ih =>
      rw [List.append_assoc, List.append_assoc]
      exact .cons hs (ih rfl)
  | _ => cases hp

/-! ### Runs -/

theorem Evaluates.block_append_iff {ms ns : List Node} {s s' : State} {r : Except Fault Value} :
    Evaluates (.node (.block (ms ++ ns))) s r s' ↔
      (∃ f, r = .error f ∧ Evaluates (.node (.block ms)) s (.error f) s') ∨
        ∃ v s₁, Evaluates (.node (.block ms)) s (.ok v) s₁ ∧
          Evaluates (.node (.block ns)) s₁ r s' := by
  have hblock : ∀ {ss : List Node} {s s' : State} {r : Except Fault Value},
      Evaluates (.node (.block ss)) s r s' ↔ Evaluates (.sequence ss) s r s' :=
    ⟨fun h => by cases h with | block h => exact h, .block⟩
  simp only [hblock]
  exact sequence_append_iff

/-! ### Programs -/

/-- The program of two texts, one behind the other, is that of the first and that of the second. -/
theorem Script.tree_append_line {x y z a b : String} {ms ns : List Node}
    (ha : Script.tree ⟨x, a⟩ = .ok (.block ms)) (hb : Script.tree ⟨y, b⟩ = .ok (.block ns)) :
    Script.tree ⟨z, a ++ "\n" ++ b⟩ = .ok (.block (ms ++ ns)) := by
  obtain ⟨ks, hks, _, hms, ⟨⟩⟩ := Script.tree_eq_ok_iff.mp ha
  obtain ⟨ls, hls, _, hns, ⟨⟩⟩ := Script.tree_eq_ok_iff.mp hb
  have htext : ofText (a ++ "\n" ++ b).toList = ofText a.toList ++ ofText b.toList := by
    rw [← ofText_append_line hks.offence_not_mem]
    simp
  refine Script.tree_eq_ok_iff.mpr ⟨ks ++ ls, ?_, ms ++ ns, hms.append hns, rfl⟩
  rw [htext]
  exact hks.append hls

/-- **Programs compose by concatenation.**  The program of two texts, one on the lines behind the
other, holds the statements of both.  It ends as the first does if that is with a fault, and else as
the second does in the state that the first leaves. -/
theorem concatenation_composes {x y z a b : String} {ms ns : List Node}
    (ha : Script.tree ⟨x, a⟩ = .ok (.block ms)) (hb : Script.tree ⟨y, b⟩ = .ok (.block ns)) :
    Script.tree ⟨z, a ++ "\n" ++ b⟩ = .ok (.block (ms ++ ns)) ∧
      ∀ s r s', (∃ fuel, evaluate fuel (.block (ms ++ ns)) s = some (r, s')) ↔
        (∃ f, r = .error f ∧ ∃ fuel, evaluate fuel (.block ms) s = some (.error f, s')) ∨
          ∃ v s₁, (∃ fuel, evaluate fuel (.block ms) s = some (.ok v, s₁)) ∧
            ∃ fuel, evaluate fuel (.block ns) s₁ = some (r, s') := by
  refine ⟨Script.tree_append_line ha hb, fun s r s' => ?_⟩
  constructor
  · rintro ⟨_, h⟩
    rcases Evaluates.block_append_iff.mp (evaluates_of_evaluate h) with
      ⟨f, rfl, hf⟩ | ⟨v, s₁, hv, hr⟩
    · exact .inl ⟨f, rfl, hf.exists_evaluate⟩
    · exact .inr ⟨v, s₁, hv.exists_evaluate, hr.exists_evaluate⟩
  · rintro (⟨f, rfl, _, hf⟩ | ⟨v, s₁, ⟨_, hv⟩, _, hr⟩)
    · refine Evaluates.exists_evaluate (Evaluates.block_append_iff.mpr (.inl ⟨f, rfl, ?_⟩))
      exact evaluates_of_evaluate hf
    · refine Evaluates.exists_evaluate (Evaluates.block_append_iff.mpr (.inr ⟨v, s₁, ?_, ?_⟩))
      · exact evaluates_of_evaluate hv
      · exact evaluates_of_evaluate hr

/-- Behind a conditional without an alternative and a comment, a second program still runs. -/
theorem print_behind_comment :
    ∃ root fuel,
      Script.tree ⟨"both", "if (1) \x7b x = 1; \x7d // one" ++ "\n" ++ "print(x);"⟩ = .ok root ∧
        evaluate fuel root (.start (.script [])) =
          some (.ok .unit,
            { (State.start (.script [])).assign "x" (.int 1) with console := ⟨"1\n", ""⟩ }) := by
  let s₁ := (State.start (.script [])).assign "x" (.int 1)
  have hfirst : Script.tree ⟨"first", "if (1) \x7b x = 1; \x7d // one"⟩ =
      .ok (.block [.branch (.number 1) [.assign "x" (.number 1)] []]) := by
    refine Script.tree_eq_ok_iff.mpr ⟨[.keyword .branch, .mark .openParen, .number 1,
      .mark .closeParen, .mark .openBrace, .name "x", .mark .assign, .number 1, .mark .semicolon,
      .mark .closeBrace], ?_, _, ?_, rfl⟩
    · have htext : ofText "if (1) \x7b x = 1; \x7d // one".toList =
          [.kind (.keyword .branch), .kind (.mark .openParen), .digits ['1'],
            .kind (.mark .closeParen), .kind (.mark .openBrace), .kind (.name "x"),
            .kind (.mark .assign), .digits ['1'], .kind (.mark .semicolon),
            .kind (.mark .closeBrace)] := by decide +kernel
      rw [htext]
      exact .cons rfl (.cons rfl (.cons rfl (.cons rfl (.cons rfl (.cons rfl (.cons rfl
        (.cons rfl (.cons rfl (.cons rfl .nil)))))))))
    · have hone : Expression .equality [.number 1] (.number 1) :=
        .tighter (.tighter (.tighter (.tighter (.tighter .number))))
      exact .cons (.conditional (.ifOnly hone (.block (.cons (.assign hone) .nil)))) .nil
  have hsecond : Script.tree ⟨"second", "print(x);"⟩ = .ok (.block [.print (.var "x")]) := by
    refine Script.tree_eq_ok_iff.mpr ⟨[.keyword .print, .mark .openParen, .name "x",
      .mark .closeParen, .mark .semicolon], ?_, _, ?_, rfl⟩
    · have htext : ofText "print(x);".toList = [.kind (.keyword .print), .kind (.mark .openParen),
          .kind (.name "x"), .kind (.mark .closeParen), .kind (.mark .semicolon)] := by
        decide +kernel
      rw [htext]
      exact .cons rfl (.cons rfl (.cons rfl (.cons rfl (.cons rfl .nil))))
    · have hname : Expression .equality [.name "x"] (.var "x") :=
        .tighter (.tighter (.tighter (.tighter (.tighter .name))))
      exact .cons (.print hname) .nil
  obtain ⟨htree, hrun⟩ := concatenation_composes (z := "both") hfirst hsecond
  have hprint : s₁.console.printLine (s₁.table.read "x").display = ⟨"1\n", ""⟩ := by decide +kernel
  obtain ⟨fuel, hfuel⟩ := (hrun (.start (.script [])) (.ok .unit) { s₁ with
    console := s₁.console.printLine (s₁.table.read "x").display }).mpr
      (.inr ⟨.unit, s₁, ⟨20, rfl⟩, 20, rfl⟩)
  rw [hprint] at hfuel
  exact ⟨_, fuel, htree, hfuel⟩

end Treewalk
