import Treewalk.Proofs.Evaluation.Rules
import Treewalk.Proofs.Text.Lines

/-!
# Evaluation — The leaves

The functions that evaluation rests on do what their rules say, and nothing else.

* `Operator.apply_eq_iff`: an operator yields what its rules derive.
* `Reader.readInteger_eq_iff`: one read gives what its rules derive.
* `State.ask_eq_iff`: one input leaves the integer and the state that its rules derive.
-/

namespace Treewalk

/-! ### Operators -/

theorem Int64.div_eq_ofInt_tdiv (a b : Int64) : a / b = .ofInt (a.toInt.tdiv b.toInt) := by
  rw [← Int64.toInt_inj, Int64.toInt_div, Int64.toInt_ofInt]

theorem Int64.mod_eq_ofInt_tmod (a b : Int64) : a % b = .ofInt (a.toInt.tmod b.toInt) := by
  rw [← Int64.toInt_mod, Int64.ofInt_toInt]

theorem Int64.toInt_eq_zero_iff {a : Int64} : a.toInt = 0 ↔ a = 0 := by
  rw [← Int64.toInt_inj, Int64.toInt_zero]

namespace Operator

theorem Yields.apply {op : Operator} {a b : Int64} {r : Except Fault Int64}
    (h : op.Yields a b r) : op.apply a b = r := by
  cases h with
  | add | sub | mul => simp [Operator.apply]
  | div hb =>
      rw [Operator.apply, if_neg (mt Int64.toInt_eq_zero_iff.mpr hb), Int64.div_eq_ofInt_tdiv]
  | mod hb =>
      rw [Operator.apply, if_neg (mt Int64.toInt_eq_zero_iff.mpr hb), Int64.mod_eq_ofInt_tmod]
  | divZero hb | modZero hb => rw [Operator.apply, if_pos (Int64.toInt_eq_zero_iff.mp hb)]
  | greater h | less h => simp [Operator.apply, Value.ofBool, Int64.lt_iff_toInt_lt, h]
  | notGreater h | notLess h => simp [Operator.apply, Value.ofBool, Int64.lt_iff_toInt_lt, h]
  | equal h => simp [Operator.apply, Value.ofBool, Int64.toInt_inj.mp h]
  | notEqual h => simp [Operator.apply, Value.ofBool, mt Int64.toInt_inj.mpr h]

theorem yields_apply (op : Operator) (a b : Int64) : op.Yields a b (op.apply a b) := by
  -- The rules cover all operands, so it is enough that some rule applies.
  have close : ∀ {r}, op.Yields a b r → op.Yields a b (op.apply a b) := fun h => h.apply ▸ h
  cases op with
  | add => exact close .add
  | sub => exact close .sub
  | mul => exact close .mul
  | div =>
      by_cases hb : b.toInt = 0
      · exact close (.divZero hb)
      · exact close (.div hb)
  | mod =>
      by_cases hb : b.toInt = 0
      · exact close (.modZero hb)
      · exact close (.mod hb)
  | greater =>
      rcases Int.lt_or_le b.toInt a.toInt with h | h
      · exact close (.greater h)
      · exact close (.notGreater h)
  | less =>
      rcases Int.lt_or_le a.toInt b.toInt with h | h
      · exact close (.less h)
      · exact close (.notLess h)
  | equal =>
      by_cases h : a.toInt = b.toInt
      · exact close (.equal h)
      · exact close (.notEqual h)

/-- An operator yields what its rules derive. -/
theorem apply_eq_iff {op : Operator} {a b : Int64} {r : Except Fault Int64} :
    op.apply a b = r ↔ op.Yields a b r :=
  ⟨fun h => h ▸ yields_apply op a b, Yields.apply⟩

end Operator

/-! ### Numerals -/

namespace Numeral

theorem natural?_eq_some_iff {ds : List Char} {n : Nat} :
    natural? ds = some n ↔ ds ≠ [] ∧ (∀ c ∈ ds, c.isDigit) ∧ value ds = n := by
  rw [natural?]
  split
  · next h => simp_all
  · next h =>
    simp only [Bool.and_eq_true, List.all_eq_true, Bool.not_eq_true', List.isEmpty_eq_false_iff,
      not_and] at h
    constructor
    · intro hn
      cases hn
    · rintro ⟨hne, hd, -⟩
      exact absurd hd (h hne)

theorem fit?_eq_some_iff {i : Int} {n : Int64} : fit? i = some n ↔ n.toInt = i := by
  have hlo := n.le_toInt
  have hhi := n.toInt_lt
  rw [fit?, bound]
  constructor
  · intro h
    split at h
    · next hr =>
      cases h
      exact Int64.toInt_ofInt_of_le (by omega) (by omega)
    · cases h
  · rintro rfl
    rw [if_pos (by omega), Int64.ofInt_toInt]

theorem bind_fit?_eq_some_iff {ds : List Char} {g : Nat → Int} {n : Int64} :
    ((natural? ds).bind fun m => fit? (g m)) = some n ↔
      ds ≠ [] ∧ (∀ c ∈ ds, c.isDigit) ∧ n.toInt = g (value ds) := by
  rw [Option.bind_eq_some_iff]
  constructor
  · rintro ⟨m, hm, hn⟩
    obtain ⟨hne, hd, rfl⟩ := natural?_eq_some_iff.mp hm
    exact ⟨hne, hd, fit?_eq_some_iff.mp hn⟩
  · rintro ⟨hne, hd, hn⟩
    exact ⟨_, natural?_eq_some_iff.mpr ⟨hne, hd, rfl⟩, fit?_eq_some_iff.mpr hn⟩

/-- A text is read as the word that it spells. -/
theorem word?_eq_some_iff {cs : List Char} {n : Int64} :
    word? cs = some n ↔ Spells cs n.toInt := by
  constructor
  · intro h
    rw [word?.eq_def] at h
    split at h
    · next ds =>
      obtain ⟨hne, hd, hn⟩ := bind_fit?_eq_some_iff.mp h
      exact hn ▸ .minus hne hd
    · next ds =>
      obtain ⟨hne, hd, hn⟩ := bind_fit?_eq_some_iff.mp h
      exact hn ▸ .plus hne hd
    · obtain ⟨hne, hd, hn⟩ := bind_fit?_eq_some_iff.mp h
      exact hn ▸ .plain hne hd
  · intro h
    generalize hi : n.toInt = i at h
    cases h with
    | plain hne hd =>
        obtain ⟨c, ds, rfl⟩ := List.exists_cons_of_ne_nil hne
        have hc := hd c (List.mem_cons_self ..)
        rw [word?]
        · exact bind_fit?_eq_some_iff.mpr ⟨hne, hd, hi⟩
        · rintro ds' ⟨⟩; exact absurd hc (by decide)
        · rintro ds' ⟨⟩; exact absurd hc (by decide)
    | plus hne hd => exact bind_fit?_eq_some_iff.mpr ⟨hne, hd, hi⟩
    | minus hne hd => exact bind_fit?_eq_some_iff.mpr ⟨hne, hd, hi⟩

end Numeral

/-! ### Words and lines -/

theorem Text.firstWord_eq_iff {cs word : List Char} :
    firstWord cs = word ↔ FirstWord cs word := by
  constructor
  · rintro rfl
    let tail := cs.dropWhile isBlank
    refine ⟨cs.takeWhile isBlank, tail.dropWhile fun c => !isBlank c, ?_,
      forall_mem_takeWhile _ _, fun c hc => ?_, fun c hc => ?_, fun h => ?_⟩
    · rw [firstWord, List.takeWhile_append_dropWhile, List.takeWhile_append_dropWhile]
    · simpa using forall_mem_takeWhile _ _ c hc
    · simpa using stops_dropWhile _ _ c hc
    · -- The text behind the blanks begins with no blank, so an empty word ends it.
      have hs : Stops isBlank tail := stops_dropWhile _ _
      cases ht : tail with
      | nil => rfl
      | cons c rest =>
          rw [ht, stops_cons] at hs
          have : firstWord cs = c :: rest.takeWhile fun c => !isBlank c := by
            rw [firstWord, show cs.dropWhile isBlank = c :: rest from ht]
            simp [hs]
          rw [this] at h
          cases h
  · rintro ⟨blanks, rest, rfl, hb, hw, hr, hn⟩
    have hstop : Stops isBlank (word ++ rest) := by
      intro c hc
      cases word with
      | nil => rw [hn rfl] at hc; cases hc
      | cons d word =>
          obtain rfl : d = c := by simpa using hc
          simpa using hw d (List.mem_cons_self ..)
    rw [firstWord, dropWhile_run hb hstop]
    exact takeWhile_run (fun c hc => by simpa using hw c hc) (fun c hc => by simpa using hr c hc)

namespace Bytes

theorem toList_loop (b : ByteArray) (i : Nat) (done : List UInt8) :
    ByteArray.toList.loop b i done = done.reverse ++ b.data.toList.drop i := by
  fun_induction ByteArray.toList.loop b i done with
  | case1 i done hi ih =>
      have hget : b.get! i = b.data.toList[i] := getElem!_pos b.data i hi
      rw [ih, hget, List.reverse_cons, List.append_assoc, List.singleton_append,
        List.getElem_cons_drop]
  | case2 i done hi =>
      rw [List.drop_eq_nil_of_le (Nat.le_of_not_lt hi), List.append_nil]

theorem toList_eq (b : ByteArray) : b.toList = b.data.toList :=
  toList_loop b 0 []

/-- A text is encoded character by character. -/
theorem encode_eq (s : String) : encode s = s.toList.flatMap String.utf8EncodeChar := by
  have h : encode (String.ofList s.toList) = s.toList.flatMap String.utf8EncodeChar := by
    rw [encode, toList_eq]
    exact List.toList_data_toByteArray
  rwa [String.ofList_toList] at h

theorem decode_eq_ok_iff {bytes : List UInt8} {s : String} :
    decode bytes = .ok s ↔ encode s = bytes := by
  have hdata : bytes.toByteArray.data.toList = bytes := List.toList_data_toByteArray
  constructor
  · intro h
    rw [decode, String.fromUTF8?] at h
    split at h
    · next s' hs =>
      split at hs
      · cases hs
        cases h
        rw [encode, toList_eq]
        exact hdata
      · cases hs
    · cases h
  · rintro rfl
    have harr : (encode s).toByteArray = s.toByteArray := by
      apply ByteArray.ext
      rw [← Array.toList_inj, hdata, encode, toList_eq]
      rfl
    rw [decode, harr, String.fromUTF8?, dif_pos s.isValidUTF8]
    rfl

theorem decode_eq_error_iff {bytes : List UInt8} {why : Failure} :
    decode bytes = .error why ↔ why = .notText ∧ ∀ s, encode s ≠ bytes := by
  constructor
  · intro h
    refine ⟨?_, fun s hs => by rw [decode_eq_ok_iff.mpr hs] at h; cases h⟩
    rw [decode] at h
    split at h
    · cases h
    · exact (Except.error.inj h).symm
  · rintro ⟨rfl, hno⟩
    cases h : decode bytes with
    | ok s => exact absurd (decode_eq_ok_iff.mp h) (hno s)
    | error w =>
        rw [decode] at h
        split at h
        · cases h
        · exact h.symm

theorem ne_lineEnd_of_not_mem {bytes : List UInt8} (h : lineEnd ∉ bytes) :
    ∀ b ∈ bytes, (b != lineEnd) = true :=
  fun b hb => by simpa using fun e : b = lineEnd => h (e ▸ hb)

theorem splitLine_ended {line : List UInt8} (h : lineEnd ∉ line) (rest : List UInt8) :
    splitLine (line ++ lineEnd :: rest) = (line ++ [lineEnd], rest) := by
  have hall := ne_lineEnd_of_not_mem h
  have hs : Text.Stops (· != lineEnd) (lineEnd :: rest) := Text.stops_cons.mpr (by simp)
  rw [splitLine, Text.takeWhile_run hall hs, Text.dropWhile_run hall hs]

theorem splitLine_unended {line : List UInt8} (h : lineEnd ∉ line) :
    splitLine line = (line, []) := by
  have ht := Text.takeWhile_run (ne_lineEnd_of_not_mem h) Text.stops_nil
  have hd := Text.dropWhile_run (ne_lineEnd_of_not_mem h) Text.stops_nil
  rw [List.append_nil] at ht hd
  rw [splitLine, ht, hd]

theorem splitLine_eq_iff {bytes line : List UInt8} :
    (splitLine bytes).1 = line ↔ FirstLine bytes line := by
  constructor
  · rintro rfl
    have hsplit : bytes.takeWhile (· != lineEnd) ++ bytes.dropWhile (· != lineEnd) = bytes :=
      List.takeWhile_append_dropWhile
    have hno : lineEnd ∉ bytes.takeWhile (· != lineEnd) := fun hm => by
      simpa using Text.forall_mem_takeWhile _ _ _ hm
    have hstop := Text.stops_dropWhile (· != lineEnd) bytes
    rw [splitLine]
    cases hd : bytes.dropWhile (· != lineEnd) with
    | nil =>
        rw [hd, List.append_nil] at hsplit
        rw [hsplit] at hno ⊢
        exact .unended hno
    | cons b rest =>
        rw [hd, Text.stops_cons] at hstop
        obtain rfl : b = lineEnd := by simpa using hstop
        rw [hd] at hsplit
        have h : FirstLine (bytes.takeWhile (· != lineEnd) ++ lineEnd :: rest) _ := .ended hno
        rwa [hsplit] at h
  · intro h
    cases h with
    | ended hno => rw [splitLine_ended hno]
    | unended hno => rw [splitLine_unended hno]

end Bytes

/-! ### One input -/

namespace Reader

theorem readInteger_of_ne_nil {bytes : List UInt8} (h : bytes ≠ []) :
    readInteger (.holding bytes) =
      (integerOfLine (Bytes.splitLine bytes).1, .holding (Bytes.splitLine bytes).2) := by
  obtain ⟨b, bs, rfl⟩ := List.exists_cons_of_ne_nil h
  rfl

theorem readInteger_holding {bytes line : List UInt8} (hne : bytes ≠ [])
    (hl : Bytes.FirstLine bytes line) :
    (readInteger (.holding bytes)).1 = integerOfLine line := by
  rw [readInteger_of_ne_nil hne, Bytes.splitLine_eq_iff.mpr hl]

theorem integerOfLine_encode {s : String} {word : List Char}
    (hw : Text.FirstWord s.toList word) :
    integerOfLine (Bytes.encode s) =
      (Numeral.word? word).elim (.error (.malformed (String.ofList word))) .ok := by
  rw [integerOfLine, Bytes.decode_eq_ok_iff.mpr rfl]
  simp only [Text.firstWord_eq_iff.mpr hw]
  cases Numeral.word? word <;> rfl

theorem Gives.readInteger {r : Reader} {x : Except InputError Int64} (h : r.Gives x) :
    r.readInteger.1 = x := by
  cases h with
  | failing => rfl
  | closed => rfl
  | notText hne hl hno =>
      rw [readInteger_holding hne hl, integerOfLine, Bytes.decode_eq_error_iff.mpr ⟨rfl, hno⟩]
  | integer hne hl hw hn =>
      rw [readInteger_holding hne hl, integerOfLine_encode hw, Numeral.word?_eq_some_iff.mpr hn]
      rfl
  | @malformed bytes s word hne hl hw hno =>
      have hnone : Numeral.word? word = none :=
        Option.eq_none_iff_forall_ne_some.mpr fun n hn => hno n (Numeral.word?_eq_some_iff.mp hn)
      rw [readInteger_holding hne hl, integerOfLine_encode hw, hnone]
      rfl

theorem gives_readInteger (r : Reader) : r.Gives r.readInteger.1 := by
  have close : ∀ {x}, r.Gives x → r.Gives r.readInteger.1 := fun h => h.readInteger ▸ h
  match r with
  | .failing why => exact .failing
  | .holding [] => exact .closed
  | .holding (b :: bs) =>
      have hne : b :: bs ≠ [] := List.cons_ne_nil b bs
      have hl := Bytes.splitLine_eq_iff.mp (rfl : (Bytes.splitLine (b :: bs)).1 = _)
      cases hd : Bytes.decode (Bytes.splitLine (b :: bs)).1 with
      | error why => exact close (.notText hne hl (Bytes.decode_eq_error_iff.mp hd).2)
      | ok s =>
          rw [← Bytes.decode_eq_ok_iff.mp hd] at hl
          have hw := Text.firstWord_eq_iff.mp (rfl : Text.firstWord s.toList = _)
          cases hn : Numeral.word? (Text.firstWord s.toList) with
          | some n => exact close (.integer hne hl hw (Numeral.word?_eq_some_iff.mp hn))
          | none =>
              refine close (.malformed hne hl hw fun n hs => ?_)
              rw [Numeral.word?_eq_some_iff.mpr hs] at hn
              cases hn

/-- One read gives what its rules derive. -/
theorem readInteger_eq_iff {r : Reader} {x : Except InputError Int64} :
    r.readInteger.1 = x ↔ r.Gives x :=
  ⟨fun h => h ▸ gives_readInteger r, Gives.readInteger⟩

end Reader

namespace Supply

theorem Opens.draw {q q' : Supply} {x : Except Failure Reader} (h : q.Opens x q') :
    q.draw = (x.mapError .unavailable, q') := by
  cases h <;> rfl

theorem exists_opens : ∀ q : Supply, ∃ x q', q.Opens x q'
  | .script [] => ⟨_, _, .exhausted⟩
  | .script (.line _ :: _) => ⟨_, _, .line⟩
  | .script (.unavailable :: _) => ⟨_, _, .unavailable⟩
  | .device (.absent _) => ⟨_, _, .absent⟩
  | .device (.broken _) => ⟨_, _, .broken⟩
  | .device (.file _) => ⟨_, _, .file⟩

end Supply

namespace State

/-- A reader that was opened fails with a line that is no integer. -/
theorem warning_of_gives {r : Reader} {e : InputError} (h : r.Gives (.error e)) (x : String) :
    e.warning x = "warning: invalid integer input for " ++ x ++ ": " ++ e.message := by
  cases h <;> rfl

theorem Asks.ask {s s' : State} {x : String} {n : Int64} (h : s.Asks x n s') :
    s.ask x = (n, s') := by
  cases h with
  | @read t out err x q q' r n ho hg =>
      have hd : q.draw = (.ok r, q') := ho.draw
      have hr : r.readInteger = (.ok n, r.readInteger.2) := Prod.ext hg.readInteger rfl
      simp only [State.ask, hd]
      rw [hr]
      rfl
  | @invalid t out err x q q' r e ho hg =>
      have hd : q.draw = (.ok r, q') := ho.draw
      have hr : r.readInteger = (.error e, r.readInteger.2) := Prod.ext hg.readInteger rfl
      simp only [State.ask, hd]
      rw [hr]
      simp only [Console.errorLine, Console.print, prompt, warning_of_gives hg]
  | shut ho =>
      rw [State.ask, ho.draw]
      rfl

theorem asks_ask (s : State) (x : String) : s.Asks x (s.ask x).1 (s.ask x).2 := by
  have close : ∀ {n s'}, s.Asks x n s' → s.Asks x (s.ask x).1 (s.ask x).2 :=
    fun h => by rw [h.ask]; exact h
  obtain ⟨t, ⟨out, err⟩, q⟩ := s
  obtain ⟨o, q', ho⟩ := q.exists_opens
  cases o with
  | error why => exact close (.shut ho)
  | ok r =>
      cases hg : r.readInteger.1 with
      | ok n => exact close (.read ho (Reader.readInteger_eq_iff.mp hg))
      | error e => exact close (.invalid ho (Reader.readInteger_eq_iff.mp hg))

/-- One input leaves the integer and the state that its rules derive. -/
theorem ask_eq_iff {s s' : State} {x : String} {n : Int64} :
    s.ask x = (n, s') ↔ s.Asks x n s' := by
  refine ⟨fun h => ?_, Asks.ask⟩
  have := asks_ask s x
  rwa [h] at this

end State

end Treewalk
