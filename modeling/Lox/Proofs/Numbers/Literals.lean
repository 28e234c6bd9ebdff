import Lox.Proofs.Numbers.Naturals
import Lox.Proofs.Printing.Expressions
import Lox.Proofs.Scanning.LongestMatch

/-!
# Integer literals

Digits denote a number whatever their length. Up to the greatest integer they are one token that carries this
number, and beyond they are one error and no token. A number that a double can hold is printed with the digits
that it has when nothing stands in front of them.
-/
namespace Lox

open Character (isDigit)
open Item (newlines)

section Scanning

variable {digits rest : List Char}

/-- The value of digits that are read one at a time. -/
theorem digitsValue_eq_ofDigitChars (digits : List Char) :
    digitsValue digits = Nat.ofDigitChars 10 digits 0 := by
  rw [digitsValue, Nat.ofDigitChars_eq_foldl]
  simp only [Nat.mul_comm 10]

theorem newlines_of_digits (h : ∀ d ∈ digits, isDigit d = true) : newlines digits = 0 := by
  refine List.count_eq_zero.2 fun hmem => ?_
  exact absurd (h _ hmem) (by decide)

theorem pieces_of_digits (hne : digits ≠ []) (hdigits : ∀ d ∈ digits, isDigit d = true)
    (hrest : ∀ d ∈ rest.head?, isDigit d = false ∧ d ≠ '.') :
    pieces (digits ++ rest) = ⟨.ofInteger digits, digits⟩ :: pieces rest := by
  obtain ⟨c, digits, rfl⟩ := List.exists_cons_of_ne_nil hne
  rw [List.cons_append, pieces, Piece.next_of_digits hdigits hrest]

/-- Digits that are too many are no token. -/
theorem tokenize_overflow (hne : digits ≠ []) (hdigits : ∀ d ∈ digits, isDigit d = true)
    (h : Numeral.greatest < digitsValue digits) :
    tokenize (String.ofList digits) = ([⟨.eof, "", 1⟩], [.lexical 1 .numberOutOfRange]) := by
  have hpieces : pieces digits = [⟨.fault .numberOutOfRange, digits⟩] := by
    have hall := pieces_of_digits hne hdigits (show ∀ d ∈ ([] : List Char).head?, _ from nofun)
    rw [List.append_nil, Content.ofInteger, if_neg (by omega)] at hall
    rw [hall, pieces]
  unfold tokenize Item.ofSource
  rw [String.toList_ofList, hpieces]
  simp only [Item.ofPieces, newlines_of_digits hdigits]
  rfl

theorem tokenize_integer (hne : digits ≠ []) (hdigits : ∀ d ∈ digits, isDigit d = true)
    (h : digitsValue digits ≤ Numeral.greatest) :
    tokenize (String.ofList digits) =
      ([⟨.number (.integer (digitsValue digits)), String.ofList digits, 1⟩, ⟨.eof, "", 1⟩], []) := by
  have hlexeme := tokenize_lexeme (t := ⟨.number (.integer (digitsValue digits)), String.ofList digits, 1⟩)
    (by rw [String.toList_ofList]; exact .integer hne hdigits h)
  simpa [newlines_of_digits hdigits] using hlexeme

theorem reading_of_primary {n m : ℕ} {w : List Token} {e : Expr}
    (h : Reading (.expression .primary) n w e m) : Reading (.expression .assignment) n w e m := by
  refine .loosest (.tighter (by decide) (.tighter (by decide) (.tighter (by decide) (.tighter (by decide)
    (.tighter (by decide) (.tighter (by decide) ?_))))))
  exact .tightest (.unprefixed (.callee h))

/-- A statement that prints what the digits denote. -/
theorem parses_print (hne : digits ≠ []) (hdigits : ∀ d ∈ digits, isDigit d = true)
    (h : digitsValue digits ≤ Numeral.greatest) (n : ℕ) :
    Parses n ("print " ++ String.ofList digits ++ ";")
      [.print (.literal (.number (Float.ofNat (digitsValue digits))))] n := by
  have hsemicolon : pieces [';'] = [⟨.token .semicolon, [';']⟩] := by decide +kernel
  have hpieces : pieces ("print " ++ String.ofList digits ++ ";").toList =
      [⟨.token .kwPrint, "print".toList⟩, ⟨.blank, [' ']⟩,
        ⟨.token (.number (.integer (digitsValue digits))), digits⟩, ⟨.token .semicolon, [';']⟩] := by
    have htext : ("print " ++ String.ofList digits ++ ";").toList = "print ".toList ++ (digits ++ [';']) := by
      simp
    rw [htext, pieces_print]
    rw [pieces_of_digits hne hdigits (by simp [isDigit]), Content.ofInteger, if_pos h, hsemicolon]
  refine parses_iff.2 ⟨lexical_iff.2 ?_, ?_⟩
  · rw [hpieces]
    simp
  · have hwords : words ("print " ++ String.ofList digits ++ ";") =
        [⟨.kwPrint, "print", 1⟩, ⟨.number (.integer (digitsValue digits)), String.ofList digits, 1⟩,
          ⟨.semicolon, ";", 1⟩] := by
      unfold words
      rw [hpieces]
      simp only [Piece.tokens, newlines_of_digits hdigits]
      rfl
    have hliteral : Reading (.expression .primary) n
        [⟨.number (.integer (digitsValue digits)), String.ofList digits, 1⟩]
        (.literal (.number (Float.ofNat (digitsValue digits)))) n := .literal rfl
    rw [hwords]
    exact .manyCons (.declareNothing (.print rfl (reading_of_primary hliteral) rfl)) .manyNil

end Scanning

/-- A number that is printed is written to an open sink in three steps. -/
theorem Interpreter.interpret_number {i : Interpreter} (hopen : i.sink.Open) {fuel : ℕ} (hfuel : 3 ≤ fuel)
    (x : Float) :
    (i.interpret fuel [.print (.literal (.number x))]).1 = .completed ∧
      (i.interpret fuel [.print (.literal (.number x))]).2.sink.written =
        i.sink.written ++ (NumberFormat.display.write x ++ "\n").toUTF8 := by
  obtain ⟨fuel, rfl⟩ : ∃ n, fuel = n + 3 := ⟨fuel - 3, by omega⟩
  have hline := Interpreter.writeLine_withSink i i.sink (.number x)
  rw [Interpreter.withSink_sink, hopen.write] at hline
  change i.writeLine (.number x) = (none, i.withSink
    { i.sink with written := i.sink.written ++ (NumberFormat.display.write x ++ "\n").toUTF8 }) at hline
  have hopen' : Sink.Open { i.sink with
      written := i.sink.written ++ (NumberFormat.display.write x ++ "\n").toUTF8 } := ⟨hopen.room, hopen.flush⟩
  generalize hsink : ({ i.sink with
      written := i.sink.written ++ (NumberFormat.display.write x ++ "\n").toUTF8 } : Sink) = sink
    at hline hopen'
  have hstep : Machine.yieldStep (.number x) .print [] i = ⟨.done, [], i.withSink sink⟩ := by
    unfold Machine.yieldStep
    dsimp only
    rw [hline]
    rfl
  have hrun : Machine.run (fuel + 3) ⟨.exec (.print (.literal (.number x))), [], i⟩ =
      ⟨.done, [], i.withSink sink⟩ := by
    rw [Machine.run_succ rfl, Machine.run_succ rfl, Machine.run_succ rfl]
    change (Machine.yieldStep (.number x) .print [] i).run fuel = _
    rw [hstep, Machine.run_of_isFinal rfl]
  have hsettled : (i.withSink sink).settle.sink = sink := sink_settle _
  rw [interpret_cons, hrun]
  change ((i.withSink sink).settle.interpret (fuel + 3) []).1 = _ ∧
    ((i.withSink sink).settle.interpret (fuel + 3) []).2.sink.written = _
  rw [interpret_nil (by rw [hsettled]; exact hopen'.flush), hsettled, ← hsink]
  exact ⟨rfl, rfl⟩

/-- An integer is what its digits denote from the source to the output. -/
theorem Session.integer_exact {digits : List Char} (hne : digits ≠ [])
    (hdigits : ∀ d ∈ digits, isDigit d = true) :
    let text := String.ofList digits
    let n := Nat.ofDigitChars 10 digits 0
    (2 ^ 63 - 1 < n →
      tokenize text = ([⟨.eof, "", 1⟩], [.lexical 1 .numberOutOfRange]) ∧
        LexicalError.message .numberOutOfRange = "Number literal out of range.") ∧
    (n ≤ 2 ^ 63 - 1 →
      tokenize text = ([⟨.number (.integer n), text, 1⟩, ⟨.eof, "", 1⟩], []) ∧
        Token.text ⟨.number (.integer n), text, 1⟩ = "NUMBER " ++ text ++ " " ++ n.repr ++ ".0") ∧
    (n ≤ 2 ^ 53 → ∀ (s : Session) (fuel : ℕ), s.interpreter.sink.Open → 3 ≤ fuel →
      (s.run fuel .program ("print " ++ text ++ ";")).1 = ⟨.status .ok, []⟩ ∧
        (s.run fuel .program ("print " ++ text ++ ";")).2.interpreter.sink.written =
          s.interpreter.sink.written ++ (n.repr ++ "\n").toUTF8) := by
  intro text n
  have hvalue : digitsValue digits = n := digitsValue_eq_ofDigitChars digits
  refine ⟨fun hover => ⟨tokenize_overflow hne hdigits (hvalue ▸ hover), rfl⟩, fun hle => ⟨?_, ?_⟩,
    fun hle s fuel hopen hfuel => ?_⟩
  · rw [← hvalue]
    exact tokenize_integer hne hdigits (hvalue ▸ hle)
  · change "NUMBER" ++ " " ++ text ++ " " ++ (n.repr ++ ".0") = _
    simp [String.append_assoc]
  · have hsmall : digitsValue digits ≤ Numeral.greatest := by
      rw [hvalue]
      exact hle.trans (by decide)
    have hparses := parses_print hne hdigits hsmall s.nextId
    have hresolved : resolveProgram s.interpreter.globalNames
        [.print (.literal (.number (Float.ofNat (digitsValue digits))))] = .ok [] := rfl
    obtain ⟨hcompleted, hwritten⟩ := Interpreter.interpret_number (i := s.interpreter.learn []) hopen hfuel
      (Float.ofNat (digitsValue digits))
    rw [NumberFormat.display_ofNat (hvalue ▸ hle), hvalue] at hwritten
    rw [run_of_parses hparses hresolved fuel, hcompleted]
    rw [hvalue] at hparses ⊢
    exact ⟨rfl, hwritten⟩

/-- Zeros in front of the greatest number that every smaller one has a double with, and the least number that
is no literal. -/
theorem Session.integer_exact_limits :
    let s := Session.new {} ⟨fun _ => 0, 0, 0⟩
    (∀ d ∈ "009007199254740992".toList, isDigit d = true) ∧
      (∀ d ∈ "9223372036854775808".toList, isDigit d = true) ∧
      (tokenize "9223372036854775808").1 = [⟨.eof, "", 1⟩] ∧
      tokenize "009007199254740992" =
        ([⟨.number (.integer 9007199254740992), "009007199254740992", 1⟩, ⟨.eof, "", 1⟩], []) ∧
      (s.run 3 .program "print 009007199254740992;").2.interpreter.sink.written =
        "9007199254740992\n".toUTF8 := by
  intro s
  have hzeros : ∀ d ∈ "009007199254740992".toList, isDigit d = true := by simp [isDigit]
  have hlarge : ∀ d ∈ "9223372036854775808".toList, isDigit d = true := by simp [isDigit]
  obtain ⟨-, htoken, hprint⟩ := integer_exact (by decide) hzeros
  obtain ⟨hover, -⟩ := integer_exact (by decide) hlarge
  refine ⟨hzeros, hlarge, ?_, ?_, ?_⟩
  · exact congrArg Prod.fst (hover (by decide)).1
  · exact (htoken (by decide)).1
  · have hwritten := (hprint (by decide) s 3 ⟨rfl, rfl⟩ le_rfl).2
    exact hwritten

end Lox
