import Mathlib.Algebra.Field.Rat
import Mathlib.Data.Rat.Lemmas
import Mathlib.Tactic.NormNum
import SymbolicSolver.Proofs.Printer.Basic
import SymbolicSolver.Proofs.Printer.Spelling

/-!
# Lexemes

The lexemes of formulas with their characters and their tokens, told without the scanner. A lexeme before a blank or the
end of the text is scanned as its token and is used up, whatever comes after. So a row of lexemes with blanks between
them is cut into exactly their tokens, and a list of tokens is read back from its text.
-/

namespace SymbolicSolver

/-! ## Lexemes and their tokens -/

/-- A row of decimal digits, at least one. -/
def IsNumeral (ds : List Char) : Prop := ds ≠ [] ∧ ∀ d ∈ ds, d.isDigit = true

/-- A letter or an underscore, then letters, digits and underscores. -/
def IsIdentifier (s : String) : Prop :=
  ∃ c cs, s.toList = c :: cs ∧ (c.isAlpha = true ∨ c = '_') ∧ ∀ d ∈ cs, d.isAlphanum = true ∨ d = '_'

/-- The lexemes of formulas. Decimal literals have three shapes: digits alone, digits with a point and perhaps more
digits after it, and a point with digits. -/
inductive Lexeme where
  | whole (ds : List Char) (h : IsNumeral ds)
  | decimal (ds fs : List Char) (hds : IsNumeral ds) (hfs : ∀ d ∈ fs, d.isDigit = true)
  | fraction (fs : List Char) (h : IsNumeral fs)
  | name (s : String) (h : IsIdentifier s)
  | plus | minus | times | divide | caret | stars
  | leftParen | rightParen
  | pi | root

namespace Lexeme

/-- How a lexeme is written. -/
def chars : Lexeme → List Char
  | whole ds _ => ds
  | decimal ds fs _ _ => ds ++ '.' :: fs
  | fraction fs _ => '.' :: fs
  | name s _ => s.toList
  | plus => ['+']
  | minus => ['-']
  | times => ['*']
  | divide => ['/']
  | caret => ['^']
  | stars => ['*', '*']
  | leftParen => ['(']
  | rightParen => [')']
  | pi => ['π']
  | root => ['√']

/-- The literal with the digits `ds` before the point and `fs` after it. -/
def literalValue (ds fs : List Char) : Rat := (Nat.ofDigitChars 10 (ds ++ fs) 0 : Rat) / 10 ^ fs.length

/-- What a lexeme means to the reader. -/
def token : Lexeme → Token
  | whole ds _ => .number (literalValue ds [])
  | decimal ds fs _ _ => .number (literalValue ds fs)
  | fraction fs _ => .number (literalValue [] fs)
  | name s _ => .name s
  | plus => .plus
  | minus => .minus
  | times => .times
  | divide => .divide
  | caret | stars => .caret
  | leftParen => .leftParen
  | rightParen => .rightParen
  | pi => .name "pi"
  | root => .name "sqrt"

/-- Lexemes one after another, with at least one blank between neighbours and any blanks around the row. -/
inductive Spaced : List Lexeme → List Char → Prop
  | nil : Spaced [] []
  | blank {c : Char} {ls : List Lexeme} {cs : List Char} (hc : Text.isBlank c = true) (h : Spaced ls cs) :
      Spaced ls (c :: cs)
  | last (l : Lexeme) : Spaced [l] l.chars
  | cons (l : Lexeme) {c : Char} {ls : List Lexeme} {cs : List Char} (hc : Text.isBlank c = true) (h : Spaced ls cs) :
      Spaced (l :: ls) (l.chars ++ c :: cs)

end Lexeme

/-- Tokens that stand for themselves in a text: numbers that are naturals, names that are identifiers, and no sign that
only the postfix order knows. -/
def Token.Readable : Token → Prop
  | number q => 0 ≤ q ∧ q.den = 1
  | name s => IsIdentifier s
  | negate => False
  | _ => True

/-! ## Characters -/

namespace Token

theorem isLetter_eq (c : Char) : isLetter c = c.isAlpha := by
  have hupper : c.isUpper = ('A' ≤ c && c ≤ 'Z') := Bool.decide_and _ _
  calc isLetter c = (c.isLower || c.isUpper) := by rw [hupper]; rfl
    _ = c.isAlpha := Bool.or_comm _ _

theorem isName_of_isIdentifier {s : String} (h : IsIdentifier s) : IsName s := by
  obtain ⟨c, cs, hs, hc, hcs⟩ := h
  refine ⟨c, cs, hs, ?_, fun d hd => ?_⟩
  · simpa [startsName, isLetter_eq] using hc
  · have hdigit : isDigit d = d.isDigit := rfl
    simpa [continuesName, isLetter_eq, hdigit, Char.isAlphanum] using hcs d hd

theorem ends_blank {c : Char} (hc : Text.isBlank c = true) (cs : List Char) : Ends (c :: cs) := by
  intro d hd
  obtain rfl : c = d := by simpa using hd
  constructor
  · by_contra hcont
    have hblank := (continuesName_spec (Bool.eq_true_of_not_eq_false hcont)).1
    rw [hc] at hblank
    cases hblank
  · rintro rfl
    revert hc
    decide

/-! ## Scanning literals -/

theorem decimalValue_eq (ds fs : List Char) : decimalValue ds fs = Lexeme.literalValue ds fs := by
  have hdigits : digitsValue (ds ++ fs) = Nat.ofDigitChars 10 (ds ++ fs) 0 := rfl
  simp [decimalValue, Lexeme.literalValue, Rat.mkRat_eq_div, hdigits, Nat.pow_eq]

theorem readFraction_append {whole fs rest : List Char} (hfs : ∀ d ∈ fs, isDigit d = true) (hrest : Ends rest) :
    readFraction whole (fs ++ rest) = .ok (decimalValue whole fs, rest) := by
  obtain ⟨htake, hdrop⟩ := takeWhile_ends (fun d hd => by simp [continuesName, hd]) hfs hrest
  unfold readFraction
  rw [htake, hdrop]
  split
  · exact absurd rfl (hrest '.' rfl).2
  · rfl

/-- The digits before the point end at the point, those after it where the literal ends. -/
theorem scan_decimal {c : Char} {ds fs rest : List Char} (hds : ∀ d ∈ c :: ds, isDigit d = true)
    (hfs : ∀ d ∈ fs, isDigit d = true) (hrest : Ends rest) :
    scan (c :: (ds ++ '.' :: (fs ++ rest))) = (scan rest).map (number (decimalValue (c :: ds) fs) :: ·) := by
  obtain ⟨hc, hds⟩ := List.forall_mem_cons.1 hds
  refine scan_of_readAfterWhole hc ?_
  rw [List.takeWhile_append_of_pos hds, List.dropWhile_append_of_pos hds, List.takeWhile_cons_of_neg (by decide),
    List.dropWhile_cons_of_neg (by decide), List.append_nil]
  exact readFraction_append hfs hrest

/-- A point before a digit begins a literal without a whole part. -/
theorem scan_fraction {c : Char} {fs rest : List Char} (hfs : ∀ d ∈ c :: fs, isDigit d = true) (hrest : Ends rest) :
    scan ('.' :: (c :: fs ++ rest)) = (scan rest).map (number (decimalValue [] (c :: fs)) :: ·) := by
  have hread : readFraction [] (c :: fs ++ rest) = .ok (decimalValue [] (c :: fs), rest) :=
    readFraction_append hfs hrest
  have hnext : (c :: fs ++ rest).head?.any isDigit = true := hfs c List.mem_cons_self
  rw [scan, if_neg (by decide), if_neg (by simp), show ofSymbol? '.' = none from rfl]
  dsimp only
  rw [if_neg (by decide), if_neg (by decide), if_pos ⟨rfl, hnext⟩]
  split
  · rename_i q rest' heq
    rw [hread] at heq
    obtain ⟨rfl, rfl⟩ := Prod.mk.inj (Except.ok.inj heq)
    rfl
  · rename_i heq
    rw [hread] at heq
    cases heq

/-! ## Scanning rows of lexemes -/

/-- A lexeme before an end is scanned as its token and used up. Only a single star could go on with what follows. -/
theorem scan_lexeme (l : Lexeme) {rest : List Char} (hrest : Ends rest) (hstar : rest.head? ≠ some '*') :
    scan (l.chars ++ rest) = (scan rest).map (l.token :: ·) := by
  cases l with
  | whole ds h =>
    obtain ⟨c, cs, rfl⟩ := List.exists_cons_of_ne_nil h.1
    rw [Lexeme.token, ← decimalValue_eq]
    exact scan_digits h.2 hrest
  | decimal ds fs hds hfs =>
    obtain ⟨c, cs, rfl⟩ := List.exists_cons_of_ne_nil hds.1
    rw [Lexeme.token, ← decimalValue_eq, Lexeme.chars, List.append_assoc]
    exact scan_decimal hds.2 hfs hrest
  | fraction fs h =>
    obtain ⟨c, cs, rfl⟩ := List.exists_cons_of_ne_nil h.1
    rw [Lexeme.token, ← decimalValue_eq]
    exact scan_fraction h.2 hrest
  | name s h => exact (spells_name (isName_of_isIdentifier h)).scan rest hrest
  | times => exact scan_symbol rfl (by decide) fun _ => hstar
  | stars => exact scan_stars rest
  | plus | minus | divide | caret | leftParen | rightParen | pi | root =>
    exact scan_symbol rfl (by decide) fun h => absurd h (by decide)

theorem scan_spaced {ls : List Lexeme} {cs : List Char} (h : Lexeme.Spaced ls cs) :
    scan cs = .ok (ls.map Lexeme.token) := by
  induction h with
  | nil => rw [scan, List.map_nil]
  | blank hc h ih => rw [scan_blank hc, ih]
  | last l =>
    have hscan := scan_lexeme l ends_nil (by simp)
    rw [List.append_nil, scan] at hscan
    exact hscan
  | @cons l c ls cs hc h ih =>
    -- The blank ends a name or a number and is not a second star.
    have hstar : (c :: cs).head? ≠ some '*' := by
      rw [List.head?_cons, ne_eq, Option.some.injEq]
      rintro rfl
      revert hc
      decide
    rw [scan_lexeme l (ends_blank hc cs) hstar, scan_blank hc, ih]
    rfl

/-! ## Reading back tokens -/

theorem Readable.exists_lexeme {t : Token} (h : Readable t) : ∃ l : Lexeme, l.token = t ∧ l.chars = t.text.toList := by
  cases t with
  | number q =>
    -- A natural is written in decimal digits, and these denote it again.
    obtain ⟨hpos, hden⟩ := h
    obtain ⟨n, rfl⟩ : ∃ n : Nat, q = n := ⟨q.num.natAbs, by
      rw [← Int.cast_natCast, Int.natAbs_of_nonneg (Rat.num_nonneg.2 hpos), Rat.coe_int_num_of_den_eq_one hden]⟩
    have hdigits : IsNumeral (Nat.toDigits 10 n) :=
      ⟨Nat.toDigits_ne_nil, fun d hd => Nat.isDigit_of_mem_toDigits (by decide) (by decide) hd⟩
    refine ⟨.whole _ hdigits, ?_, ?_⟩
    · rw [Lexeme.token, ← decimalValue_eq, decimalValue_toDigits]
    · rw [text, Rational.text, if_pos hden, Rat.num_natCast, Expr.toString_of_nonneg (Int.natCast_nonneg n),
        Int.natAbs_natCast, Nat.toString_eq_repr, Nat.toList_repr]
      rfl
  | name s => exact ⟨.name s h, rfl, rfl⟩
  | plus => exact ⟨.plus, rfl, by decide⟩
  | minus => exact ⟨.minus, rfl, by decide⟩
  | times => exact ⟨.times, rfl, by decide⟩
  | divide => exact ⟨.divide, rfl, by decide⟩
  | caret => exact ⟨.caret, rfl, by decide⟩
  | leftParen => exact ⟨.leftParen, rfl, by decide⟩
  | rightParen => exact ⟨.rightParen, rfl, by decide⟩
  | negate => exact h.elim

/-- The text of readable tokens is a row of lexemes for them. -/
theorem exists_spaced_listText {ts : List Token} (h : ∀ t ∈ ts, Readable t) :
    ∃ ls : List Lexeme, ls.map Lexeme.token = ts ∧ Lexeme.Spaced ls (listText ts).toList := by
  induction ts with
  | nil => exact ⟨[], rfl, .nil⟩
  | cons t ts ih =>
    obtain ⟨ht, hts⟩ := List.forall_mem_cons.1 h
    obtain ⟨l, htoken, hchars⟩ := ht.exists_lexeme
    obtain ⟨ls, htokens, hspaced⟩ := ih hts
    refine ⟨l :: ls, by rw [List.map_cons, htoken, htokens], ?_⟩
    cases ts with
    | nil =>
      obtain rfl := List.map_eq_nil_iff.1 htokens
      have htext : (listText [t]).toList = l.chars := by simp [listText, hchars]
      exact htext ▸ .last l
    | cons u ts =>
      have htext : (listText (t :: u :: ts)).toList = l.chars ++ ' ' :: (listText (u :: ts)).toList := by
        simp [listText, String.intercalate_cons_cons, hchars]
      exact htext ▸ .cons l (by decide) hspaced

/-- Every row of lexemes with blanks between them is cut into one token for each lexeme, in order, and every list of
readable tokens is read back from its text. -/
theorem tokenize_spaced :
    (∀ (ls : List Lexeme) (cs : List Char), Lexeme.Spaced ls cs →
      tokenize (String.ofList cs) = .ok (ls.map Lexeme.token)) ∧
    ∀ ts : List Token, (∀ t ∈ ts, Readable t) → tokenize (listText ts) = .ok ts := by
  constructor
  · intro ls cs h
    rw [tokenize, String.toList_ofList, scan_spaced h]
  · intro ts h
    obtain ⟨ls, rfl, hspaced⟩ := exists_spaced_listText h
    exact scan_spaced hspaced

/-- A literal that ends with its point and one that begins with it, a power written with two stars, a tab among the
blanks; and a list of tokens of each readable kind. -/
theorem tokenize_spaced_power :
    Lexeme.Spaced
        [.decimal ['2'] [] (by simp [IsNumeral]) (by simp), .times,
          .name "x_1" ⟨'x', ['_', '1'], by decide, by decide, by simp⟩, .stars, .fraction ['5'] (by simp [IsNumeral]),
          .plus, .pi]
        ['2', '.', ' ', '*', ' ', 'x', '_', '1', '\t', '*', '*', ' ', '.', '5', ' ', ' ', '+', ' ', 'π'] ∧
      tokenize "2. * x_1\t** .5  + π" =
        .ok [.number 2, .times, .name "x_1", .caret, .number (1 / 2), .plus, .name "pi"] ∧
      (∀ t ∈ [name "E", caret, number 12], Readable t) ∧
      tokenize "E ^ 12" = .ok [.name "E", .caret, .number 12] := by
  have hreadable : ∀ t ∈ [name "E", caret, number 12], Readable t := by
    simp only [List.forall_mem_cons, List.not_mem_nil, false_implies, implies_true, and_true]
    exact ⟨⟨'E', [], by decide, by decide, by simp⟩, trivial, by norm_num, rfl⟩
  -- The row is told once, and the tokens are those of its lexemes up to the values of the literals.
  refine (fun hspaced => ⟨hspaced, (tokenize_spaced.1 _ _ hspaced).trans ?_, hreadable,
    tokenize_spaced.2 _ hreadable⟩) <|
    .cons _ rfl <| .cons _ rfl <| .cons _ rfl <| .cons _ rfl <| .cons _ rfl <| .blank rfl <| .cons _ rfl <| .last _
  have htwo : Lexeme.literalValue ['2'] [] = 2 := by simp [Lexeme.literalValue, Nat.ofDigitChars]
  have hhalf : Lexeme.literalValue [] ['5'] = 1 / 2 := by
    simp only [Lexeme.literalValue, Nat.ofDigitChars, List.nil_append, List.foldl_cons, List.foldl_nil,
      Char.reduceToNat]
    norm_num
  simp [Lexeme.token, htwo, hhalf]

end Token

end SymbolicSolver
