import SymbolicSolver.Token

/-!
# Spelling tokens

Which characters are scanned as which tokens, whatever follows them. A name or a number goes on as far as it can, and a
star makes a power with a second one, so characters are read as they stand only before an end, and what they begin with
matters as well. `Spells` says both. Numbers and names are spelled, and so are rows that operators and parentheses make
of what is spelled.
-/

namespace SymbolicSolver.Token

/-! ## Characters of names -/

theorem toNat_lt_of_continuesName {c : Char} (h : continuesName c = true) : c.toNat < 128 := by
  have hle (a b : Char) : a ≤ b ↔ a.toNat ≤ b.toNat := Iff.rfl
  simp only [continuesName, isLetter, isDigit, Bool.or_eq_true, Bool.and_eq_true, decide_eq_true_eq,
    beq_iff_eq, hle] at h
  rcases h with (h | h) | rfl
  · rcases h with ⟨-, h⟩ | ⟨-, h⟩
    · exact Nat.lt_of_le_of_lt h (by decide)
    · exact Nat.lt_of_le_of_lt h (by decide)
  · exact Nat.lt_of_le_of_lt h.2 (by decide)
  · decide

/-- A character of a name is no blank and no symbol, and it is no star; it begins a name or is a digit. -/
theorem continuesName_spec {c : Char} (h : continuesName c = true) :
    Text.isBlank c = false ∧ ofSymbol? c = none ∧ c ≠ '*' ∧ startsName c = !isDigit c := by
  have hall : ∀ n < 128, continuesName (Char.ofNat n) = true →
      Text.isBlank (Char.ofNat n) = false ∧ ofSymbol? (Char.ofNat n) = none ∧ Char.ofNat n ≠ '*' ∧
        startsName (Char.ofNat n) = !isDigit (Char.ofNat n) := by
    decide
  have hc := hall c.toNat (toNat_lt_of_continuesName h)
  rw [Char.ofNat_toNat] at hc
  exact hc h

/-! ## Scanning one token -/

/-- What may follow a name or a number without being taken for a part of it. -/
def Ends (cs : List Char) : Prop := ∀ c ∈ cs.head?, continuesName c = false ∧ c ≠ '.'

theorem ends_nil : Ends [] := by simp [Ends]

theorem scan_blank {c : Char} (h : Text.isBlank c = true) (cs : List Char) : scan (c :: cs) = scan cs := by
  rw [scan, if_pos h]

theorem scan_symbol {c : Char} {t : Token} (ht : ofSymbol? c = some t) (hb : Text.isBlank c = false)
    {cs : List Char} (hstar : c = '*' → cs.head? ≠ some '*') :
    scan (c :: cs) = (scan cs).map (t :: ·) := by
  rw [scan, hb, if_neg Bool.false_ne_true, if_neg fun h => hstar h.1 h.2, ht]

theorem scan_stars (cs : List Char) : scan ('*' :: '*' :: cs) = (scan cs).map (caret :: ·) := by
  rw [scan, if_neg (by decide), if_pos ⟨rfl, rfl⟩]
  rfl

/-- Characters of a kind that only names have, up to an end. -/
theorem takeWhile_ends {p : Char → Bool} (hp : ∀ c, p c = true → continuesName c = true)
    {ds rest : List Char} (hds : ∀ d ∈ ds, p d = true) (hrest : Ends rest) :
    (ds ++ rest).takeWhile p = ds ∧ (ds ++ rest).dropWhile p = rest := by
  have hstop : rest.takeWhile p = [] ∧ rest.dropWhile p = rest := by
    cases rest with
    | nil => exact ⟨rfl, rfl⟩
    | cons c cs =>
      cases hc : p c with
      | false => simp [hc]
      | true => exact absurd (hp c hc) (by simp [(hrest c rfl).1])
  rw [List.takeWhile_append_of_pos hds, List.dropWhile_append_of_pos hds, hstop.1, hstop.2,
    List.append_nil]
  exact ⟨rfl, rfl⟩

theorem scan_name {c : Char} {cs rest : List Char} (hc : startsName c = true)
    (hcs : ∀ d ∈ cs, continuesName d = true) (hrest : Ends rest) :
    scan (c :: (cs ++ rest)) = (scan rest).map (name (String.ofList (c :: cs)) :: ·) := by
  have hcont : continuesName c = true := by
    simp only [startsName, Bool.or_eq_true] at hc
    simp only [continuesName, Bool.or_eq_true]
    exact hc.imp_left .inl
  obtain ⟨hblank, hsymbol, hstar, -⟩ := continuesName_spec hcont
  obtain ⟨htake, hdrop⟩ := takeWhile_ends (fun _ h => h) hcs hrest
  rw [scan, hblank, if_neg Bool.false_ne_true, if_neg fun h => hstar h.1, hsymbol]
  dsimp only
  rw [if_pos hc, htake, hdrop]

/-- A number that begins with a digit is read after its whole part. -/
theorem scan_of_readAfterWhole {c : Char} {cs rest : List Char} {q : Rat} (hc : isDigit c = true)
    (h : readAfterWhole (c :: cs.takeWhile isDigit) (cs.dropWhile isDigit) = .ok (q, rest)) :
    scan (c :: cs) = (scan rest).map (number q :: ·) := by
  obtain ⟨hblank, hsymbol, hstar, hstart⟩ := continuesName_spec (c := c) (by simp [continuesName, hc])
  rw [hc, Bool.not_true] at hstart
  rw [scan, hblank, if_neg Bool.false_ne_true, if_neg fun h => hstar h.1, hsymbol]
  dsimp only
  rw [hstart, if_neg Bool.false_ne_true, if_pos hc]
  split
  · rename_i q' rest' heq
    rw [h] at heq
    obtain ⟨rfl, rfl⟩ := Prod.mk.inj (Except.ok.inj heq)
    rfl
  · rename_i heq
    rw [h] at heq
    cases heq

theorem scan_digits {c : Char} {cs rest : List Char} (hcs : ∀ d ∈ c :: cs, isDigit d = true)
    (hrest : Ends rest) :
    scan (c :: (cs ++ rest)) = (scan rest).map (number (decimalValue (c :: cs) []) :: ·) := by
  have hcont : ∀ d, isDigit d = true → continuesName d = true := fun d hd => by simp [continuesName, hd]
  obtain ⟨hc, hcs⟩ := List.forall_mem_cons.1 hcs
  obtain ⟨htake, hdrop⟩ := takeWhile_ends hcont hcs hrest
  refine scan_of_readAfterWhole hc ?_
  rw [htake, hdrop]
  unfold readAfterWhole
  split
  · exact absurd rfl (hrest '.' rfl).2
  · rfl

/-! ## What is spelled -/

/-- Before an end, the characters are scanned as the tokens; they do not begin with a star. -/
structure Spells (cs : List Char) (ts : List Token) : Prop where
  notStar : ∃ c ds, cs = c :: ds ∧ c ≠ '*'
  scan : ∀ rest, Ends rest → scan (cs ++ rest) = (Token.scan rest).map (ts ++ ·)

theorem Spells.scan_eq {cs : List Char} {ts : List Token} (h : Spells cs ts) : Token.scan cs = .ok ts := by
  have hscan := h.scan [] ends_nil
  rw [List.append_nil, Token.scan] at hscan
  simpa [Except.map] using hscan

theorem Spells.head?_ne {cs : List Char} {ts : List Token} (h : Spells cs ts) (rest : List Char) :
    (cs ++ rest).head? ≠ some '*' := by
  obtain ⟨c, ds, rfl, hc⟩ := h.notStar
  simpa using hc

theorem map_map_cons (r : Except Error (List Token)) (ts us : List Token) :
    (r.map (us ++ ·)).map (ts ++ ·) = r.map (ts ++ us ++ ·) := by
  cases r <;> simp [Except.map]

theorem map_cons_append (r : Except Error (List Token)) (t : Token) (us : List Token) :
    (r.map (us ++ ·)).map (t :: ·) = r.map (t :: us ++ ·) :=
  map_map_cons r [t] us

/-- A name as the scanner knows it. -/
def IsName (s : String) : Prop :=
  ∃ c cs, s.toList = c :: cs ∧ startsName c = true ∧ ∀ d ∈ cs, continuesName d = true

theorem spells_name {s : String} (h : IsName s) : Spells s.toList [name s] := by
  obtain ⟨c, cs, hs, hc, hcs⟩ := h
  have hcont : continuesName c = true := by
    simp only [startsName, Bool.or_eq_true] at hc
    simp only [continuesName, Bool.or_eq_true]
    exact hc.imp_left .inl
  refine ⟨⟨c, cs, hs, (continuesName_spec hcont).2.2.1⟩, fun rest hrest => ?_⟩
  rw [hs, List.cons_append, scan_name hc hcs hrest, ← hs, String.ofList_toList]
  rfl

theorem isDigit_of_mem_toDigits {n : Nat} {c : Char} (h : c ∈ Nat.toDigits 10 n) : isDigit c = true := by
  have hdigit := Nat.isDigit_of_mem_toDigits (by decide) (by decide) h
  simp only [Char.isDigit, Bool.and_eq_true, decide_eq_true_eq] at hdigit
  simp only [isDigit, Bool.and_eq_true, decide_eq_true_eq]
  exact hdigit

theorem decimalValue_toDigits (n : Nat) : decimalValue (Nat.toDigits 10 n) [] = n := by
  have hvalue : digitsValue (Nat.toDigits 10 n) = n := Nat.ofDigitChars_ten_toDigits
  rw [decimalValue, List.append_nil, hvalue]
  exact Rat.mkRat_one _

theorem spells_number (n : Nat) : Spells (toString n).toList [number n] := by
  rw [Nat.toString_eq_repr, Nat.toList_repr]
  have hdigits : ∀ d ∈ Nat.toDigits 10 n, isDigit d = true := fun d => isDigit_of_mem_toDigits
  have hvalue := decimalValue_toDigits n
  cases hds : Nat.toDigits 10 n with
  | nil => exact absurd hds Nat.toDigits_ne_nil
  | cons c cs =>
    rw [hds] at hdigits hvalue
    have hc : continuesName c = true := by simp [continuesName, hdigits c List.mem_cons_self]
    refine ⟨⟨c, cs, rfl, (continuesName_spec hc).2.2.1⟩, fun rest hrest => ?_⟩
    rw [List.cons_append, scan_digits hdigits hrest, hvalue]
    rfl

/-- Characters that are read as an operator before an operand, and that end what stands before them. -/
structure Joins (op : List Char) (t : Token) : Prop where
  ends : ∀ rest, Ends (op ++ rest)
  scan : ∀ rest, rest.head? ≠ some '*' → Token.scan (op ++ rest) = (Token.scan rest).map (t :: ·)

theorem Spells.join {cs ds op : List Char} {ts us : List Token} {t : Token} (hcs : Spells cs ts)
    (hop : Joins op t) (hds : Spells ds us) : Spells (cs ++ op ++ ds) (ts ++ t :: us) := by
  refine ⟨?_, fun rest hrest => ?_⟩
  · obtain ⟨c, cs, rfl, hc⟩ := hcs.notStar
    exact ⟨c, cs ++ op ++ ds, by simp, hc⟩
  · rw [List.append_assoc, List.append_assoc, hcs.scan _ (hop.ends _), hop.scan _ (hds.head?_ne rest),
      hds.scan rest hrest, map_cons_append, map_map_cons]

theorem joins_symbol {c : Char} {t : Token} (ht : ofSymbol? c = some t) (hb : Text.isBlank c = false)
    (hc : continuesName c = false) (hdot : c ≠ '.') : Joins [c] t := by
  refine ⟨fun rest d hd => ?_, fun rest hrest => scan_symbol ht hb fun _ => hrest⟩
  obtain rfl : c = d := by simpa using hd
  exact ⟨hc, hdot⟩

theorem joins_times : Joins ['*'] times := joins_symbol rfl (by decide) (by decide) (by decide)

theorem joins_divide : Joins ['/'] divide := joins_symbol rfl (by decide) (by decide) (by decide)

theorem joins_stars : Joins ['*', '*'] caret := by
  refine ⟨fun rest d hd => ?_, fun rest _ => scan_stars rest⟩
  obtain rfl : '*' = d := by simpa using hd
  decide

/-- A sign between blanks. -/
theorem joins_spaced {c : Char} {t : Token} (ht : ofSymbol? c = some t) (hb : Text.isBlank c = false)
    (hc : c ≠ '*') : Joins [' ', c, ' '] t := by
  refine ⟨fun rest d hd => ?_, fun rest _ => ?_⟩
  · obtain rfl : ' ' = d := by simpa using hd
    decide
  · have hscan : Token.scan ([' ', c, ' '] ++ rest) = (Token.scan (' ' :: rest)).map (t :: ·) := by
      rw [List.cons_append, scan_blank (by decide)]
      exact scan_symbol ht hb fun h => absurd h hc
    rw [hscan, scan_blank (by decide)]

theorem Spells.paren {cs : List Char} {ts : List Token} (h : Spells cs ts) :
    Spells ('(' :: (cs ++ [')'])) (leftParen :: (ts ++ [rightParen])) := by
  have hends (rest : List Char) : Ends (')' :: rest) := by
    intro d hd
    obtain rfl : ')' = d := by simpa using hd
    decide
  refine ⟨⟨'(', cs ++ [')'], rfl, by decide⟩, fun rest hrest => ?_⟩
  have hopen : Token.scan ('(' :: (cs ++ ')' :: rest)) = (Token.scan (cs ++ ')' :: rest)).map (leftParen :: ·) :=
    scan_symbol rfl (by decide) (by simp)
  have hclose : Token.scan (')' :: rest) = (Token.scan rest).map ([rightParen] ++ ·) :=
    scan_symbol rfl (by decide) (by simp)
  rw [List.cons_append, List.append_assoc, List.singleton_append, hopen, h.scan _ (hends rest), hclose,
    map_map_cons, map_cons_append]

theorem Spells.minus {cs : List Char} {ts : List Token} (h : Spells cs ts) :
    Spells ('-' :: cs) (minus :: ts) := by
  refine ⟨⟨'-', cs, rfl, by decide⟩, fun rest hrest => ?_⟩
  have hsign : Token.scan ('-' :: (cs ++ rest)) = (Token.scan (cs ++ rest)).map (Token.minus :: ·) :=
    scan_symbol rfl (by decide) (by simp)
  rw [List.cons_append, hsign, h.scan _ hrest, map_cons_append]

end SymbolicSolver.Token
