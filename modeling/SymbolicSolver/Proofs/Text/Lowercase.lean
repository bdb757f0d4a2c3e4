import SymbolicSolver.Text.Lowercase

/-!
# Lower case is settled

The lower-case form of a character is its own lower-case form, and no character but itself has the circumflex or a
dash as its lower-case form. Both are properties of the table: no row leads into a row, and none leads to these
characters.
-/

namespace SymbolicSolver.Text

/-! ## The table -/

/-- The code points that a row of the table is about. -/
def InRow (n : Nat) (row : Nat × Nat × Nat × Int) : Prop :=
  row.1 ≤ n ∧ n ≤ row.2.1 ∧ (n - row.1) % row.2.2.1 = 0

/-- The row of the lower-case forms that a row leads to. -/
def imageRow (row : Nat × Nat × Nat × Int) : Nat × Nat × Nat × Int :=
  ((row.1 + row.2.2.2).toNat, (row.2.1 + row.2.2.2).toNat, row.2.2.1, row.2.2.2)

/-- A test that two rows have no code point in common: they lie apart, or both go in steps of two from an even and an
odd start. A row of a single code point goes in any steps. -/
def apart (r s : Nat × Nat × Nat × Int) : Bool :=
  Nat.blt r.2.1 s.1 || Nat.blt s.2.1 r.1 ||
    ((Nat.beq r.2.2.1 2 || Nat.beq r.1 r.2.1) && Nat.beq s.2.2.1 2 && Nat.beq ((r.1 + s.1) % 2) 1)

theorem not_inRow_of_apart {r s : Nat × Nat × Nat × Int} {n : Nat} (h : apart r s = true)
    (hr : InRow n r) : ¬ InRow n s := by
  intro hs
  obtain ⟨hfirst, hlast, hstep⟩ := hr
  obtain ⟨hfirst', hlast', hstep'⟩ := hs
  simp only [apart, Bool.or_eq_true, Bool.and_eq_true, Nat.blt_eq, Nat.beq_eq] at h
  rcases h with (h | h) | ⟨⟨h, hs2⟩, hparity⟩
  · omega
  · omega
  · rw [hs2] at hstep'
    rcases h with h | h
    · rw [h] at hstep
      omega
    · omega

/-- Every row leads to code points above zero that no row is about. -/
theorem rows_apart : ∀ row ∈ lowerRows, 0 ≤ (row.1 : Int) + row.2.2.2 ∧
    lowerRows.all (apart (imageRow row)) = true := by
  decide +kernel

theorem InRow.image {n : Nat} {row : Nat × Nat × Nat × Int} (h : InRow n row)
    (hpos : 0 ≤ (row.1 : Int) + row.2.2.2) : InRow (n + row.2.2.2).toNat (imageRow row) := by
  obtain ⟨hfirst, hlast, hstep⟩ := h
  have hsub : ((n : Int) + row.2.2.2).toNat - ((row.1 : Int) + row.2.2.2).toNat = n - row.1 := by
    omega
  refine ⟨?_, ?_, ?_⟩
  · simp only [imageRow]
    omega
  · simp only [imageRow]
    omega
  · simp only [imageRow, hsub, hstep]

theorem lowerCode_of_not_inRow {n : Nat} {rows : List (Nat × Nat × Nat × Int)}
    (h : ∀ row ∈ rows, ¬ InRow n row) : lowerCode n rows = n := by
  induction rows with
  | nil => rfl
  | cons row rows ih =>
    obtain ⟨hrow, hrows⟩ := List.forall_mem_cons.1 h
    have hskip : lowerCode n (row :: rows) = lowerCode n rows := if_neg hrow
    rw [hskip, ih hrows]

/-- A code point stands for itself or is led on by a row. -/
theorem lowerCode_cases (n : Nat) (rows : List (Nat × Nat × Nat × Int)) :
    (lowerCode n rows = n ∧ ∀ row ∈ rows, ¬ InRow n row) ∨
      ∃ row ∈ rows, InRow n row ∧ lowerCode n rows = (n + row.2.2.2).toNat := by
  induction rows with
  | nil => exact .inl ⟨rfl, by simp⟩
  | cons row rows ih =>
    by_cases hrow : InRow n row
    · exact .inr ⟨row, List.mem_cons_self, hrow, if_pos hrow⟩
    · have hskip : lowerCode n (row :: rows) = lowerCode n rows := if_neg hrow
      rw [hskip]
      rcases ih with ⟨heq, hrows⟩ | ⟨r, hr, hin, heq⟩
      · exact .inl ⟨heq, List.forall_mem_cons.2 ⟨hrow, hrows⟩⟩
      · exact .inr ⟨r, List.mem_cons_of_mem _ hr, hin, heq⟩

/-- No row is about the lower-case form of a code point. -/
theorem not_inRow_lowerCode (n : Nat) : ∀ row ∈ lowerRows, ¬ InRow (lowerCode n lowerRows) row := by
  rcases lowerCode_cases n lowerRows with ⟨heq, hrows⟩ | ⟨r, hr, hin, heq⟩
  · rwa [heq]
  · intro row hrow
    obtain ⟨hpos, happart⟩ := rows_apart r hr
    rw [heq]
    exact not_inRow_of_apart (List.all_eq_true.1 happart row hrow) (hin.image hpos)

/-! ## Characters -/

theorem toNat_ofNat_cases (n : Nat) : (Char.ofNat n).toNat = n ∨ Char.ofNat n = Char.ofNat 0 := by
  by_cases h : n.isValidChar
  · exact .inl (by rw [Char.ofNat, dif_pos h]; rfl)
  · exact .inr (by rw [Char.ofNat, dif_neg h]; rfl)

theorem lowerChar_of_not_inRow {c : Char} (h : ∀ row ∈ lowerRows, ¬ InRow c.toNat row) :
    lowerChar c = c := by
  unfold lowerChar
  split
  · refine dif_neg fun hupper => ?_
    have hA : 65 ≤ c.toNat := hupper.1
    have hZ : c.toNat ≤ 90 := hupper.2
    exact h (65, 90, 1, 32) List.mem_cons_self ⟨hA, hZ, Nat.mod_one _⟩
  · rw [lowerCode_of_not_inRow h, Char.ofNat_toNat]

/-- A property of the ASCII characters is one of the numbers below 128. -/
theorem forall_ascii {P : Char → Prop} (h : ∀ n < 128, P (Char.ofNat n)) {c : Char}
    (hc : c.toNat < 128) : P c := by
  have hcode := h c.toNat hc
  rwa [Char.ofNat_toNat] at hcode

theorem ascii_lowerChar : ∀ n < 128,
    lowerChar (lowerChar (Char.ofNat n)) = lowerChar (Char.ofNat n) := by
  decide +kernel

/-- A lower-case form is its own lower-case form. -/
theorem lowerChar_lowerChar (c : Char) : lowerChar (lowerChar c) = lowerChar c := by
  by_cases hc : c.toNat < 128
  · exact forall_ascii (P := fun c => lowerChar (lowerChar c) = lowerChar c) ascii_lowerChar hc
  · have hform : lowerChar c = Char.ofNat (lowerCode c.toNat lowerRows) := if_neg hc
    rw [hform]
    rcases toNat_ofNat_cases (lowerCode c.toNat lowerRows) with hm | hm
    · refine lowerChar_of_not_inRow ?_
      rw [hm]
      exact not_inRow_lowerCode c.toNat
    · -- a number that is no code point stands for the null character
      rw [hm]
      rfl

/-- The characters that a query writes in another way before letters become lower case, and the capital letter that
becomes two characters. -/
def caseless : List Char := ['^', '−', '–', 'İ']

theorem rows_apart_caseless : caseless.all (fun x =>
    lowerRows.all fun row => apart (imageRow row) (x.toNat, x.toNat, 1, 0)) = true := by
  decide +kernel

theorem ascii_lowerChar_caseless : ∀ n < 128, lowerChar (Char.ofNat n) ∈ caseless →
    lowerChar (Char.ofNat n) = Char.ofNat n := by
  decide +kernel

/-- Only the caseless characters themselves have them as lower-case forms. -/
theorem lowerChar_caseless {c : Char} (h : lowerChar c ∈ caseless) : lowerChar c = c := by
  by_cases hc : c.toNat < 128
  · exact forall_ascii (P := fun c => lowerChar c ∈ caseless → lowerChar c = c)
      ascii_lowerChar_caseless hc h
  · have hform : lowerChar c = Char.ofNat (lowerCode c.toNat lowerRows) := if_neg hc
    rcases lowerCode_cases c.toNat lowerRows with ⟨heq, -⟩ | ⟨row, hrow, hin, heq⟩
    · rw [hform, heq, Char.ofNat_toNat]
    · rw [hform] at h ⊢
      rcases toNat_ofNat_cases (lowerCode c.toNat lowerRows) with hm | hm
      · have happart :=
          List.all_eq_true.1 (List.all_eq_true.1 rows_apart_caseless _ h) row hrow
        rw [hm, heq] at happart
        exact absurd ⟨Nat.le_refl _, Nat.le_refl _, Nat.mod_one _⟩
          (not_inRow_of_apart happart (hin.image (rows_apart row hrow).1))
      · rw [hm] at h
        exact absurd h (by decide)

/-! ## Texts -/

/-- A character that a text in lower case may hold. -/
def Lowered (c : Char) : Prop := lowerChar c = c ∧ c ≠ 'İ'

instance (c : Char) : Decidable (Lowered c) := inferInstanceAs (Decidable (_ ∧ _))

theorem Lowered.ne_sigma {c : Char} (h : Lowered c) : c ≠ 'Σ' := by
  rintro rfl
  exact absurd h.1 (by decide)

theorem lowered_lowerChar {c : Char} (hc : c ≠ 'İ') : Lowered (lowerChar c) := by
  refine ⟨lowerChar_lowerChar c, fun h => hc ?_⟩
  have hsame := lowerChar_caseless (c := c) (by rw [h]; decide)
  rw [← hsame, h]

/-- The forms that do not come from the table. -/
theorem lowered_special : ['ς', 'σ', 'i', Char.ofNat 0x307].all (fun c =>
    decide (Lowered c ∧ c ∉ caseless)) = true := by
  decide +kernel

theorem lowered_of_mem_lowerAfter {cs before : List Char} {c : Char} (h : c ∈ lowerAfter before cs) :
    Lowered c ∧ (c ∈ caseless → c ∈ cs) := by
  induction cs generalizing before with
  | nil => simp [lowerAfter] at h
  | cons d ds ih =>
    have hrest (h : c ∈ lowerAfter (d :: before) ds) : Lowered c ∧ (c ∈ caseless → c ∈ d :: ds) :=
      ⟨(ih h).1, fun hc => List.mem_cons_of_mem d ((ih h).2 hc)⟩
    have hspecial (h : c ∈ ['ς', 'σ', 'i', Char.ofNat 0x307]) :
        Lowered c ∧ (c ∈ caseless → c ∈ d :: ds) := by
      obtain ⟨hlow, hcase⟩ := of_decide_eq_true (List.all_eq_true.1 lowered_special c h)
      exact ⟨hlow, fun hc => absurd hc hcase⟩
    rw [lowerAfter] at h
    split at h
    · rcases List.mem_cons.1 h with rfl | h
      · refine hspecial ?_
        split <;> simp
      · exact hrest h
    · split at h
      · rcases List.mem_cons.1 h with rfl | h
        · exact hspecial (by simp)
        · rcases List.mem_cons.1 h with rfl | h
          · exact hspecial (by simp)
          · exact hrest h
      · rename_i hd
        rcases List.mem_cons.1 h with rfl | h
        · exact ⟨lowered_lowerChar hd, fun hc => by
            rw [lowerChar_caseless hc]
            exact List.mem_cons_self⟩
        · exact hrest h

/-- What `lower` writes is in lower case, and caseless characters come from the text itself. -/
theorem lowered_of_mem_lower {cs : List Char} {c : Char} (h : c ∈ lower cs) :
    Lowered c ∧ (c ∈ caseless → c ∈ cs) :=
  lowered_of_mem_lowerAfter h

/-- Without the two special capitals, the lower-case form is taken character by character. -/
theorem lower_eq_map {cs : List Char} (h : ∀ c ∈ cs, c ≠ 'Σ' ∧ c ≠ 'İ') :
    lower cs = cs.map lowerChar := by
  suffices hafter : ∀ before, lowerAfter before cs = cs.map lowerChar from hafter []
  induction cs with
  | nil => exact fun _ => rfl
  | cons c cs ih =>
    intro before
    obtain ⟨⟨hs, hi⟩, hcs⟩ := List.forall_mem_cons.1 h
    rw [lowerAfter, ih hcs]
    simp [hs, hi]

end SymbolicSolver.Text
