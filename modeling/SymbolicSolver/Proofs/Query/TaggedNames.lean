import Mathlib.Data.List.Basic
import Mathlib.Data.List.TakeWhile
import Mathlib.Data.Option.Basic
import SymbolicSolver.Proofs.Query.DropFillers

/-!
# Tagged names

The tags on the names of functions that are called change nothing. No filler word holds such a name, nor ends within
one, so the same filler words go with the tags and without them, and the same products are written out; what is left
once the blanks and the tags are gone is what the other steps make of the text on their own. A tag is told from the text
by its first letter, which a text in lower case does not hold.
-/

namespace SymbolicSolver.Query

open Text (isBlank isWordChar isDecimalDigit dropWord?)
open Token (isLetter)

/-- The second text is the first one with tags on some of the names that are called, and without the blanks behind
these names. -/
inductive Tagged : List Char → List Char → Prop
  | nil : Tagged [] []
  | keep {c : Char} {cs ds : List Char} (hc : c ≠ 'F') (h : Tagged cs ds) : Tagged (c :: cs) (c :: ds)
  | name {w blanks cs ds : List Char} (hw : w ∈ functionNames.map String.toList)
      (hblanks : ∀ c ∈ blanks, isBlank c = true) (h : Tagged cs ds) :
      Tagged (w ++ (blanks ++ '(' :: cs)) (nameTag ++ (w ++ '(' :: ds))

/-! ## Names, tags and blanks -/

section Names

variable {w : List Char}

/-- Names begin with a letter and have letters only. -/
theorem functionNames_letters : ∀ w ∈ functionNames.map String.toList,
    w.head?.any isLetter = true ∧ w.all isLetter = true := by
  decide

/-- No filler word holds the name of a function or the first letter of the tag. -/
theorem fillerWords_apart : ∀ f ∈ fillerWords,
    'F' ∉ f.toList ∧ ∀ w ∈ functionNames.map String.toList, ¬ w <:+: f.toList := by
  decide +kernel

theorem nameTag_eq : nameTag = 'F' :: ['U', 'N', 'C', '_'] := by decide

theorem nameTag_word : ∀ c ∈ ['U', 'N', 'C', '_'], isWordChar c = true := List.all_eq_true.1 (by decide)

/-- No product ends within a tag. -/
theorem nameTag_apart : ∀ c ∈ '(' :: nameTag, (isDecimalDigit c || c = ')') = false := by
  simp only [← Bool.not_eq_true']
  exact List.all_eq_true.1 (by decide)

theorem isLetter_of_name (hw : w ∈ functionNames.map String.toList) : ∀ c ∈ w, isLetter c = true := by
  simpa using (functionNames_letters w hw).2

theorem exists_cons_of_name (hw : w ∈ functionNames.map String.toList) :
    ∃ c u, w = c :: u ∧ isLetter c = true ∧ ∀ d ∈ u, isWordChar d = true := by
  have hletters := isLetter_of_name hw
  cases w with
  | nil => exact absurd (functionNames_letters [] hw).1 (by simp)
  | cons c u =>
    obtain ⟨hc, hu⟩ := List.forall_mem_cons.1 hletters
    exact ⟨c, u, rfl, hc, fun d hd => isWordChar_of_isLetter (hu d hd)⟩

theorem isLetter_of_isBlank {c : Char} (h : isBlank c = true) : isLetter c = false := by
  cases hletter : isLetter c with
  | false => rfl
  | true =>
    have hcode := (isLetter_iff c).1 hletter
    simp only [isBlank, Bool.or_eq_true, Bool.and_eq_true, decide_eq_true_eq, beq_iff_eq] at h
    omega

end Names

/-! ## Tagging -/

theorem tagged_tagNames {cs : List Char} (h : 'F' ∉ cs) (inWord : Bool) : Tagged cs (tagNames inWord cs) := by
  fun_induction tagNames inWord cs with
  | case1 => exact .nil
  | case2 inWord c cs w rest hcall ih =>
    have hcall : calledName? (c :: cs) = some (w, rest) := by
      cases inWord with
      | true => simp at hcall
      | false => simpa using hcall
    obtain ⟨name, hname, rfl, behind, hdrop, hopen⟩ := nameBefore?_eq_some hcall
    have hbehind : behind = behind.takeWhile isBlank ++ '(' :: rest := by
      have hparen : Text.trimStart behind = '(' :: rest := dropWord?_eq_some.1 hopen
      rw [← hparen, Text.trimStart, List.takeWhile_append_dropWhile]
    have htext : c :: cs = name.toList ++ (behind.takeWhile isBlank ++ '(' :: rest) := by
      rw [← hbehind]
      exact dropWord?_eq_some.1 hdrop
    have hrest : 'F' ∉ rest := by
      rw [htext] at h
      exact fun hmem => h (by simp [hmem])
    rw [htext, List.append_assoc]
    exact .name (List.mem_map_of_mem hname) (fun c hc => List.mem_takeWhile_imp hc) (ih hrest)
  | case3 inWord c cs _ ih =>
    rw [List.mem_cons, not_or] at h
    exact .keep (Ne.symm h.1) (ih h.2)

namespace Tagged

variable {cs ds : List Char}

/-- What stands at the start is the same, or it is a letter. -/
theorem head? (h : Tagged cs ds) :
    cs.head? = ds.head? ∨ cs.head?.any isLetter = true ∧ ds.head?.any isLetter = true := by
  cases h with
  | nil => exact .inl rfl
  | keep => exact .inl rfl
  | name hw =>
    obtain ⟨c, u, rfl, hc, -⟩ := exists_cons_of_name hw
    have hF : isLetter 'F' = true := by decide
    exact .inr ⟨hc, by rw [nameTag_eq]; exact hF⟩

theorem head?_any (h : Tagged cs ds) {p : Char → Bool}
    (hp : ∀ c d, isLetter c = true → isLetter d = true → p c = p d) :
    cs.head?.any p = ds.head?.any p := by
  rcases h.head? with heq | ⟨hc, hd⟩
  · rw [heq]
  · obtain ⟨c, hcs, hc⟩ := (Option.any_eq_true _ _).1 hc
    obtain ⟨d, hds, hd⟩ := (Option.any_eq_true _ _).1 hd
    rw [hcs, hds, Option.any_some, Option.any_some, hp c d hc hd]

/-! ## Filler words -/

/-- If the rest of a filler word stands where the name of a function begins, the name goes on behind it. -/
theorem name_goes_on {f : String} (hf : f ∈ fillerWords) {u w xs rest : List Char} (hsuffix : u <:+ f.toList)
    (hw : w ∈ functionNames.map String.toList) (heq : w ++ xs = u ++ rest) : rest.head?.any isWordChar = true := by
  rcases List.append_eq_append_iff.1 heq with ⟨v, rfl, -⟩ | ⟨v, rfl, rfl⟩
  · exact absurd ((List.prefix_append w v).isInfix.trans hsuffix.isInfix) ((fillerWords_apart f hf).2 w hw)
  · cases v with
    | nil =>
      rw [List.append_nil] at hw
      exact absurd hsuffix.isInfix ((fillerWords_apart f hf).2 u hw)
    | cons c v =>
      have hc := isLetter_of_name hw c (by simp)
      simpa using isWordChar_of_isLetter hc

/-- The rest of a filler word stands in both texts or in neither. -/
theorem filler (h : Tagged cs ds) {f : String} (hf : f ∈ fillerWords) {u : List Char} (hu : u <:+ f.toList) :
    Option.Rel Tagged ((dropWord? u cs).filter fun rest => !(rest.head?.any isWordChar))
      ((dropWord? u ds).filter fun rest => !(rest.head?.any isWordChar)) := by
  have hnil {cs ds : List Char} (h : Tagged cs ds) :
      Option.Rel Tagged ((some cs).filter fun rest => !(rest.head?.any isWordChar))
        ((some ds).filter fun rest => !(rest.head?.any isWordChar)) := by
    have hhead := h.head?_any (p := isWordChar) fun c d hc hd => by
      rw [isWordChar_of_isLetter hc, isWordChar_of_isLetter hd]
    rw [Option.filter_some, Option.filter_some, hhead]
    split
    · exact .some h
    · exact .none
  induction h generalizing u with
  | nil =>
    cases u with
    | nil => exact hnil .nil
    | cons d u => exact .none
  | keep hc h ih =>
    cases u with
    | nil => exact hnil (.keep hc h)
    | cons d u =>
      simp only [dropWord?]
      split
      · exact ih ((List.suffix_cons d u).trans hu)
      · exact .none
  | @name w blanks cs ds hw hblanks h ih =>
    cases u with
    | nil => exact hnil (.name hw hblanks h)
    | cons d u =>
      have hleft : (dropWord? (d :: u) (w ++ (blanks ++ '(' :: cs))).filter
          (fun rest => !(rest.head?.any isWordChar)) = none := by
        refine Option.filter_eq_none_iff.2 fun rest hrest => ?_
        rw [name_goes_on hf hu hw (dropWord?_eq_some.1 hrest)]
        simp
      have hright : dropWord? (d :: u) (nameTag ++ (w ++ '(' :: ds)) = none := by
        have hd : d ≠ 'F' := by
          rintro rfl
          exact (fillerWords_apart f hf).1 (hu.subset List.mem_cons_self)
        rw [nameTag_eq, List.cons_append, dropWord?, if_neg hd]
      rw [hleft, hright]
      exact .none

/-- The same filler word stands at the start of both texts or none stands there. -/
theorem afterFiller? (h : Tagged cs ds) : Option.Rel Tagged (Query.afterFiller? cs) (Query.afterFiller? ds) := by
  have hwords {fs : List String} (hfs : ∀ f ∈ fs, f ∈ fillerWords) :
      Option.Rel Tagged
        (fs.findSome? fun f => (dropWord? f.toList cs).filter fun rest => !(rest.head?.any isWordChar))
        (fs.findSome? fun f => (dropWord? f.toList ds).filter fun rest => !(rest.head?.any isWordChar)) := by
    induction fs with
    | nil => exact .none
    | cons f fs ih =>
      obtain ⟨hf, hfs⟩ := List.forall_mem_cons.1 hfs
      rw [List.findSome?_cons, List.findSome?_cons]
      have hrel := h.filler hf (List.suffix_refl f.toList)
      revert hrel
      generalize (dropWord? f.toList cs).filter _ = a
      generalize (dropWord? f.toList ds).filter _ = b
      rintro (hab | -)
      · exact .some hab
      · exact ih hfs
  exact hwords fun f hf => hf

end Tagged

/-! ## What is kept -/

/-- Blanks and the parenthesis behind them stay. -/
theorem dropFillers_opening {blanks : List Char} (h : ∀ c ∈ blanks, isBlank c = true) (inWord : Bool) (cs : List Char) :
    dropFillers inWord (blanks ++ '(' :: cs) = blanks ++ '(' :: dropFillers false cs := by
  induction blanks generalizing inWord with
  | nil => exact dropFillers_keep (.inr (afterFiller?_of_not_letter (by decide) cs))
  | cons c blanks ih =>
    obtain ⟨hc, hblanks⟩ := List.forall_mem_cons.1 h
    rw [List.cons_append, dropFillers_keep (.inr (afterFiller?_of_not_letter (isLetter_of_isBlank hc) _)), ih hblanks,
      List.cons_append]

/-- A word at which no filler word begins stays, with the blanks and the parenthesis behind it. -/
theorem dropFillers_call {c : Char} {u blanks cs : List Char} (inWord : Bool) (hc : isLetter c = true)
    (hu : ∀ d ∈ u, isWordChar d = true) (hblanks : ∀ d ∈ blanks, isBlank d = true)
    (hnone : afterFiller? (c :: (u ++ (blanks ++ '(' :: cs))) = none) :
    dropFillers inWord (c :: (u ++ (blanks ++ '(' :: cs))) = c :: (u ++ (blanks ++ '(' :: dropFillers false cs)) := by
  rw [dropFillers_keep (.inr hnone), isWordChar_of_isLetter hc, dropFillers_word hu, dropFillers_opening hblanks]

theorem afterFiller?_name {w : List Char} (hw : w ∈ functionNames.map String.toList) (xs : List Char) :
    afterFiller? (w ++ xs) = none := by
  refine afterFiller?_eq_none.2 fun rest hfiller => ?_
  obtain ⟨f, hf, heq, hend⟩ := hfiller
  rw [Tagged.name_goes_on hf (List.suffix_refl _) hw heq] at hend
  exact Bool.noConfusion hend

theorem afterFiller?_tag (xs : List Char) : afterFiller? ('F' :: xs) = none := by
  refine afterFiller?_eq_none.2 ?_
  rintro rest ⟨f, hf, heq, -⟩
  obtain ⟨c, u, hcu⟩ := List.exists_cons_of_length_pos (fillerWords_length_pos f hf)
  rw [hcu] at heq
  have hF : 'F' ∈ f.toList := by
    rw [hcu, (List.cons.inj heq).1]
    exact List.mem_cons_self
  exact (fillerWords_apart f hf).1 hF

namespace Tagged

variable {cs ds : List Char}

theorem dropFillers (h : Tagged cs ds) (inWord : Bool) :
    Tagged (Query.dropFillers inWord cs) (Query.dropFillers inWord ds) := by
  -- The induction is on the length, since what stands behind a filler word may be any shorter text.
  induction hn : cs.length using Nat.strong_induction_on generalizing cs ds inWord with
  | _ n ih =>
    subst hn
    cases h with
    | nil =>
      rw [Query.dropFillers]
      exact .nil
    | @keep c cs ds hc h =>
      have hrel := (Tagged.keep hc h).afterFiller?
      have hkeep (hcs : inWord = true ∨ Query.afterFiller? (c :: cs) = none)
          (hds : inWord = true ∨ Query.afterFiller? (c :: ds) = none) :
          Tagged (Query.dropFillers inWord (c :: cs)) (Query.dropFillers inWord (c :: ds)) := by
        rw [dropFillers_keep hcs, dropFillers_keep hds]
        exact .keep hc (ih _ (by simp) h _ rfl)
      cases inWord with
      | true => exact hkeep (.inl rfl) (.inl rfl)
      | false =>
        generalize hacs : Query.afterFiller? (c :: cs) = a at hrel
        generalize hads : Query.afterFiller? (c :: ds) = b at hrel
        cases hrel with
        | some hrest =>
          rw [dropFillers_drop hacs, dropFillers_drop hads]
          exact ih _ (length_afterFiller? hacs) hrest _ rfl
        | none => exact hkeep (.inr hacs) (.inr hads)
    | @name w blanks cs ds hw hblanks h =>
      obtain ⟨c, u, rfl, hc, hu⟩ := exists_cons_of_name hw
      have htagged := ih cs.length (by simp; omega) h false rfl
      have hleft := dropFillers_call inWord hc hu hblanks (afterFiller?_name hw (blanks ++ '(' :: cs))
      have htag : ∀ d ∈ ['U', 'N', 'C', '_'] ++ c :: u, isWordChar d = true :=
        List.forall_mem_append.2 ⟨nameTag_word, List.forall_mem_cons.2 ⟨isWordChar_of_isLetter hc, hu⟩⟩
      have hright := dropFillers_call inWord (by decide) htag (List.forall_mem_nil _)
        (afterFiller?_tag (['U', 'N', 'C', '_'] ++ c :: u ++ ([] ++ '(' :: ds)))
      rw [List.cons_append, hleft, nameTag_eq]
      simp only [List.cons_append, List.nil_append] at hright ⊢
      rw [hright]
      have hname := Tagged.name hw hblanks htagged
      rwa [nameTag_eq] at hname

end Tagged

/-! ## Multiplication signs -/

theorem isDecimalDigit_of_isLetter {c : Char} (h : isLetter c = true) : isDecimalDigit c = false := by
  have hcode := (isLetter_iff c).1 h
  exact (inRanges_past (by omega) (by omega)).trans (inRanges_before (by omega))

theorem meetsFactor_not_letter {c d : Char} (h : meetsFactor c d = true) : isLetter c = false := by
  simp only [meetsFactor, Bool.and_eq_true, Bool.or_eq_true, decide_eq_true_eq] at h
  cases hletter : isLetter c with
  | false => rfl
  | true =>
    rcases h.1 with hdigit | rfl
    · rw [isDecimalDigit_of_isLetter hletter] at hdigit
      exact absurd hdigit Bool.false_ne_true
    · exact absurd hletter (by decide)

theorem head?_writeProducts (meets : Char → Char → Bool) (cs : List Char) :
    (writeProducts meets cs).head? = cs.head? := by
  cases cs with
  | nil => rfl
  | cons c cs =>
    rw [writeProducts]
    split <;> rfl

/-- No parenthesis that closes is left beside one that opens once the products have been written. -/
theorem writeProducts_parentheses (cs : List Char) :
    writeProducts meetsParenthesis (writeProducts meetsFactor cs) = writeProducts meetsFactor cs := by
  induction cs with
  | nil => rfl
  | cons c cs ih =>
    rw [writeProducts]
    split
    · rw [writeProducts, if_neg (by simp [meetsParenthesis]), writeProducts, if_neg, ih]
      cases (writeProducts meetsFactor cs).head? <;> simp [meetsParenthesis]
    · rename_i hmeets
      rw [writeProducts, if_neg, ih]
      rw [head?_writeProducts]
      cases cs with
      | nil => simp
      | cons d cs =>
        simp only [List.head?_cons, Option.any_some, meetsFactor, meetsParenthesis, Bool.and_eq_true, Bool.or_eq_true,
          decide_eq_true_eq] at hmeets ⊢
        exact fun h => hmeets ⟨.inr h.1, .inr h.2⟩

/-- No product ends within a text without digits and parentheses that close. -/
theorem writeProducts_append {w : List Char} (hw : ∀ c ∈ w, ∀ d, meetsFactor c d = false) (cs : List Char) :
    writeProducts meetsFactor (w ++ cs) = w ++ writeProducts meetsFactor cs := by
  induction w with
  | nil => rfl
  | cons c w ih =>
    obtain ⟨hc, hw⟩ := List.forall_mem_cons.1 hw
    rw [List.cons_append, writeProducts, if_neg, ih hw, List.cons_append]
    cases (w ++ cs).head? <;> simp [hc]

theorem meetsFactor_eq_false {c : Char} (h : (isDecimalDigit c || c = ')') = false) (d : Char) :
    meetsFactor c d = false := by
  rw [meetsFactor, h, Bool.false_and]

theorem meetsFactor_letter {c : Char} (h : isLetter c = true) (d : Char) : meetsFactor c d = false := by
  cases hmeets : meetsFactor c d with
  | false => rfl
  | true => exact absurd ((meetsFactor_not_letter hmeets).symm.trans h) Bool.false_ne_true

theorem meetsFactor_blank {c : Char} (h : isBlank c = true) (d : Char) : meetsFactor c d = false := by
  have hcode : c.toNat ∈ [9, 10, 11, 12, 13, 0x20, 0x85, 0xA0, 0x1680, 0x2000, 0x2001, 0x2002, 0x2003, 0x2004, 0x2005,
      0x2006, 0x2007, 0x2008, 0x2009, 0x200A, 0x2028, 0x2029, 0x202F, 0x205F, 0x3000] := by
    simp only [isBlank, Bool.or_eq_true, Bool.and_eq_true, decide_eq_true_eq, beq_iff_eq] at h
    simp only [List.mem_cons, List.not_mem_nil, or_false]
    omega
  have hdigit : isDecimalDigit c = false := by
    revert hcode
    rw [isDecimalDigit]
    generalize c.toNat = n
    revert n
    decide +kernel
  have hclose : c ≠ ')' := by
    rintro rfl
    exact absurd h (by decide)
  exact meetsFactor_eq_false (by simp [hdigit, hclose]) d

theorem Tagged.writeProducts {cs ds : List Char} (h : Tagged cs ds) :
    Tagged (writeProducts meetsFactor cs) (writeProducts meetsFactor ds) := by
  induction h with
  | nil => exact .nil
  | @keep c cs ds hc h ih =>
    have hhead := h.head?_any (p := meetsFactor c) fun a b ha hb => by
      rw [meetsFactor, ha, meetsFactor, hb, Bool.true_or, Bool.true_or]
    rw [Query.writeProducts, Query.writeProducts, hhead]
    split
    · exact .keep hc (.keep (by decide) ih)
    · exact .keep hc ih
  | @name w blanks cs ds hw hblanks h ih =>
    obtain ⟨hopening, htag⟩ := List.forall_mem_cons.1 fun c hc => meetsFactor_eq_false (nameTag_apart c hc)
    have hletters : ∀ c ∈ w, ∀ d, meetsFactor c d = false := fun c hc => meetsFactor_letter (isLetter_of_name hw c hc)
    have hspaces : ∀ c ∈ blanks, ∀ d, meetsFactor c d = false := fun c hc => meetsFactor_blank (hblanks c hc)
    have hcall (cs : List Char) : Query.writeProducts meetsFactor ('(' :: cs) = '(' :: Query.writeProducts meetsFactor cs :=
      writeProducts_append (List.forall_mem_singleton.2 hopening) cs
    rw [writeProducts_append hletters, writeProducts_append hspaces, hcall, writeProducts_append htag,
      writeProducts_append hletters, hcall]
    exact .name hw hblanks ih

/-! ## The tags are removed -/

theorem taggedName?_of_ne {c : Char} (hc : c ≠ 'F') (cs : List Char) : taggedName? (c :: cs) = none := by
  rw [taggedName?, nameTag_eq, dropWord?, if_neg (Ne.symm hc), Option.bind_none]

theorem taggedName?_name {w : List Char} (hw : w ∈ functionNames.map String.toList) (cs : List Char) :
    taggedName? (nameTag ++ (w ++ '(' :: cs)) = some (w, cs) := by
  have hletters {v : List Char} (hv : v ∈ functionNames.map String.toList) (rest : List Char) :
      (v ++ '(' :: rest).takeWhile isLetter = v := by
    rw [List.takeWhile_append_of_pos (isLetter_of_name hv), List.takeWhile_cons_of_neg (by decide), List.append_nil]
  have hparen : dropWord? ['('] ('(' :: cs) = some cs := dropWord?_eq_some.2 rfl
  rw [taggedName?, dropWord?_eq_some.2 rfl, Option.bind_some]
  cases hresult : nameBefore? (dropWord? ['(']) (w ++ '(' :: cs) with
  | none =>
    obtain ⟨name, hname, rfl⟩ := List.mem_map.1 hw
    have hnone := List.findSome?_eq_none_iff.1 hresult name hname
    rw [dropWord?_eq_some.2 rfl, Option.bind_some, hparen] at hnone
    exact absurd hnone (by simp)
  | some p =>
    obtain ⟨v, rest⟩ := p
    obtain ⟨name, hname, rfl, behind, hdrop, hopen⟩ := nameBefore?_eq_some hresult
    have htext : w ++ '(' :: cs = name.toList ++ '(' :: rest := by
      rw [dropWord?_eq_some.1 hdrop, dropWord?_eq_some.1 hopen]
      rfl
    have hv : w = name.toList := by
      rw [← hletters hw cs, htext]
      exact hletters (List.mem_map_of_mem hname) rest
    rw [hv, List.append_cancel_left_eq, List.cons.injEq] at htext
    rw [hv, htext.2]

theorem untagNames_keep {c : Char} (hc : c ≠ 'F') (cs : List Char) : untagNames (c :: cs) = c :: untagNames cs := by
  rw [untagNames]
  split
  · rename_i hsome
    exact absurd ((taggedName?_of_ne hc cs).symm.trans hsome) (by simp)
  · rfl

theorem untagNames_name {w : List Char} (hw : w ∈ functionNames.map String.toList) (cs : List Char) :
    untagNames (nameTag ++ (w ++ '(' :: cs)) = w ++ '(' :: untagNames cs := by
  have hname := taggedName?_name hw cs
  rw [nameTag_eq, List.cons_append] at hname ⊢
  rw [untagNames]
  split
  · rename_i hsome
    obtain ⟨rfl, rfl⟩ := Prod.mk.inj (Option.some.inj (hname.symm.trans hsome))
    rfl
  · rename_i hnone
    exact absurd (hname.symm.trans hnone) (by simp)

theorem Tagged.untagNames {cs ds : List Char} (h : Tagged cs ds) :
    untagNames (ds.filter fun c => !isBlank c) = cs.filter fun c => !isBlank c := by
  have hletters {w : List Char} (hw : w ∈ functionNames.map String.toList) : (w.filter fun c => !isBlank c) = w :=
    List.filter_eq_self.2 fun c hc => by
      cases hblank : isBlank c with
      | false => rfl
      | true => exact absurd ((isLetter_of_isBlank hblank).symm.trans (isLetter_of_name hw c hc)) Bool.false_ne_true
  have hparen (cs : List Char) : (('(' :: cs).filter fun c => !isBlank c) = '(' :: cs.filter fun c => !isBlank c := rfl
  induction h with
  | nil => rw [List.filter_nil, Query.untagNames]
  | @keep c cs ds hc h ih =>
    rw [List.filter_cons, List.filter_cons]
    split
    · rw [untagNames_keep hc, ih]
    · exact ih
  | @name w blanks cs ds hw hblanks h ih =>
    have htag : (nameTag.filter fun c => !isBlank c) = nameTag := by decide
    have hspaces : (blanks.filter fun c => !isBlank c) = [] := List.filter_eq_nil_iff.2 fun c hc => by simp [hblanks c hc]
    rw [List.filter_append, List.filter_append, List.filter_append, List.filter_append, hletters hw, hspaces, htag, hparen,
      hparen, untagNames_name hw, ih, List.nil_append]

/-- Tags on the names that are called change nothing. -/
theorem untagNames_tagNames {cs : List Char} (h : 'F' ∉ cs) :
    untagNames ((writeProducts meetsParenthesis (writeProducts meetsFactor (dropFillers false (tagNames false cs)))).filter
      fun c => !isBlank c) = (writeProducts meetsFactor (dropFillers false cs)).filter fun c => !isBlank c := by
  rw [writeProducts_parentheses]
  exact ((tagged_tagNames h false).dropFillers false).writeProducts.untagNames

end SymbolicSolver.Query
