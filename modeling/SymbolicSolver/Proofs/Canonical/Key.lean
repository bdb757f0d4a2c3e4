import SymbolicSolver.Proofs.Canonical.Hereditary
import SymbolicSolver.Proofs.Canonical.Order
import SymbolicSolver.Proofs.Printer.Basic
import SymbolicSolver.Proofs.Printer.Spelling

/-!
# Keys tell trees apart

The key of a tree begins with capital letters that tell the kind of the node, and goes on with the keys of the parts in
parentheses. What follows a key is an end, a comma or a closing parenthesis, so where it stops can be told from the text,
and if the variables are names a key belongs to one tree only. The comparisons that sort terms and factors therefore
hold only equal operands for equal, and operands can be sorted in one way only.
-/

namespace SymbolicSolver.Expr

open Token (IsName)

variable {r s : List Char}

/-! ## Splitting texts -/

/-- The text begins with no character of a kind. -/
def Stops (p : Char → Bool) (r : List Char) : Prop := ∀ c ∈ r.head?, p c = false

/-- Characters of a kind end where another one comes. -/
theorem append_unique {p : Char → Bool} {u v : List Char} (hu : ∀ c ∈ u, p c = true) (hv : ∀ c ∈ v, p c = true)
    (hr : Stops p r) (hs : Stops p s) (h : u ++ r = v ++ s) : u = v ∧ r = s := by
  have htake {w t : List Char} (hw : ∀ c ∈ w, p c = true) (ht : Stops p t) : (w ++ t).takeWhile p = w := by
    rw [List.takeWhile_append_of_pos hw]
    cases t with
    | nil => exact List.append_nil w
    | cons c t => simp [ht c rfl]
  have huv : u = v := by rw [← htake hu hr, h, htake hv hs]
  exact ⟨huv, List.append_cancel_left (huv ▸ h)⟩

/-- What may follow a key. -/
def EndsKey (r : List Char) : Prop := ∀ c ∈ r.head?, c = ',' ∨ c = ')'

theorem EndsKey.stops (hr : EndsKey r) {p : Char → Bool} (hcomma : p ',' = false) (hparen : p ')' = false) :
    Stops p r := by
  intro c hc
  rcases hr c hc with rfl | rfl
  · exact hcomma
  · exact hparen

theorem endsKey_comma (r : List Char) : EndsKey (',' :: r) := by simp [EndsKey]

theorem endsKey_paren (r : List Char) : EndsKey (')' :: r) := by simp [EndsKey]

/-! ## Kinds -/

/-- The capital letters with which a key begins. -/
def keyHead : Expr → List Char
  | rat _ => ['R']
  | pi => ['P', 'I']
  | e => ['E']
  | i => ['I']
  | infinity => ['O', 'O']
  | undefined => ['N', 'A', 'N']
  | var _ => ['V', 'A', 'R']
  | add _ => ['A', 'D', 'D']
  | mul _ => ['M', 'U', 'L']
  | pow _ _ => ['P', 'O', 'W']
  | fn f _ => f.capitalName.toList

/-- What follows the capital letters. -/
def keyBody : Expr → List Char
  | rat q => (toString q.num).toList ++ '/' :: (toString q.den).toList
  | var s => '(' :: s.toList ++ [')']
  | add xs => '(' :: (keyList xs).toList ++ [')']
  | mul xs => '(' :: (keyList xs).toList ++ [')']
  | pow b x => '(' :: (key b).toList ++ ',' :: (key x).toList ++ [')']
  | fn _ x => '(' :: (key x).toList ++ [')']
  | _ => []

theorem toList_key (x : Expr) : x.key.toList = x.keyHead ++ x.keyBody := by
  cases x <;> simp [key, keyHead, keyBody]

def isCapital (c : Char) : Bool := 'A' ≤ c && c ≤ 'Z'

theorem isCapital_capitalName (f : Func) : ∀ c ∈ f.capitalName.toList, isCapital c = true := by
  cases f <;> simp [Func.capitalName, isCapital]

theorem capitalName_injective {f g : Func} (h : f.capitalName.toList = g.capitalName.toList) : f = g := by
  revert h
  cases f <;> cases g <;> decide

theorem isCapital_keyHead (x : Expr) : ∀ c ∈ x.keyHead, isCapital c = true := by
  cases x with
  | fn f x => exact isCapital_capitalName f
  | _ => simp [keyHead, isCapital]

theorem keyHead_ne_nil (x : Expr) : x.keyHead ≠ [] := by
  cases x with
  | fn f x => cases f <;> simp [keyHead, Func.capitalName]
  | _ => exact List.cons_ne_nil _ _

theorem toString_nat_chars (n : Nat) : ∀ c ∈ (toString n).toList, Token.isDigit c = true := by
  rw [Nat.toString_eq_repr, Nat.toList_repr]
  exact fun c => Token.isDigit_of_mem_toDigits

theorem toString_int_chars (n : Int) : ∀ c ∈ (toString n).toList, Token.isDigit c = true ∨ c = '-' := by
  by_cases hn : 0 ≤ n
  · rw [toString_of_nonneg hn]
    exact fun c hc => .inl (toString_nat_chars _ c hc)
  · rw [toString_of_neg (not_le.1 hn), String.toList_append]
    intro c hc
    rcases List.mem_append.1 hc with hc | hc
    · exact .inr (by simpa using hc)
    · exact .inl (toString_nat_chars _ c hc)

theorem toString_nat_unique {m n : Nat} (h : (toString m).toList = (toString n).toList) : m = n := by
  simp only [Nat.toString_eq_repr, Nat.toList_repr] at h
  rw [← Nat.ofDigitChars_ten_toDigits (n := m), h, Nat.ofDigitChars_ten_toDigits]

theorem toString_int_unique {m n : Int} (h : (toString m).toList = (toString n).toList) : m = n := by
  have hsign {a b : Int} (ha : 0 ≤ a) (hb : b < 0) : (toString a).toList ≠ (toString b).toList := by
    rw [toString_of_nonneg ha, toString_of_neg hb, String.toList_append]
    intro heq
    have hdigit := toString_nat_chars a.natAbs '-' (heq ▸ List.mem_cons_self)
    cases hdigit
  rcases lt_or_ge m 0 with hm | hm <;> rcases lt_or_ge n 0 with hn | hn
  · rw [toString_of_neg hm, toString_of_neg hn, String.toList_append, String.toList_append] at h
    have habs := toString_nat_unique (List.append_cancel_left h)
    omega
  · exact absurd h.symm (hsign hn hm)
  · exact absurd h (hsign hm hn)
  · rw [toString_of_nonneg hm, toString_of_nonneg hn] at h
    have habs := toString_nat_unique h
    omega

theorem stops_keyBody (x : Expr) (hr : EndsKey r) : Stops isCapital (x.keyBody ++ r) := by
  cases x with
  | rat q =>
    intro c hc
    rw [keyBody, List.append_assoc, List.head?_append] at hc
    cases hnum : (toString q.num).toList with
    | nil =>
      rw [hnum] at hc
      obtain rfl : '/' = c := by simpa using hc
      decide
    | cons d ds =>
      rw [hnum] at hc
      obtain rfl : d = c := by simpa using hc
      rcases toString_int_chars q.num d (hnum ▸ List.mem_cons_self) with hd | rfl
      · simp only [Token.isDigit, Bool.and_eq_true, decide_eq_true_eq] at hd
        have hlt : ¬ 'A' ≤ d := fun hA => absurd (Char.le_trans hA hd.2) (by decide)
        simp [isCapital, hlt]
      · decide
  | var | add | mul | pow | fn =>
    intro c hc
    obtain rfl : '(' = c := by simpa [keyBody] using hc
    decide
  | _ => exact hr.stops (by decide) (by decide)

/-- Two nodes of one kind; applications are of one kind if they apply the same function. -/
def SameKind : Expr → Expr → Prop
  | rat _, rat _ | pi, pi | e, e | i, i | infinity, infinity | undefined, undefined | var _, var _
  | add _, add _ | mul _, mul _ | pow _ _, pow _ _ => True
  | fn f _, fn g _ => f = g
  | _, _ => False

theorem sameKind_of_keyHead {a b : Expr} (h : a.keyHead = b.keyHead) : SameKind a b := by
  cases a with
  | fn f x =>
    cases b with
    | fn g y => exact capitalName_injective h
    | _ => cases f <;> simp [keyHead, Func.capitalName] at h
  | _ =>
    cases b with
    | fn g y => cases g <;> simp [keyHead, Func.capitalName] at h
    | _ => first | trivial | simp [keyHead] at h

/-- A node whose key is no more than its capital letters is told by its kind. -/
theorem SameKind.eq_of_constant {a b : Expr} (h : SameKind a b) (ha : a.keyBody = []) : a = b := by
  cases a with
  | rat | var | add | mul | pow | fn => simp [keyBody] at ha
  | _ => cases b <;> first | rfl | cases h

/-- Two keys with something behind them tell the same kind of node, and the same goes on behind it. -/
theorem key_split {a b : Expr} (hr : EndsKey r) (hs : EndsKey s) (h : a.key.toList ++ r = b.key.toList ++ s) :
    SameKind a b ∧ a.keyBody ++ r = b.keyBody ++ s := by
  rw [toList_key, toList_key, List.append_assoc, List.append_assoc] at h
  obtain ⟨hhead, hbody⟩ := append_unique (isCapital_keyHead a) (isCapital_keyHead b) (stops_keyBody a hr)
    (stops_keyBody b hs) h
  exact ⟨sameKind_of_keyHead hhead, hbody⟩

/-! ## Leaves -/

theorem ratKey_unique {p q : Rat} (hr : EndsKey r) (hs : EndsKey s)
    (h : (rat p).keyBody ++ r = (rat q).keyBody ++ s) : p = q ∧ r = s := by
  have hnum (n : Int) : ∀ c ∈ (toString n).toList, (c != '/') = true := by
    intro c hc
    rcases toString_int_chars n c hc with hd | rfl
    · simp only [bne_iff_ne, ne_eq]
      rintro rfl
      cases hd
    · decide
  simp only [keyBody, List.append_assoc, List.cons_append] at h
  obtain ⟨hp, h⟩ := append_unique (hnum _) (hnum _) (by simp [Stops]) (by simp [Stops]) h
  obtain ⟨hq, h⟩ := append_unique (toString_nat_chars _) (toString_nat_chars _) (hr.stops (by decide) (by decide))
    (hs.stops (by decide) (by decide)) (List.cons.inj h).2
  exact ⟨Rat.ext (toString_int_unique hp) (toString_nat_unique hq), h⟩

theorem varKey_unique {u v : String} (hu : IsName u) (hv : IsName v) (h : (var u).keyBody ++ r = (var v).keyBody ++ s) :
    u = v ∧ r = s := by
  have hname {w : String} (hw : IsName w) : ∀ c ∈ w.toList, (c != ')') = true := by
    obtain ⟨d, ds, hw, hd, hds⟩ := hw
    rw [hw]
    intro c hc
    simp only [bne_iff_ne, ne_eq]
    rintro rfl
    rcases List.mem_cons.1 hc with rfl | hc
    · cases hd
    · cases hds _ hc
  simp only [keyBody, List.append_assoc, List.cons_append] at h
  obtain ⟨huv, h⟩ := append_unique (hname hu) (hname hv) (by simp [Stops]) (by simp [Stops]) (List.cons.inj h).2
  exact ⟨String.toList_inj.1 huv, by simpa using h⟩

/-! ## Trees -/

-- Keys of parts stand in front of the rest of a key, so the induction is over texts that go on behind the keys.

/-- What stands behind the first key of a list, up to the closing parenthesis. -/
def keyRest (xs : List Expr) (r : List Char) : List Char :=
  if xs = [] then ')' :: r else ',' :: (keyList xs).toList ++ ')' :: r

theorem toList_keyList_cons (x : Expr) (xs : List Expr) (r : List Char) :
    (keyList (x :: xs)).toList ++ ')' :: r = x.key.toList ++ keyRest xs r := by
  cases xs <;> simp [keyList, keyRest]

theorem endsKey_keyRest (xs : List Expr) (r : List Char) : EndsKey (keyRest xs r) := by
  unfold keyRest
  split
  · exact endsKey_paren _
  · exact endsKey_comma _

theorem key_ne_paren (x : Expr) (r s : List Char) : x.key.toList ++ r ≠ ')' :: s := by
  rw [toList_key]
  intro h
  cases hhead : x.keyHead with
  | nil => exact keyHead_ne_nil x hhead
  | cons c cs =>
    rw [hhead] at h
    have hc := isCapital_keyHead x c (by simp [hhead])
    rw [(List.cons.inj h).1] at hc
    cases hc

mutual

/-- A key belongs to one tree, and where it stops can be told from what follows. -/
theorem key_unique : ∀ a b : Expr, VarsIn IsName a → VarsIn IsName b → ∀ r s, EndsKey r → EndsKey s →
    a.key.toList ++ r = b.key.toList ++ s → a = b ∧ r = s
  | rat p, b, _, _, r, s, hr, hs, h => by
    obtain ⟨hkind, hbody⟩ := key_split hr hs h
    cases b with
    | rat q => simpa using ratKey_unique hr hs hbody
    | _ => cases hkind
  | pi, b, _, _, r, s, hr, hs, h | e, b, _, _, r, s, hr, hs, h | i, b, _, _, r, s, hr, hs, h
  | infinity, b, _, _, r, s, hr, hs, h | undefined, b, _, _, r, s, hr, hs, h => by
    obtain ⟨hkind, hbody⟩ := key_split hr hs h
    obtain rfl := hkind.eq_of_constant rfl
    exact ⟨rfl, hbody⟩
  | var u, b, hu, hv, r, s, hr, hs, h => by
    obtain ⟨hkind, hbody⟩ := key_split hr hs h
    cases b with
    | var v => simpa using varKey_unique hu hv hbody
    | _ => cases hkind
  | add xs, b, ha, hb, r, s, hr, hs, h => by
    obtain ⟨hkind, hbody⟩ := key_split hr hs h
    cases b with
    | add ys =>
      simp only [keyBody, List.append_assoc, List.cons_append, List.nil_append, List.cons.injEq, true_and] at hbody
      simpa using keyList_unique xs ys ha hb r s hbody
    | _ => cases hkind
  | mul xs, b, ha, hb, r, s, hr, hs, h => by
    obtain ⟨hkind, hbody⟩ := key_split hr hs h
    cases b with
    | mul ys =>
      simp only [keyBody, List.append_assoc, List.cons_append, List.nil_append, List.cons.injEq, true_and] at hbody
      simpa using keyList_unique xs ys ha hb r s hbody
    | _ => cases hkind
  | pow c x, b, ha, hb, r, s, hr, hs, h => by
    obtain ⟨hkind, hbody⟩ := key_split hr hs h
    cases b with
    | pow d y =>
      simp only [keyBody, List.append_assoc, List.cons_append, List.nil_append, List.cons.injEq, true_and] at hbody
      obtain ⟨rfl, hexponent⟩ := key_unique c d ha.1 hb.1 _ _ (endsKey_comma _) (endsKey_comma _) hbody
      obtain ⟨rfl, hrest⟩ := key_unique x y ha.2 hb.2 _ _ (endsKey_paren r) (endsKey_paren s) (List.cons.inj hexponent).2
      exact ⟨rfl, (List.cons.inj hrest).2⟩
    | _ => cases hkind
  | fn f x, b, ha, hb, r, s, hr, hs, h => by
    obtain ⟨hkind, hbody⟩ := key_split hr hs h
    cases b with
    | fn g y =>
      obtain rfl : f = g := hkind
      simp only [keyBody, List.append_assoc, List.cons_append, List.nil_append, List.cons.injEq, true_and] at hbody
      obtain ⟨rfl, hrest⟩ := key_unique x y ha hb _ _ (endsKey_paren r) (endsKey_paren s) hbody
      exact ⟨rfl, (List.cons.inj hrest).2⟩
    | _ => cases hkind

/-- The keys of a list before a closing parenthesis belong to one list of trees. -/
theorem keyList_unique : ∀ xs ys : List Expr, AllVarsIn IsName xs → AllVarsIn IsName ys → ∀ r s,
    (keyList xs).toList ++ ')' :: r = (keyList ys).toList ++ ')' :: s → xs = ys ∧ r = s
  | [], [], _, _, r, s, h => by simpa [keyList] using h
  | [], y :: ys, _, _, r, s, h => by
    rw [toList_keyList_cons] at h
    exact absurd h.symm (key_ne_paren y _ r)
  | x :: xs, [], _, _, r, s, h => by
    rw [toList_keyList_cons] at h
    exact absurd h (key_ne_paren x _ s)
  | x :: xs, y :: ys, hx, hy, r, s, h => by
    rw [toList_keyList_cons, toList_keyList_cons] at h
    obtain ⟨rfl, hrest⟩ := key_unique x y hx.1 hy.1 _ _ (endsKey_keyRest xs r) (endsKey_keyRest ys s) h
    by_cases hxs : xs = []
    · by_cases hys : ys = []
      · subst hxs hys
        simpa [keyRest] using hrest
      · simp [keyRest, hxs, hys] at hrest
    · by_cases hys : ys = []
      · simp [keyRest, hxs, hys] at hrest
      · simp only [keyRest, hxs, hys, if_false, List.cons_append, List.cons.injEq, true_and] at hrest
        obtain ⟨rfl, hrs⟩ := keyList_unique xs ys hx.2 hy.2 r s hrest
        exact ⟨rfl, hrs⟩

end

/-- Trees whose variables are names have different keys. -/
theorem key_injective {a b : Expr} (ha : VarsIn IsName a) (hb : VarsIn IsName b) (h : a.key = b.key) : a = b :=
  (key_unique a b ha hb [] [] (by simp [EndsKey]) (by simp [EndsKey]) (by rw [h])).1

/-! ## Comparisons -/

theorem eq_of_compareTerms {a b : Expr} (ha : VarsIn IsName a) (hb : VarsIn IsName b) (h : compareTerms a b = .eq) :
    a = b := by
  rw [compareTerms_eq] at h
  simp only [compareLex_eq_eq, compareOn] at h
  exact key_injective ha hb (Std.LawfulEqCmp.eq_of_compare h.2.2.2)

theorem key_ne_empty (x : Expr) : x.key ≠ "" := by
  intro h
  have hnil : x.keyHead ++ x.keyBody = [] := by rw [← toList_key, h, String.toList_empty]
  exact keyHead_ne_nil x (List.append_eq_nil_iff.1 hnil).1

/-- The sorting key of a factor holds the key of the factor, or those of base and exponent. -/
theorem factorKey_cases (f : Expr) : f.factorKey.2 = (f.key, "") ∨ ∃ b x, f = pow b x ∧ f.factorKey.2 = (b.key, x.key) := by
  unfold factorKey
  split
  · split
    · exact .inl rfl
    · exact .inr ⟨_, _, rfl, rfl⟩
  · exact .inl rfl

theorem factorKey_injective {a b : Expr} (ha : VarsIn IsName a) (hb : VarsIn IsName b)
    (h : a.factorKey.2 = b.factorKey.2) : a = b := by
  rcases factorKey_cases a with hka | ⟨c, x, rfl, hka⟩ <;> rcases factorKey_cases b with hkb | ⟨d, y, rfl, hkb⟩ <;>
    rw [hka, hkb, Prod.mk.injEq] at h
  · exact key_injective ha hb h.1
  · exact absurd h.2.symm (key_ne_empty y)
  · exact absurd h.2 (key_ne_empty x)
  · rw [key_injective ha.1 hb.1 h.1, key_injective ha.2 hb.2 h.2]

theorem eq_of_compareFactors {a b : Expr} (ha : VarsIn IsName a) (hb : VarsIn IsName b) (h : compareFactors a b = .eq) :
    a = b := by
  rw [compareFactors_eq] at h
  simp only [compareLex_eq_eq, compareOn] at h
  exact factorKey_injective ha hb
    (Prod.ext (Std.LawfulEqCmp.eq_of_compare h.2.1) (Std.LawfulEqCmp.eq_of_compare h.2.2))

/-! ## Sorting -/

/-- Operands that no comparison takes for each other can be sorted in one way only. -/
theorem mergeSort_eq_of_perm {cmp : Expr → Expr → Ordering} [Std.TransCmp cmp] {xs ys : List Expr} (h : xs.Perm ys)
    (heq : ∀ a ∈ xs, ∀ b ∈ xs, cmp a b = .eq → a = b) :
    (xs.mergeSort fun a b => (cmp a b).isLE) = ys.mergeSort fun a b => (cmp a b).isLE := by
  have hx := List.mergeSort_perm xs fun a b => (cmp a b).isLE
  have hy := List.mergeSort_perm ys fun a b => (cmp a b).isLE
  refine List.Perm.eq_of_pairwise (fun a b ha hb hab hba => ?_) (sortedBy_mergeSort cmp xs) (sortedBy_mergeSort cmp ys)
    (hx.trans (h.trans hy.symm))
  exact heq a (hx.mem_iff.1 ha) b (h.mem_iff.2 (hy.mem_iff.1 hb)) (Std.OrientedCmp.isLE_antisymm hab hba)

theorem sortTerms_eq_of_perm {ts us : List Expr} (hts : ∀ t ∈ ts, VarsIn IsName t) (h : ts.Perm us) :
    sortTerms ts = sortTerms us :=
  mergeSort_eq_of_perm h fun a ha b hb => eq_of_compareTerms (hts a ha) (hts b hb)

theorem sortFactors_eq_of_perm {fs gs : List Expr} (hfs : ∀ f ∈ fs, VarsIn IsName f) (h : fs.Perm gs) :
    sortFactors fs = sortFactors gs :=
  mergeSort_eq_of_perm h fun a ha b hb => eq_of_compareFactors (hfs a ha) (hfs b hb)

end SymbolicSolver.Expr
