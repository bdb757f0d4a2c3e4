import Mathlib.Data.List.Infix
import SymbolicSolver.Number.NumericRoot

/-!
# Distinct numeric roots

Roots are read one after the other, and the rounded image of a root is kept unless it is close to one that was kept
before. Closeness is no equivalence, so what is kept depends on the order in which the roots come: it is told here by
what was kept of the roots before. Real and complex roots are never close, so each kind is filtered as if the other one
were not there.
-/

namespace SymbolicSolver.NumericRoot

open Float.Model Float.Model.UnpackedFloat

/-- Both components are finite. -/
def isFinite (r : NumericRoot) : Bool := r.toComplex.isFinite

/-- A real root, as opposed to a complex one. -/
def isReal : NumericRoot → Bool
  | real _ => true
  | complex _ => false

/-! ## Close roots -/

/-- Roots of different kinds are not close. -/
theorem isReal_eq_of_isClose {k l : NumericRoot} (h : k.isClose l = true) : k.isReal = l.isReal := by
  cases k <;> cases l <;> first | rfl | cases h

theorem sub_self_of_isFinite {a : Float} (h : a.isFinite = true) : a - a = 0 := by
  suffices hsub : UnpackedFloat.sub Format.binary64 a.toModel.unpack a.toModel.unpack = .zero .positive from
    congrArg (fun f => Float.ofModel (Float.Model.pack f)) hsub
  change a.toModel.unpack.isFinite = true at h
  cases hu : a.toModel.unpack with
  | notANumber | infinity =>
    rw [hu] at h
    cases h
  | zero s => cases s <;> rfl
  | finite s m e hm =>
    change UnpackedFloat.normalize Format.binary64
      (s.apply (decreaseExponent m e (min e e)).1 - s.apply (decreaseExponent m e (min e e)).1) (min e e) .positive = _
    rw [Int.sub_self]
    rfl

theorem closeFloats_self {a : Float} (h : a.isFinite = true) : closeFloats a a = true := by
  rw [closeFloats, sub_self_of_isFinite h]
  decide

theorem isClose_self {k : NumericRoot} (h : k.isFinite = true) : k.isClose k = true := by
  cases k with
  | real x =>
    simp only [isFinite, toComplex, ComplexFloat.isFinite, ComplexFloat.real, Bool.and_eq_true] at h
    exact closeFloats_self h.1
  | complex z =>
    simp only [isFinite, toComplex, ComplexFloat.isFinite, Bool.and_eq_true] at h
    simp only [isClose, closeFloats_self h.1, closeFloats_self h.2, Bool.and_self]

/-! ## Rounding -/

theorem isFinite_roundPlaces {v : Float} (h : v.isFinite = true) (places : Nat) :
    (roundPlaces v places).isFinite = true := by
  simp only [roundPlaces]
  split
  · assumption
  · exact h

section Filter

variable (realOnly : Bool) (tolerance : Float) (places : Nat)

theorem isFinite_rounded {r : NumericRoot} (h : r.isFinite = true) :
    (rounded realOnly tolerance places r).isFinite = true := by
  simp only [isFinite, ComplexFloat.isFinite, Bool.and_eq_true] at h
  have hre := isFinite_roundPlaces h.1 places
  have him := isFinite_roundPlaces h.2 places
  have hzero : (0 : Float).isFinite = true := by decide
  unfold rounded
  dsimp only
  split
  · change ((roundPlaces _ places).isFinite && (0 : Float).isFinite) = true
    rw [hre, hzero, Bool.and_self]
  · change ((roundPlaces _ places).isFinite && (roundPlaces _ places).isFinite) = true
    rw [hre, him, Bool.and_self]

/-! ## One root -/

/-- A root is passed over if it is not finite or close to one that is kept, and else its image is put behind those. -/
theorem keep_cases (kept : List NumericRoot) (r : NumericRoot) :
    keep realOnly tolerance places kept r = kept ∧
        (r.isFinite = true → ∃ k ∈ kept, k.isClose (rounded realOnly tolerance places r) = true) ∨
      keep realOnly tolerance places kept r = kept ++ [rounded realOnly tolerance places r] ∧
        r.isFinite = true ∧ ∀ k ∈ kept, k.isClose (rounded realOnly tolerance places r) = false := by
  simp only [keep, isFinite]
  split
  · rename_i hfinite
    split
    · rename_i hclose
      exact .inl ⟨rfl, fun _ => List.any_eq_true.1 hclose⟩
    · rename_i hclose
      exact .inr ⟨rfl, hfinite, by simpa using hclose⟩
  · rename_i hfinite
    exact .inl ⟨rfl, fun h => absurd h hfinite⟩

/-! ## All roots -/

/-- The images of the finite roots. -/
def images (roots : List NumericRoot) : List NumericRoot :=
  (roots.filter isFinite).map (rounded realOnly tolerance places)

theorem dedupe_concat (roots : List NumericRoot) (r : NumericRoot) :
    dedupe (roots ++ [r]) realOnly tolerance places =
      keep realOnly tolerance places (dedupe roots realOnly tolerance places) r := by
  rw [dedupe, List.foldl_append]
  rfl

/-- What holds of no roots, and goes on to hold whether the next root is passed over or kept, holds of all roots and what
is kept of them. -/
theorem dedupe_induction {P : List NumericRoot → List NumericRoot → Prop} (nil : P [] [])
    (pass : ∀ roots r kept, dedupe roots realOnly tolerance places = kept → P roots kept →
      (r.isFinite = true → ∃ k ∈ kept, k.isClose (rounded realOnly tolerance places r) = true) →
      P (roots ++ [r]) kept)
    (take : ∀ roots r kept, dedupe roots realOnly tolerance places = kept → P roots kept → r.isFinite = true →
      (∀ k ∈ kept, k.isClose (rounded realOnly tolerance places r) = false) →
      P (roots ++ [r]) (kept ++ [rounded realOnly tolerance places r]))
    (roots : List NumericRoot) : P roots (dedupe roots realOnly tolerance places) := by
  induction roots using List.reverseRecOn with
  | nil => exact nil
  | append_singleton roots r ih =>
    rw [dedupe_concat]
    rcases keep_cases realOnly tolerance places (dedupe roots realOnly tolerance places) r with
      ⟨hkeep, hclose⟩ | ⟨hkeep, hfinite, hapart⟩ <;> rw [hkeep]
    · exact pass roots r _ rfl ih hclose
    · exact take roots r _ rfl ih hfinite hapart

theorem dedupe_finite (roots : List NumericRoot) :
    ∀ k ∈ dedupe roots realOnly tolerance places, k.isFinite = true := by
  refine dedupe_induction realOnly tolerance places (P := fun _ kept => ∀ k ∈ kept, k.isFinite = true)
    (fun k hk => nomatch hk) (fun _ _ _ _ ih _ => ih) (fun roots r kept _ ih hfinite _ => ?_) roots
  simpa [or_imp, forall_and] using ⟨ih, isFinite_rounded realOnly tolerance places hfinite⟩

theorem dedupe_sublist_images (roots : List NumericRoot) :
    (dedupe roots realOnly tolerance places).Sublist (images realOnly tolerance places roots) := by
  have himages (roots : List NumericRoot) (r : NumericRoot) : images realOnly tolerance places (roots ++ [r]) =
      images realOnly tolerance places roots ++ images realOnly tolerance places [r] := by
    rw [images, List.filter_append, List.map_append]
    rfl
  refine dedupe_induction realOnly tolerance places
    (P := fun roots kept => kept.Sublist (images realOnly tolerance places roots))
    List.Sublist.slnil (fun roots r kept _ ih _ => ?_) (fun roots r kept _ ih hfinite _ => ?_) roots <;> rw [himages]
  · exact ih.trans (List.sublist_append_left _ _)
  · refine ih.append ?_
    rw [images, List.filter_singleton, hfinite]
    exact List.Sublist.refl _

/-- No root is close to one that was kept after it. -/
theorem dedupe_pairwise (roots : List NumericRoot) :
    (dedupe roots realOnly tolerance places).Pairwise fun k l => k.isClose l = false := by
  refine dedupe_induction realOnly tolerance places (P := fun _ kept => kept.Pairwise fun k l => isClose k l = false)
    List.Pairwise.nil (fun _ _ _ _ ih _ => ih) (fun roots r kept _ ih _ hapart => ?_) roots
  exact List.pairwise_append.2 ⟨ih, List.pairwise_singleton _ _, by simpa using hapart⟩

/-- What was kept stays, in its place. -/
theorem dedupe_prefix_append (roots later : List NumericRoot) :
    dedupe roots realOnly tolerance places <+: dedupe (roots ++ later) realOnly tolerance places := by
  induction later using List.reverseRecOn with
  | nil => rw [List.append_nil]
  | append_singleton later r ih =>
    rw [← List.append_assoc, dedupe_concat]
    rcases keep_cases realOnly tolerance places (dedupe (roots ++ later) realOnly tolerance places) r with
      ⟨hkeep, -⟩ | ⟨hkeep, -⟩ <;> rw [hkeep]
    · exact ih
    · exact ih.trans (List.prefix_append _ _)

/-- A finite root is kept behind what was kept before it, or is close to some of that. -/
theorem dedupe_covers (earlier later : List NumericRoot) {r : NumericRoot} (hr : r.isFinite = true) :
    dedupe earlier realOnly tolerance places ++ [rounded realOnly tolerance places r] <+:
        dedupe (earlier ++ r :: later) realOnly tolerance places ∨
      ∃ k ∈ dedupe earlier realOnly tolerance places, k.isClose (rounded realOnly tolerance places r) = true := by
  rcases keep_cases realOnly tolerance places (dedupe earlier realOnly tolerance places) r with
    ⟨-, hclose⟩ | ⟨hkeep, -⟩
  · exact .inr (hclose hr)
  · have hsplit : earlier ++ r :: later = (earlier ++ [r]) ++ later := List.append_cons earlier r later
    rw [← hkeep, ← dedupe_concat, hsplit]
    exact .inl (dedupe_prefix_append realOnly tolerance places _ later)

/-- An image is close to something kept, if only to itself. -/
theorem exists_isClose {roots : List NumericRoot} {l : NumericRoot} (hl : l ∈ images realOnly tolerance places roots) :
    ∃ k ∈ dedupe roots realOnly tolerance places, k.isClose l = true := by
  obtain ⟨r, hr, rfl⟩ := List.mem_map.1 hl
  obtain ⟨hr, hfinite⟩ := List.mem_filter.1 hr
  obtain ⟨earlier, later, rfl⟩ := List.append_of_mem hr
  rcases dedupe_covers realOnly tolerance places earlier later hfinite with hkept | ⟨k, hk, hclose⟩
  · exact ⟨_, hkept.subset (by simp), isClose_self (isFinite_rounded realOnly tolerance places hfinite)⟩
  · exact ⟨k, (dedupe_prefix_append realOnly tolerance places earlier _).subset hk, hclose⟩

/-- What is kept is the image of a root, stands behind what was kept of the roots before that, and was no image of
those. -/
def FirstImage (roots before : List NumericRoot) (k : NumericRoot) : Prop :=
  ∃ earlier r rest, roots = earlier ++ r :: rest ∧ r.isFinite = true ∧ rounded realOnly tolerance places r = k ∧
    dedupe earlier realOnly tolerance places = before ∧ k ∉ images realOnly tolerance places earlier

theorem dedupe_first {roots before later : List NumericRoot} {k : NumericRoot}
    (h : dedupe roots realOnly tolerance places = before ++ k :: later) :
    FirstImage realOnly tolerance places roots before k := by
  have hlater {roots before k r} (h : FirstImage realOnly tolerance places roots before k) :
      FirstImage realOnly tolerance places (roots ++ [r]) before k := by
    obtain ⟨earlier, s, rest, rfl, hs⟩ := h
    exact ⟨earlier, s, rest ++ [r], by simp, hs⟩
  refine dedupe_induction realOnly tolerance places (P := fun roots kept => ∀ before k later,
    kept = before ++ k :: later → FirstImage realOnly tolerance places roots before k) (by simp)
    (fun roots r kept _ ih _ before k later h => hlater (ih before k later h))
    (fun roots r kept hkept ih hfinite hapart before k later h => ?_) roots before k later h
  rcases List.eq_nil_or_concat later with rfl | ⟨later, l, rfl⟩
  · obtain ⟨hbefore, hk⟩ := List.append_inj' h rfl
    obtain rfl := List.singleton_inj.1 hk
    refine ⟨roots, r, [], by simp, hfinite, rfl, hkept.trans hbefore, fun himage => ?_⟩
    -- were the image there before, something kept would be close to it
    obtain ⟨l, hl, hclose⟩ := exists_isClose realOnly tolerance places himage
    rw [hapart l (hkept ▸ hl)] at hclose
    cases hclose
  · rw [List.concat_eq_append, ← List.cons_append, ← List.append_assoc] at h
    exact hlater (ih before k later (List.append_inj' h rfl).1)

/-- Whether a root is kept depends on the kept roots of its own kind only. -/
theorem filter_keep (kind : Bool) (kept : List NumericRoot) (r : NumericRoot) :
    (keep realOnly tolerance places kept r).filter (fun k => k.isReal == kind) =
      if (rounded realOnly tolerance places r).isReal == kind then
        keep realOnly tolerance places (kept.filter fun k => k.isReal == kind) r
      else kept.filter fun k => k.isReal == kind := by
  have hany (h : (rounded realOnly tolerance places r).isReal = kind) :
      ((kept.filter fun k => k.isReal == kind).any fun k => k.isClose (rounded realOnly tolerance places r)) =
        kept.any fun k => k.isClose (rounded realOnly tolerance places r) := by
    rw [List.any_filter]
    congr 1
    funext k
    cases hclose : k.isClose (rounded realOnly tolerance places r) with
    | false => rw [Bool.and_false]
    | true => rw [isReal_eq_of_isClose hclose, h, beq_self_eq_true, Bool.and_true]
  by_cases hkind : (rounded realOnly tolerance places r).isReal = kind
  · rw [if_pos (by simpa using hkind)]
    simp only [keep, hany hkind]
    split_ifs <;> simp [hkind]
  · rw [if_neg (by simpa using hkind)]
    rcases keep_cases realOnly tolerance places kept r with ⟨hkeep, -⟩ | ⟨hkeep, -⟩ <;> simp [hkeep, hkind]

/-- The roots of one kind are kept as if the others were not there. -/
theorem filter_dedupe (kind : Bool) (roots : List NumericRoot) :
    (dedupe roots realOnly tolerance places).filter (fun k => k.isReal == kind) =
      dedupe (roots.filter fun r => (rounded realOnly tolerance places r).isReal == kind) realOnly tolerance places := by
  induction roots using List.reverseRecOn with
  | nil => rfl
  | append_singleton roots r ih =>
    rw [dedupe_concat, filter_keep, ih, List.filter_append, List.filter_singleton]
    cases (rounded realOnly tolerance places r).isReal == kind with
    | true => exact (dedupe_concat realOnly tolerance places _ r).symm
    | false => exact congrArg (dedupe · realOnly tolerance places) (List.append_nil _).symm

/-- Roots are kept by a greedy filter. All that is kept is finite; it is what appears first of the rounded images of the
finite roots, in their order; nothing kept is close to what was kept after it; every finite root is kept behind what was
kept before it, unless it is close to some of that; and the real and the complex roots are kept as if those of the other
kind were not there. -/
theorem dedupe_greedy (roots : List NumericRoot) :
    (∀ k ∈ dedupe roots realOnly tolerance places, k.isFinite = true) ∧
    (dedupe roots realOnly tolerance places).Sublist (images realOnly tolerance places roots) ∧
    (∀ before k later, dedupe roots realOnly tolerance places = before ++ k :: later →
      FirstImage realOnly tolerance places roots before k) ∧
    (dedupe roots realOnly tolerance places).Pairwise (fun k l => k.isClose l = false) ∧
    (∀ earlier r rest, roots = earlier ++ r :: rest → r.isFinite = true →
      dedupe earlier realOnly tolerance places <+: dedupe roots realOnly tolerance places ∧
        (dedupe earlier realOnly tolerance places ++ [rounded realOnly tolerance places r] <+:
            dedupe roots realOnly tolerance places ∨
          ∃ k ∈ dedupe earlier realOnly tolerance places,
            k.isClose (rounded realOnly tolerance places r) = true)) ∧
    ∀ kind, (dedupe roots realOnly tolerance places).filter (fun k => k.isReal == kind) =
      dedupe (roots.filter fun r => (rounded realOnly tolerance places r).isReal == kind) realOnly tolerance
        places := by
  refine ⟨dedupe_finite realOnly tolerance places roots, dedupe_sublist_images realOnly tolerance places roots,
    fun before k later => dedupe_first realOnly tolerance places, dedupe_pairwise realOnly tolerance places roots,
    ?_, fun kind => filter_dedupe realOnly tolerance places kind roots⟩
  rintro earlier r rest rfl hr
  exact ⟨dedupe_prefix_append realOnly tolerance places earlier _, dedupe_covers realOnly tolerance places earlier rest hr⟩

end Filter

end SymbolicSolver.NumericRoot
