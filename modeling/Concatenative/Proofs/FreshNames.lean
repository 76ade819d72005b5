import Concatenative.Name

/-! Generated names differ whenever their numbers do, so a search for a name that is not reserved
meets every reserved name at most once and finds the first free one. -/

namespace Concatenative

theorem dollar_not_mem_digits (n : Nat) : '$' ∉ Nat.toDigits 10 n := by
  intro h
  have hdigit := Nat.isDigit_of_mem_toDigits (by decide) (by decide) h
  exact absurd hdigit (by decide)

/-- The last dollar sign of a generated name stands in front of its number, whatever the stem. -/
theorem digits_generatedName (stem : String) (n : Nat) :
    (generatedName stem n).toList.reverse.takeWhile (· ≠ '$') = (Nat.toDigits 10 n).reverse := by
  have hlist : (generatedName stem n).toList = stem.toList ++ '$' :: Nat.toDigits 10 n := by
    simp [generatedName]
  have hdigits : ∀ c ∈ (Nat.toDigits 10 n).reverse, decide (c ≠ '$') = true := by
    intro c hc
    have hne : c ≠ '$' := fun heq => dollar_not_mem_digits n (heq ▸ List.mem_reverse.mp hc)
    simpa using hne
  rw [hlist, List.reverse_append, List.reverse_cons, List.append_assoc,
    List.takeWhile_append_of_pos hdigits]
  simp

theorem eq_of_digits_eq {m n : Nat} (h : Nat.toDigits 10 m = Nat.toDigits 10 n) : m = n :=
  calc
    m = Nat.ofDigitChars 10 (Nat.toDigits 10 m) 0 := Nat.ofDigitChars_ten_toDigits.symm
    _ = Nat.ofDigitChars 10 (Nat.toDigits 10 n) 0 := by rw [h]
    _ = n := Nat.ofDigitChars_ten_toDigits

theorem number_eq_of_generatedName_eq {stem stem' : String} {m n : Nat}
    (h : generatedName stem m = generatedName stem' n) : m = n := by
  refine eq_of_digits_eq ?_
  rw [← List.reverse_inj, ← digits_generatedName stem, ← digits_generatedName stem', h]

namespace NameSupply

/-- The search skips reserved names only, and stops at the first name that is not. Every failure
uses up one of the reserved names that later numbers can meet, listed in `left`. -/
theorem freshFrom_eq (stem : String) (reserved : List String) :
    ∀ (tries number : Nat) (left : List String), left.length ≤ tries →
      (∀ m, number ≤ m → generatedName stem m ∈ reserved → generatedName stem m ∈ left) →
      ∃ m, number ≤ m ∧
        freshFrom stem reserved tries number = (generatedName stem m, ⟨m + 1⟩) ∧
        generatedName stem m ∉ reserved ∧
        ∀ i, number ≤ i → i < m → generatedName stem i ∈ reserved
  | 0, number, left, hleft, hcover => by
    have hnil : left = [] := List.length_eq_zero_iff.mp (Nat.le_zero.mp hleft)
    subst hnil
    refine ⟨number, Nat.le_refl _, rfl, fun h => ?_, fun i hi hlt => by omega⟩
    simpa using hcover number (Nat.le_refl _) h
  | tries + 1, number, left, hleft, hcover => by
    by_cases htaken : generatedName stem number ∈ reserved
    · have hmem := hcover number (Nat.le_refl _) htaken
      have hpos := List.length_pos_of_mem hmem
      have hshorter : (left.erase (generatedName stem number)).length ≤ tries := by
        rw [List.length_erase_of_mem hmem]
        omega
      obtain ⟨m, hm, heq, hfree, hskipped⟩ := freshFrom_eq stem reserved tries (number + 1)
        (left.erase (generatedName stem number)) hshorter fun m hm hres => by
          have hne : generatedName stem m ≠ generatedName stem number := by
            intro h
            have := number_eq_of_generatedName_eq h
            omega
          exact (List.mem_erase_of_ne hne).mpr (hcover m (by omega) hres)
      refine ⟨m, by omega, by rw [freshFrom, if_pos htaken, heq], hfree, fun i hi hlt => ?_⟩
      rcases Nat.eq_or_lt_of_le hi with rfl | hi
      · exact htaken
      · exact hskipped i hi hlt
    · exact ⟨number, Nat.le_refl _, by rw [freshFrom, if_neg htaken], htaken,
        fun i hi hlt => by omega⟩

theorem freshAvoiding_eq (names : NameSupply) (base : String) (reserved : List String) :
    ∃ m, names.next ≤ m ∧
      names.freshAvoiding base reserved = (generatedName (nameStem base) m, ⟨m + 1⟩) ∧
      generatedName (nameStem base) m ∉ reserved ∧
      ∀ i, names.next ≤ i → i < m → generatedName (nameStem base) i ∈ reserved :=
  freshFrom_eq (nameStem base) reserved reserved.length names.next reserved (Nat.le_refl _)
    fun _ _ h => h

end NameSupply

end Concatenative
