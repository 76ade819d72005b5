import Concatenative.Proofs.FreshNames
import Mathlib.Data.Finset.Card
import Mathlib.Data.Nat.Find
import Mathlib.Order.Bounds.Basic

/-! The search for a name that is not reserved, one try after another. The numbers come from a
counter of 64 bits, which starts over at zero, and nothing but a name that is free ends the search.
It ends after at most one try more than there are reserved names: until the counter comes back to a
number, every try has a name of its own. As long as the counter does not start over, the number that
is found is the least, as it is for a counter without bound. -/

namespace Concatenative

/-- What stands before the first dollar sign of a name, or the whole name if it has none. -/
def IsStem (stem name : String) : Prop :=
  '$' ∉ stem.toList ∧ (name = stem ∨ ∃ tail, name = stem ++ "$" ++ tail)

theorem isStem_nameStem (name : String) : IsStem (nameStem name) name := by
  constructor
  · have hall := List.all_takeWhile (p := (· ≠ '$')) (l := name.toList)
    rw [nameStem, String.toList_ofList]
    intro hmem
    simpa using List.all_eq_true.mp hall '$' hmem
  · have hsplit := List.takeWhile_append_dropWhile (p := (· ≠ '$')) (l := name.toList)
    cases hrest : name.toList.dropWhile (· ≠ '$') with
    | nil =>
      rw [hrest, List.append_nil] at hsplit
      exact .inl (by rw [nameStem, hsplit, String.ofList_toList])
    | cons c tail =>
      have hdollar : c = '$' := by
        have hhead := List.head?_dropWhile_not (· ≠ '$') name.toList
        rw [hrest] at hhead
        simpa using hhead
      rw [hrest, hdollar] at hsplit
      refine .inr ⟨String.ofList tail, String.toList_inj.mp ?_⟩
      simpa [nameStem] using hsplit.symm

theorem NameSupply.freshAvoiding_of_isLeast {names : NameSupply} {base : String}
    {reserved : List String} {m : Nat}
    (h : IsLeast {n | names.next ≤ n ∧ generatedName (nameStem base) n ∉ reserved} m) :
    names.freshAvoiding base reserved = (generatedName (nameStem base) m, ⟨m + 1⟩) := by
  obtain ⟨m', hle, hfresh, hfree, hskipped⟩ := names.freshAvoiding_eq base reserved
  have hlower : ∀ n, names.next ≤ n ∧ generatedName (nameStem base) n ∉ reserved → m' ≤ n := by
    rintro n ⟨hn, hnfree⟩
    by_contra hlt
    exact hnfree (hskipped n hn (by omega))
  obtain rfl := h.unique ⟨⟨hle, hfree⟩, hlower⟩
  exact hfresh

/-- The state of a search: the counter, and the name that has been found. -/
structure NameSearch where
  counter : UInt64
  found : Option String := none
  deriving DecidableEq

namespace NameSearch

/-- The name that is tried when the counter has a value. -/
def candidate (base : String) (counter : UInt64) : String :=
  generatedName (nameStem base) counter.toNat

/-- One try, unless a name has been found. -/
def step (base : String) (reserved : List String) (s : NameSearch) : Option NameSearch :=
  match s.found with
  | some _ => none
  | none =>
    let name := candidate base s.counter
    some { counter := s.counter + 1, found := if name ∈ reserved then none else some name }

/-- The state after a number of tries, or the last state if there are fewer. -/
def after (base : String) (reserved : List String) : Nat → NameSearch → NameSearch
  | 0, s => s
  | tries + 1, s =>
    match s.step base reserved with
    | some s' => after base reserved tries s'
    | none => s

variable {base : String} {reserved : List String} {c : UInt64}

theorem step_of_reserved (h : candidate base c ∈ reserved) :
    step base reserved { counter := c } = some { counter := c + 1 } := by
  simp only [step, if_pos h]

theorem step_of_free (h : candidate base c ∉ reserved) :
    step base reserved { counter := c } =
      some { counter := c + 1, found := some (candidate base c) } := by
  simp only [step, if_neg h]

theorem add_ofNat_succ (c : UInt64) (i : Nat) :
    c + UInt64.ofNat (i + 1) = c + 1 + UInt64.ofNat i := by
  rw [Nat.add_comm, UInt64.ofNat_add, ← UInt64.add_assoc]
  rfl

theorem after_add_of_reserved {i : Nat}
    (h : ∀ j < i, candidate base (c + UInt64.ofNat j) ∈ reserved) (tries : Nat) :
    after base reserved (i + tries) { counter := c } =
      after base reserved tries { counter := c + UInt64.ofNat i } := by
  induction i generalizing c with
  | zero => simp
  | succ i ih =>
    have hfirst : candidate base c ∈ reserved := by simpa using h 0 (Nat.zero_lt_succ i)
    rw [Nat.add_right_comm, after, step_of_reserved hfirst, add_ofNat_succ]
    refine ih fun j hj => ?_
    rw [← add_ofNat_succ]
    exact h (j + 1) (Nat.succ_lt_succ hj)

theorem toNat_add_ofNat (c : UInt64) (i : Nat) :
    (c + UInt64.ofNat i).toNat = (c.toNat + i) % UInt64.size := by
  rw [UInt64.toNat_add, UInt64.toNat_ofNat', Nat.add_mod_mod]

/-- The counter has to start over before a name is tried again. -/
theorem candidate_injOn (base : String) (c : UInt64) :
    Set.InjOn (fun i => candidate base (c + UInt64.ofNat i)) {i | i < UInt64.size} := by
  intro i hi j hj heq
  have hnumber := number_eq_of_generatedName_eq heq
  rw [toNat_add_ofNat, toNat_add_ofNat] at hnumber
  simp only [UInt64.size, Set.mem_ofPred_eq] at hi hj hnumber
  omega

theorem exists_free (base : String) (c : UInt64) (h : reserved.toFinset.card < UInt64.size) :
    ∃ i ≤ reserved.toFinset.card, candidate base (c + UInt64.ofNat i) ∉ reserved := by
  by_contra hnone
  have hcard : (Finset.range (reserved.toFinset.card + 1)).card ≤ reserved.toFinset.card := by
    refine Finset.card_le_card_of_injOn (fun i => candidate base (c + UInt64.ofNat i)) ?_ ?_
    · intro i hi
      have hle : i ≤ reserved.toFinset.card := Nat.lt_succ_iff.mp (Finset.mem_range.mp hi)
      exact List.mem_toFinset.mpr (by_contra fun hfree => hnone ⟨i, hle, hfree⟩)
    · refine (candidate_injOn base c).mono fun i hi => ?_
      have hlt : i < reserved.toFinset.card + 1 := Finset.mem_range.mp hi
      exact Nat.lt_of_lt_of_le hlt h
  rw [Finset.card_range] at hcard
  omega

/-- The search comes to a name that is free, also if the counter starts over on the way. -/
theorem exists_first_free (base : String) (c : UInt64)
    (h : reserved.toFinset.card < UInt64.size) :
    ∃ i ≤ reserved.toFinset.card, candidate base (c + UInt64.ofNat i) ∉ reserved ∧
      ∀ j < i, candidate base (c + UInt64.ofNat j) ∈ reserved := by
  have hfree := exists_free base c h
  obtain ⟨hle, hfound⟩ := Nat.find_spec hfree
  refine ⟨Nat.find hfree, hle, hfound, fun j hj => by_contra fun hmem => ?_⟩
  exact Nat.find_min hfree hj ⟨by omega, hmem⟩

theorem found_after_of_reserved {i : Nat}
    (h : ∀ j < i, candidate base (c + UInt64.ofNat j) ∈ reserved) :
    (after base reserved i { counter := c }).found = none := by
  have hafter := after_add_of_reserved h 0
  rw [Nat.add_zero] at hafter
  rw [hafter]
  rfl

theorem after_of_first_free {i : Nat}
    (hreserved : ∀ j < i, candidate base (c + UInt64.ofNat j) ∈ reserved)
    (hfree : candidate base (c + UInt64.ofNat i) ∉ reserved) :
    after base reserved (i + 1) { counter := c } =
      { counter := c + UInt64.ofNat (i + 1)
        found := some (candidate base (c + UInt64.ofNat i)) } := by
  have hnext : c + UInt64.ofNat i + 1 = c + UInt64.ofNat (i + 1) := by
    rw [UInt64.ofNat_add, ← UInt64.add_assoc]
    rfl
  rw [after_add_of_reserved hreserved, after, step_of_free hfree, hnext]
  rfl

/-- A number that is found before the counter starts over is the least. -/
theorem isLeast_of_first_free {i : Nat} (hi : c.toNat + i < UInt64.size)
    (hreserved : ∀ j < i, candidate base (c + UInt64.ofNat j) ∈ reserved)
    (hfree : candidate base (c + UInt64.ofNat i) ∉ reserved) :
    IsLeast {n | c.toNat ≤ n ∧ generatedName (nameStem base) n ∉ reserved} (c.toNat + i) := by
  constructor
  · rw [candidate, toNat_add_ofNat, Nat.mod_eq_of_lt hi] at hfree
    exact ⟨Nat.le_add_right _ _, hfree⟩
  · rintro n ⟨hn, hnfree⟩
    by_contra hlt
    have htried := hreserved (n - c.toNat) (by omega)
    rw [candidate, toNat_add_ofNat, Nat.add_sub_of_le hn, Nat.mod_eq_of_lt (by omega)] at htried
    exact hnfree htried

/-- A search ends after at most one try more than there are reserved names. If the counter does not
start over meanwhile, the name that is found is the stem of the given one with the least number from
the counter's on for which it is not reserved, the counter is left at the number after that, and
both are what a counter without bound gives. -/
theorem after_finds_least (base : String) (reserved : List String) (c : UInt64)
    (hroom : c.toNat + reserved.toFinset.card + 1 < UInt64.size) :
    ∃ tries stem m, tries ≤ reserved.toFinset.card + 1 ∧ IsStem stem base ∧
      IsLeast {n | c.toNat ≤ n ∧ stem ++ "$" ++ toString n ∉ reserved} m ∧
      (∀ n < tries, (after base reserved n { counter := c }).found = none) ∧
      (after base reserved tries { counter := c }).found = some (stem ++ "$" ++ toString m) ∧
      (after base reserved tries { counter := c }).counter.toNat = m + 1 ∧
      NameSupply.freshAvoiding ⟨c.toNat⟩ base reserved = (stem ++ "$" ++ toString m, ⟨m + 1⟩) := by
  have hcard : reserved.toFinset.card < UInt64.size := by omega
  obtain ⟨i, hi, hfree, hreserved⟩ := exists_first_free base c hcard
  have hleast := isLeast_of_first_free (by omega) hreserved hfree
  have hafter := after_of_first_free hreserved hfree
  refine ⟨i + 1, nameStem base, c.toNat + i, by omega, isStem_nameStem base, hleast, ?_, ?_, ?_,
    NameSupply.freshAvoiding_of_isLeast hleast⟩
  · exact fun n hn => found_after_of_reserved fun j hj => hreserved j (by omega)
  · rw [hafter, candidate, toNat_add_ofNat, Nat.mod_eq_of_lt (by omega)]
    rfl
  · rw [hafter, toNat_add_ofNat, Nat.mod_eq_of_lt (by omega), Nat.add_assoc]

/-- The given name has a number itself, and three names with its stem are taken. -/
theorem after_finds_least_taken :
    let reserved := ["a$6", "b$7", "a$4", "a$5", "a$4"]
    (4 : UInt64).toNat + reserved.toFinset.card + 1 < UInt64.size ∧
      ∃ tries ≤ 5, (after "a$3" reserved tries { counter := 4 }).found = some "a$7" ∧
        (after "a$3" reserved tries { counter := 4 }).counter.toNat = 8 := by
  intro reserved
  have hroom : (4 : UInt64).toNat + reserved.toFinset.card + 1 < UInt64.size := by decide
  have hfresh : NameSupply.freshAvoiding ⟨(4 : UInt64).toNat⟩ "a$3" reserved = ("a$7", ⟨8⟩) := by
    decide
  obtain ⟨tries, stem, m, htries, -, -, -, hfound, hcounter, hsupply⟩ :=
    after_finds_least "a$3" reserved 4 hroom
  obtain ⟨hname, hnext⟩ := Prod.mk.inj (hsupply.symm.trans hfresh)
  refine ⟨hroom, tries, htries, hfound.trans (congrArg some hname), ?_⟩
  rw [hcounter]
  exact congrArg NameSupply.next hnext

/-- The last name before the counter starts over is taken. -/
example : after "a" ["a$18446744073709551615"] 2 { counter := 18446744073709551615 } =
    { counter := 1, found := some "a$0" } := by
  decide

end NameSearch

end Concatenative
