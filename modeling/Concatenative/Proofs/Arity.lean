import Concatenative.Proofs.Capture

/-! Opening a signature keeps its arity. The number of slots on one side of an effect is known if no
stack variable stands among them, except at the very bottom where the other side has the same one. A
new variable under both sides is of that kind, and an old one that it is put under was in the way
before, because the two sides of a closed signature have no stack variable in common there. -/

namespace Concatenative

theorem Kind.stackVar?_eq_some_iff {k : Kind} {name : String} :
    k.stackVar? = some name ↔ k = .var ⟨.stack, name⟩ := by
  unfold stackVar?
  split <;> simp_all

namespace Shape

/-- No slot of the shape is a stack variable. -/
def Fixed (s : Shape) : Prop := ∀ k ∈ s, k.stackVar? = none

variable {s slots other : Shape}

theorem isOpen_pushBottom (s : Shape) (name : String) :
    (s.pushBottom (.var ⟨.stack, name⟩)).isOpen = true := by
  rw [isOpen, rest?_pushBottom, Option.isSome_some]

theorem findIdx?_eq_none_iff_fixed : s.findIdx? (fun k => k.stackVar?.isSome) = none ↔ s.Fixed := by
  simp [Fixed, List.findIdx?_eq_none_iff]

theorem depth?_of_fixed (hs : s.Fixed) (other : Shape) : s.depth? other = some s.length := by
  simp only [depth?, findIdx?_eq_none_iff_fixed.mpr hs]

/-- A stack variable at the bottom is not counted if the other side has it there. -/
theorem depth?_of_rest (hslots : slots.Fixed) (other : Shape) (name : String) :
    (slots.pushBottom (.var ⟨.stack, name⟩)).depth? other =
      if other.rest? = some name then some slots.length else none := by
  have hvar : (Kind.var ⟨.stack, name⟩).stackVar? = some name := rfl
  have hfirst : (slots.pushBottom (.var ⟨.stack, name⟩)).findIdx? (fun k => k.stackVar?.isSome) =
      some slots.length := by
    simp [pushBottom, List.findIdx?_append, findIdx?_eq_none_iff_fixed.mpr hslots, hvar]
  have hlength : slots.length + 1 = (slots.pushBottom (.var ⟨.stack, name⟩)).length := by
    simp [pushBottom]
  have hshared : other.bottom? = (slots.pushBottom (.var ⟨.stack, name⟩)).bottom? ↔
      other.rest? = some name := by
    simp [rest?, Option.bind_eq_some_iff, Kind.stackVar?_eq_some_iff, pushBottom, bottom?]
  simp only [depth?, hfirst, hlength, hshared, true_and]

/-- The first stack variable is found above the bottom, whatever stands there. -/
theorem depth?_of_not_fixed (hslots : ¬slots.Fixed) (k : Kind) (other : Shape) :
    (slots.pushBottom k).depth? other = none := by
  obtain ⟨i, hi⟩ := Option.ne_none_iff_exists'.mp (mt findIdx?_eq_none_iff_fixed.mp hslots)
  have hfirst : (slots.pushBottom k).findIdx? (fun k => k.stackVar?.isSome) = some i := by
    simp [pushBottom, List.findIdx?_append, hi]
  obtain ⟨hlt, -⟩ := List.findIdx?_eq_some_iff_getElem.mp hi
  have hlength : ¬i + 1 = (slots.pushBottom k).length := by
    rw [pushBottom, List.length_append, List.length_singleton]
    omega
  simp only [depth?, hfirst, hlength, false_and, if_false]

theorem depth?_eq_none (hs : ¬s.Fixed) (hclosed : ¬(s.isOpen = true ∧ other.isOpen = true)) :
    s.depth? other = none := by
  have hne : s ≠ [] := by
    rintro rfl
    exact hs fun _ hk => absurd hk List.not_mem_nil
  obtain ⟨slots, k, rfl⟩ : ∃ (slots : Shape) (k : Kind), s = slots.pushBottom k :=
    ⟨s.dropLast, s.getLast hne, (List.dropLast_append_getLast hne).symm⟩
  by_cases hslots : slots.Fixed
  · obtain ⟨name, hk⟩ : ∃ name, k.stackVar? = some name := by
      refine Option.ne_none_iff_exists'.mp fun hk => hs ?_
      exact List.forall_mem_append.mpr ⟨hslots, List.forall_mem_singleton.mpr hk⟩
    obtain rfl := Kind.stackVar?_eq_some_iff.mp hk
    have hother : other.rest? ≠ some name := by
      intro hrest
      exact hclosed ⟨isOpen_pushBottom slots name, by rw [isOpen, hrest, Option.isSome_some]⟩
    rw [depth?_of_rest hslots, if_neg hother]
  · exact depth?_of_not_fixed hslots k other

/-- A stack variable under both sides leaves the number of slots as it is, unless both had one. -/
theorem depth?_pushBottom (hclosed : ¬(s.isOpen = true ∧ other.isOpen = true)) (name : String) :
    (s.pushBottom (.var ⟨.stack, name⟩)).depth? (other.pushBottom (.var ⟨.stack, name⟩)) =
      s.depth? other := by
  by_cases hs : s.Fixed
  · rw [depth?_of_rest hs, rest?_pushBottom, if_pos rfl, depth?_of_fixed hs]
  · rw [depth?_of_not_fixed hs, depth?_eq_none hs hclosed]

end Shape

namespace Signature

theorem opened_of_open {f : Signature} (h : f.consumption.isOpen = true) (names : NameSupply) :
    f.opened names = (f, names) := if_pos h

/-- A signature that has been opened takes and leaves as many slots as before, wherever stack
variables stand in it; it is open, and opening it once more changes nothing and takes no name. -/
theorem opened_arity (f : Signature) (names : NameSupply) :
    (f.opened names).1.taken? = f.taken? ∧ (f.opened names).1.left? = f.left? ∧
      (f.opened names).1.consumption.isOpen = true ∧
      ∀ later, (f.opened names).1.opened later = ((f.opened names).1, later) := by
  by_cases hopen : f.consumption.isOpen = true
  · rw [opened_of_open hopen]
    exact ⟨rfl, rfl, hopen, opened_of_open hopen⟩
  · rw [opened_of_closed (Bool.eq_false_iff.mpr hopen)]
    have hopened : (f.withRest (generatedName "a" names.next)).consumption.isOpen = true :=
      Shape.isOpen_pushBottom _ _
    refine ⟨?_, ?_, hopened, opened_of_open hopened⟩
    · exact Shape.depth?_pushBottom (fun h => hopen h.1) _
    · exact Shape.depth?_pushBottom (fun h => hopen h.2) _

/-- A stack variable that only the production has is in the way before and after. -/
example : let f : Signature := ⟨[.named "Int"], [.named "Int", .var ⟨.stack, "b"⟩], false⟩
    (f.taken?, f.left?) = (some 1, none) ∧
      ((f.opened {}).1.taken?, (f.opened {}).1.left?) = (some 1, none) := by
  decide

end Signature

end Concatenative
