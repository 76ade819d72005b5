import Concatenative.Proofs.Equivalence
import Concatenative.Signature

/-! What the verdict on a signature depends on. Whether the consumption introduces the variables of
the production does not depend on their names. The check looks for names only, though, so it also
takes a variable for introduced when one of the other sort has the same name; then renaming can
change the verdict. -/

namespace Concatenative

namespace Kind

theorem toVar?_eq_some_iff {k : Kind} {v : Variable} : k.toVar? = some v ↔ k = .var v := by
  cases k <;> simp [toVar?]

theorem toVar?_rename (f : Variable → String) (k : Kind) :
    (k.rename f).toVar? = k.toVar?.map fun v => { v with name := f v } := by
  cases k <;> rfl

theorem rename_eq_self_iff {f : Variable → String} {k : Kind} : k.rename f = .self ↔ k = .self := by
  cases k <;> simp [Kind.rename]

end Kind

namespace Signature

/-- The variables at the top level of the production. -/
def produced (f : Signature) : List Variable := f.production.filterMap Kind.toVar?

/-- The consumption introduces all variables at the top level of the production, or a `self` in it
does. -/
def Introduces (f : Signature) : Prop :=
  .self ∈ f.consumption ∨ ∀ v ∈ f.produced, v ∈ f.consumption.variables

/-- Some variable of the production is not introduced, but for every such variable there is an
introduced one of the same name and of the other sort. -/
def Borrows (f : Signature) : Prop :=
  ¬f.Introduces ∧ ∀ v ∈ f.produced, v ∉ f.consumption.variables →
    ∃ w ∈ f.consumption.variables, w.name = v.name ∧ w.sort ≠ v.sort

instance (f : Signature) : Decidable f.Introduces := inferInstanceAs (Decidable (_ ∨ _))

instance (f : Signature) : Decidable f.Borrows := inferInstanceAs (Decidable (_ ∧ _))

variable {f g : Signature}

theorem check_eq_ok_iff : f.check = .ok () ↔
    .self ∈ f.consumption ∨ ∀ v ∈ f.produced, v.name ∈ f.introduced := by
  have hnone : f.check = .ok () ↔ f.unintroduced? = none := by
    unfold check
    split <;> simp_all
  rw [hnone, unintroduced?]
  by_cases hself : .self ∈ f.consumption
  · simp [hself]
  · rw [if_neg hself, or_iff_right hself, List.findSome?_eq_none_iff]
    constructor
    · intro h v hv
      obtain ⟨k, hk, hkv⟩ := List.mem_filterMap.mp hv
      have hfilter := h k hk
      rw [hkv] at hfilter
      simpa using hfilter
    · intro h k hk
      rw [Option.filter_eq_none_iff]
      intro v hv
      simpa using h v (List.mem_filterMap.mpr ⟨k, hk, hv⟩)

theorem check_eq_ok_iff_introduces_or_borrows : f.check = .ok () ↔ f.Introduces ∨ f.Borrows := by
  rw [check_eq_ok_iff]
  constructor
  · rintro (hself | hnames)
    · exact .inl (.inl hself)
    · by_cases hin : f.Introduces
      · exact .inl hin
      · refine .inr ⟨hin, fun v hv hnot => ?_⟩
        obtain ⟨w, hw, hname⟩ := List.mem_map.mp (hnames v hv)
        exact ⟨w, hw, hname, fun hsort => hnot (Variable.ext hsort hname ▸ hw)⟩
  · rintro ((hself | hin) | ⟨-, hborrowed⟩)
    · exact .inl hself
    · exact .inr fun v hv => List.mem_map_of_mem (hin v hv)
    · refine .inr fun v hv => ?_
      by_cases hin : v ∈ f.consumption.variables
      · exact List.mem_map_of_mem hin
      · obtain ⟨w, hw, hname, -⟩ := hborrowed v hv hin
        exact hname ▸ List.mem_map_of_mem hw

theorem mem_kind_variables_of_mem_produced {v : Variable} (h : v ∈ f.produced) :
    v ∈ f.kind.variables := by
  obtain ⟨k, hk, hkv⟩ := List.mem_filterMap.mp h
  rw [kind, Kind.variables_function, List.mem_flatMap]
  refine ⟨k, List.mem_append_right _ hk, ?_⟩
  rw [Kind.toVar?_eq_some_iff.mp hkv, Kind.variables]
  exact List.mem_singleton_self v

/-- A renaming takes no two variables to one, so it neither introduces a variable nor takes one
away. -/
theorem introduces_iff_of_renamesTo (h : f.kind.RenamesTo g.kind) :
    f.Introduces ↔ g.Introduces := by
  obtain ⟨rho, hrho, heq⟩ := h
  rw [kind, kind, Kind.rename_function] at heq
  obtain ⟨hconsumption, hproduction, -⟩ := Kind.function.inj heq
  have hself : .self ∈ g.consumption ↔ .self ∈ f.consumption := by
    simp [← hconsumption, Kind.rename_eq_self_iff]
  have hproduced : g.produced = f.produced.map fun v => { v with name := rho v } := by
    rw [produced, produced, ← hproduction, List.filterMap_map, List.map_filterMap]
    exact List.filterMap_congr fun k _ => Kind.toVar?_rename rho k
  have hintroduced : g.consumption.variables =
      f.consumption.variables.map fun v => { v with name := rho v } := by
    rw [← hconsumption, Shape.variables_rename]
  have hmem : ∀ v ∈ f.produced, { v with name := rho v } ∈ g.consumption.variables ↔
      v ∈ f.consumption.variables := by
    intro v hv
    rw [hintroduced]
    constructor
    · intro h
      obtain ⟨w, hw, hwv⟩ := List.mem_map.mp h
      have hwkind : w ∈ f.kind.variables := List.mem_append_left _ hw
      obtain ⟨hsort, hname⟩ := Variable.mk.inj hwv
      exact hrho w hwkind v (mem_kind_variables_of_mem_produced hv) hsort hname ▸ hw
    · exact List.mem_map_of_mem
  rw [Introduces, Introduces, hself, hproduced]
  refine or_congr_right ?_
  simp only [List.forall_mem_map]
  exact forall₂_congr fun v hv => (hmem v hv).symm

/-- For equivalent signatures the verdicts agree exactly if both or neither of the two are accepted
only because a variable of the other sort has the right name. -/
theorem check_agrees_iff (f g : Signature) (h : f.kind.equivalent g.kind = true) :
    ((f.check = .ok () ↔ g.check = .ok ()) ↔ (f.Borrows ↔ g.Borrows)) := by
  have hin := introduces_iff_of_renamesTo (Kind.equivalent_iff_renamesTo.mp h)
  have hf : f.Borrows → ¬f.Introduces := And.left
  have hg : g.Borrows → ¬g.Introduces := And.left
  rw [check_eq_ok_iff_introduces_or_borrows, check_eq_ok_iff_introduces_or_borrows]
  tauto

/-- The stack variable that is produced has the name of the type variable that is consumed; when it
is renamed, nothing introduces it. -/
theorem check_agrees_iff_shared_name :
    let f : Signature := ⟨[.var ⟨.type, "a"⟩], [.var ⟨.stack, "a"⟩], false⟩
    let g : Signature := ⟨[.var ⟨.type, "a"⟩], [.var ⟨.stack, "b"⟩], false⟩
    f.kind.equivalent g.kind = true ∧ ¬(f.check = .ok () ↔ g.check = .ok ()) := by
  intro f g
  have heq : f.kind.equivalent g.kind = true := by decide
  refine ⟨heq, fun hagree => ?_⟩
  have hborrows := (check_agrees_iff f g heq).mp hagree
  revert hborrows
  decide

/-- The verdict depends on the names of variables. -/
theorem exists_equivalent_check_ne : ¬∀ f g : Signature, f.kind.equivalent g.kind = true →
    (f.check = .ok () ↔ g.check = .ok ()) := by
  intro h
  have hagree := h ⟨[.var ⟨.type, "a"⟩], [.var ⟨.stack, "a"⟩], false⟩
    ⟨[.var ⟨.type, "a"⟩], [.var ⟨.stack, "b"⟩], false⟩ (by decide)
  rw [check_eq_ok_iff, check_eq_ok_iff] at hagree
  revert hagree
  decide

end Signature

end Concatenative
