import Concatenative.Proofs.FreshNames
import Concatenative.Proofs.Renaming
import Mathlib.Data.Set.Function

/-! Kinds are equivalent exactly if one is the other with its variables renamed. Renamings that keep
the variables of each sort apart can be undone and put one after another, and the canonical form is
made by one of them. -/

namespace Concatenative

attribute [ext] Variable

instance : Nonempty Variable := ⟨⟨.type, ""⟩⟩

namespace Kind

theorem keepsApart_iff_injOn {f : Variable → String} {k : Kind} : KeepsApart f k ↔
    ∀ sort, Set.InjOn (fun name => f ⟨sort, name⟩) {name | ⟨sort, name⟩ ∈ k.variables} := by
  constructor
  · intro h sort name hname name' hname' heq
    exact congrArg Variable.name (h _ hname _ hname' rfl heq)
  · rintro h ⟨sort, name⟩ hv ⟨sort', name'⟩ hw hsort heq
    obtain rfl : sort = sort' := hsort
    exact congrArg (Variable.mk sort) (h sort hv hw heq)

theorem name_eq_of_rename_eq_self {k : Kind} {g : Variable → String} (h : k.rename g = k) :
    ∀ v ∈ k.variables, g v = v.name := by
  intro v hv
  have hvariables := congrArg Kind.variables h
  rw [variables_rename] at hvariables
  have hself := List.map_inj_left.mp (hvariables.trans (List.map_id _).symm) v hv
  exact congrArg Variable.name hself

/-- A renaming that can be undone keeps variables apart. -/
theorem keepsApart_of_rename_rename {f g : Variable → String} {k : Kind}
    (h : (k.rename f).rename g = k) : KeepsApart f k := by
  rw [rename_rename] at h
  have hback := name_eq_of_rename_eq_self h
  intro v hv w hw hsort heq
  have hrenamed : Variable.mk v.sort (f v) = ⟨w.sort, f w⟩ := by rw [hsort, heq]
  have hname : v.name = w.name := calc
    v.name = g ⟨v.sort, f v⟩ := (hback v hv).symm
    _ = g ⟨w.sort, f w⟩ := by rw [hrenamed]
    _ = w.name := hback w hw
  exact Variable.ext hsort hname

/-- The second kind is the first one with its variables renamed. -/
def RenamesTo (a b : Kind) : Prop := ∃ f, KeepsApart f a ∧ a.rename f = b

theorem RenamesTo.symm {a b : Kind} (h : a.RenamesTo b) : b.RenamesTo a := by
  obtain ⟨f, hf, rfl⟩ := h
  let rename (v : Variable) : Variable := { v with name := f v }
  have hinj : Set.InjOn rename {v | v ∈ a.variables} := fun v hv w hw heq =>
    hf v hv w hw (Variable.mk.inj heq).1 (Variable.mk.inj heq).2
  let back (x : Variable) : String := (Function.invFunOn rename {v | v ∈ a.variables} x).name
  have hback : ∀ v ∈ a.variables, back (rename v) = v.name := fun v hv =>
    congrArg Variable.name (hinj.leftInvOn_invFunOn hv)
  refine ⟨back, ?_, ?_⟩
  · intro x hx y hy hsort heq
    rw [variables_rename] at hx hy
    obtain ⟨v, hv, rfl⟩ := List.mem_map.mp hx
    obtain ⟨w, hw, rfl⟩ := List.mem_map.mp hy
    have hname : v.name = w.name := by rw [← hback v hv, ← hback w hw, heq]
    have hvw : v = w := Variable.ext hsort hname
    rw [hvw]
  · rw [rename_rename, rename_congr hback, rename_name]

theorem RenamesTo.trans {a b c : Kind} (hab : a.RenamesTo b) (hbc : b.RenamesTo c) :
    a.RenamesTo c := by
  obtain ⟨f, hf, rfl⟩ := hab
  obtain ⟨g, hg, rfl⟩ := hbc
  refine ⟨fun v => g { v with name := f v }, fun v hv w hw hsort heq => ?_, (rename_rename ..).symm⟩
  have hmem : ∀ u ∈ a.variables, { u with name := f u } ∈ (a.rename f).variables := by
    intro u hu
    rw [variables_rename]
    exact List.mem_map_of_mem (f := fun v => { v with name := f v }) hu
  have hfeq := hg _ (hmem v hv) _ (hmem w hw) hsort heq
  exact hf v hv w hw hsort (congrArg Variable.name hfeq)

/-- Variables of one sort have different numbers. -/
theorem renamesTo_canonical (k : Kind) : k.RenamesTo k.canonical := by
  refine ⟨_, ?_, (canonical_eq k).symm⟩
  rintro ⟨sort, name⟩ hv ⟨sort', name'⟩ - hsort heq
  obtain rfl : sort = sort' := hsort
  have hnumber : (k.namesOf sort).idxOf name = (k.namesOf sort).idxOf name' :=
    eq_of_digits_eq (by simpa using congrArg String.toList heq)
  exact congrArg (Variable.mk sort) ((List.idxOf_inj (mem_namesOf.mpr hv)).mp hnumber)

theorem equivalent_iff_renamesTo {a b : Kind} : a.equivalent b = true ↔ a.RenamesTo b := by
  constructor
  · intro h
    have hcanonical : a.canonical = b.canonical := of_decide_eq_true h
    exact (hcanonical ▸ renamesTo_canonical a).trans (renamesTo_canonical b).symm
  · rintro ⟨f, hf, rfl⟩
    exact hf.equivalent_rename

/-- Kinds are equivalent exactly if renaming the type variables and the stack variables of one, each
sort injectively, gives the other; a kind's canonical form is equivalent to it. -/
theorem equivalent_iff_exists_rename (a b : Kind) :
    (a.equivalent b = true ↔ ∃ f : VarSort → String → String,
      (∀ sort, Set.InjOn (f sort) {name | ⟨sort, name⟩ ∈ a.variables}) ∧
        a.rename (fun v => f v.sort v.name) = b) ∧
    a.canonical.equivalent a = true := by
  refine ⟨?_, equivalent_iff_renamesTo.mpr (renamesTo_canonical a).symm⟩
  rw [equivalent_iff_renamesTo]
  constructor
  · rintro ⟨f, hf, rfl⟩
    exact ⟨fun sort name => f ⟨sort, name⟩, keepsApart_iff_injOn.mp hf, rfl⟩
  · rintro ⟨f, hf, rfl⟩
    exact ⟨fun v => f v.sort v.name, keepsApart_iff_injOn.mpr hf, rfl⟩

/-- One name stands for two variables, and canonical names are in use already. -/
example :
    let a : Kind := .function [.var ⟨.type, "a"⟩] [.var ⟨.stack, "a"⟩, .var ⟨.type, "t0"⟩] false
    let b : Kind := .function [.var ⟨.type, "t1"⟩] [.var ⟨.stack, "t1"⟩, .var ⟨.type, "s0"⟩] false
    a.equivalent b = true := by
  decide

end Kind

end Concatenative
