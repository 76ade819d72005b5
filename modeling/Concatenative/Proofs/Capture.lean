import Concatenative.Proofs.DistinctNames
import Concatenative.Proofs.Equivalence

/-! Opening a closed signature. The stack variable that is put under both shapes has the next name
of the session, and nothing is asked about the names that the signature has already. Names that the
session has generated before are safe, and so are names without a dollar sign; a name that comes
from elsewhere may be the next one, and then the new variable is captured: the slots that it stands
for are tied to a part of the signature that they have nothing to do with. -/

namespace Concatenative

theorem dollar_mem_generatedName (stem : String) (number : Nat) :
    '$' ∈ (generatedName stem number).toList := by
  simp [generatedName]

namespace NameSupply

/-- A supply has passed the numbers of the names that were drawn up to it. -/
theorem Draws.generatedName_not_mem {names rest : NameSupply} {drawn : List String}
    (h : names.Draws drawn rest) (stem : String) : generatedName stem rest.next ∉ drawn := by
  intro hmem
  obtain ⟨stem', number, heq, -, hlt⟩ := h.numbered _ hmem
  have := number_eq_of_generatedName_eq heq
  omega

end NameSupply

theorem Shape.variables_pushBottom (s : Shape) (k : Kind) :
    (s.pushBottom k).variables = s.variables ++ k.variables := by
  simp [Shape.pushBottom, Shape.variables_eq_flatMap]

namespace Signature

/-- A variable of the signature has that name, whatever its sort and depth. -/
def Mentions (f : Signature) (name : String) : Prop := ∃ v ∈ f.kind.variables, v.name = name

/-- The signature with a stack variable under both shapes. -/
def withRest (f : Signature) (name : String) : Signature :=
  { f with
    consumption := f.consumption.pushBottom (.var ⟨.stack, name⟩)
    production := f.production.pushBottom (.var ⟨.stack, name⟩) }

variable {f : Signature} {name free : String}

theorem opened_of_closed (h : f.consumption.isOpen = false) (names : NameSupply) :
    f.opened names = (f.withRest (generatedName "a" names.next), ⟨names.next + 1⟩) := by
  simp only [opened, h]
  rfl

theorem mem_variables_withRest {v : Variable} :
    v ∈ (f.withRest name).kind.variables ↔ v ∈ f.kind.variables ∨ v = ⟨.stack, name⟩ := by
  simp only [kind, withRest, Kind.variables, Shape.variables_pushBottom, List.mem_append,
    List.mem_singleton]
  tauto

theorem rename_withRest_eq_iff {g : Variable → String} :
    (f.withRest name).kind.rename g = (f.withRest free).kind ↔
      f.kind.rename g = f.kind ∧ g ⟨.stack, name⟩ = free := by
  simp only [kind, withRest, Shape.pushBottom, Kind.rename_function, List.map_append, List.map_cons,
    List.map_nil, Kind.rename, Kind.function.injEq, List.append_singleton_inj, Kind.var.injEq,
    Variable.mk.injEq]
  tauto

/-- A stack variable that is put under both shapes means the same as any other that the signature
does not have, unless the signature has it. -/
theorem withRest_equivalent_iff (hfree : ⟨.stack, free⟩ ∉ f.kind.variables) :
    (f.withRest name).kind.equivalent (f.withRest free).kind = true ↔
      ⟨.stack, name⟩ ∉ f.kind.variables := by
  rw [Kind.equivalent_iff_renamesTo]
  constructor
  · rintro ⟨g, -, hg⟩ hname
    obtain ⟨hself, hg⟩ := rename_withRest_eq_iff.mp hg
    have hsame : g ⟨.stack, name⟩ = name := Kind.name_eq_of_rename_eq_self hself _ hname
    exact hfree (hg.symm.trans hsame ▸ hname)
  · intro hname
    let g (v : Variable) : String := if v = ⟨.stack, name⟩ then free else v.name
    have hnew : g ⟨.stack, name⟩ = free := if_pos rfl
    have hkept : ∀ v ∈ f.kind.variables, g v = v.name := by
      intro v hv
      exact if_neg fun heq : v = ⟨.stack, name⟩ => hname (heq ▸ hv)
    have happart : ∀ v ∈ f.kind.variables, v.sort = .stack → g v ≠ free := by
      rintro ⟨sort, name'⟩ hv rfl heq
      rw [hkept _ hv] at heq
      exact hfree (heq ▸ hv)
    refine ⟨g, ?_, rename_withRest_eq_iff.mpr ⟨?_, hnew⟩⟩
    · intro v hv w hw hsort heq
      rcases mem_variables_withRest.mp hv with hv | rfl <;>
        rcases mem_variables_withRest.mp hw with hw | rfl
      · rw [hkept v hv, hkept w hw] at heq
        exact Variable.ext hsort heq
      · exact absurd (heq.trans hnew) (happart v hv hsort)
      · exact absurd (heq.symm.trans hnew) (happart w hw hsort.symm)
      · rfl
    · rw [Kind.rename_congr hkept, Kind.rename_name]

end Signature

namespace Session

/-- The variable that is put under a closed signature has the next name of the session. No variable
of the signature has that name, of either sort and at any depth, if all their names lack a dollar
sign or have been generated earlier in the session. The result is the one that any unused name would
give, up to names, exactly if no stack variable has the name. -/
theorem openSignature_captures_iff (session : Session) (requests : List Request) (f : Signature)
    (hclosed : f.consumption.isOpen = false) :
    ∃ name, ((session.afterAll requests).openSignature f).1 = f.withRest name ∧
      name = generatedName "a" (session.afterAll requests).names.next ∧
      ((∀ v ∈ f.kind.variables, '$' ∉ v.name.toList ∨
          v.name ∈ (session.history requests).flatMap fun entry => entry.1.generated entry.2) →
        ¬f.Mentions name) ∧
      ∀ free, ¬f.Mentions free →
        ((f.withRest name).kind.equivalent (f.withRest free).kind = true ↔
          ⟨.stack, name⟩ ∉ f.kind.variables) := by
  have hopened := Signature.opened_of_closed hclosed (session.afterAll requests).names
  refine ⟨_, congrArg Prod.fst hopened, rfl, ?_, ?_⟩
  · rintro hknown ⟨v, hv, hname⟩
    rcases hknown v hv with hplain | hgenerated
    · exact hplain (hname ▸ dollar_mem_generatedName _ _)
    · exact (session.draws_afterAll requests).generatedName_not_mem "a" (hname ▸ hgenerated)
  · intro free hfree
    exact Signature.withRest_equivalent_iff fun hmem => hfree ⟨_, hmem, rfl⟩

/-- A name that one session has generated is safe there and captures in another session, where it
has not been generated yet. -/
theorem openSignature_captures_iff_sessions :
    let f : Signature := ⟨[.function [.var ⟨.stack, "a$0"⟩] [] false], [], false⟩
    f.consumption.isOpen = false ∧
    (∃ name, ((({} : Session).afterAll [.fresh "a"]).openSignature f).1 = f.withRest name ∧
      ¬f.Mentions name) ∧
    ∃ name, (({} : Session).openSignature f).1 = f.withRest name ∧ f.Mentions name ∧
      (f.withRest name).kind.equivalent (f.withRest "b").kind = false := by
  intro f
  have hclosed : f.consumption.isOpen = false := rfl
  have hvariables : f.kind.variables = [⟨.stack, "a$0"⟩] := rfl
  obtain ⟨name, hopened, -, hsafe, -⟩ := openSignature_captures_iff {} [.fresh "a"] f hclosed
  obtain ⟨name', hopened', hnext, -, hequivalent⟩ := openSignature_captures_iff {} [] f hclosed
  have hmentions : f.Mentions name' := by
    rw [hnext]
    exact ⟨⟨.stack, "a$0"⟩, by simp [hvariables], by decide⟩
  refine ⟨hclosed, ⟨name, hopened, hsafe ?_⟩, name', hopened', hmentions, ?_⟩
  · rw [hvariables]
    decide
  · obtain ⟨v, hv, rfl⟩ := hmentions
    have hunused : ¬f.Mentions "b" := by
      simp [Signature.Mentions, hvariables]
    rw [← Bool.not_eq_true, hequivalent "b" hunused]
    rw [hvariables] at hv ⊢
    obtain rfl := List.mem_singleton.mp hv
    simp

/-- Not every variable that is put under a closed signature is new to it. -/
theorem exists_captured : ¬∀ (session : Session) (f : Signature) (name : String),
    f.consumption.isOpen = false → (session.openSignature f).1 = f.withRest name →
      ¬f.Mentions name := by
  intro h
  let f : Signature := ⟨[.function [.var ⟨.stack, "a$0"⟩] [] false], [], false⟩
  have hopened : (({} : Session).openSignature f).1 = f.withRest "a$0" := by decide
  exact h {} f "a$0" rfl hopened ⟨⟨.stack, "a$0"⟩, by decide, rfl⟩

end Session

end Concatenative
