import Concatenative.Proofs.Resolution

/-! Which unbound variables resolution lets through under their own names: those of the kinds that
it meets again while they are in progress, for it leaves such a kind as it is. -/

namespace Concatenative

/-- A variable that was made in place of an unbound one. -/
def Progress.Generated (p : Progress) (x : Variable) : Prop :=
  ∃ entry ∈ p.renamed, entry.1.sort = x.sort ∧ entry.2 = x.name

instance (p : Progress) (x : Variable) : Decidable (p.Generated x) :=
  inferInstanceAs (Decidable (∃ entry ∈ p.renamed, entry.1.sort = x.sort ∧ entry.2 = x.name))

namespace Substitution

variable {u : Substitution} {root : Kind} {naming : Variable → String}

/-- Resolution comes back to a kind in progress that has the variable in it. -/
def Revisits (u : Substitution) (root : Kind) (x : Variable) : Prop :=
  ∃ path k, u.Descent root path k ∧ k ∈ path ∧ x ∈ k.variables

/-- A variable of an expansion is the new name of an unbound variable, or it stands in a kind that
was left as it is. -/
theorem met_or_revisits_of_mem_expand {x : Variable} :
    ∀ {depth : Nat} {path : List Kind} {k : Kind}, u.Visit root depth path k →
      x ∈ (u.expand naming depth path k).variables →
      (∃ v ∈ u.met depth path k, x = ⟨v.sort, naming v⟩) ∨ u.Revisits root x
  | 0, _, _, h, _ => absurd rfl h.depth_ne_zero
  | depth + 1, path, k, h, hx => by
    by_cases hpath : k ∈ path
    · rw [expand_of_mem hpath] at hx
      exact .inr ⟨path, k, h.descent, hpath, hx⟩
    · cases hk : u.unbound? k with
      | some v =>
        obtain ⟨rfl, hfind⟩ := unbound?_eq_some_iff.mp hk
        rw [expand_unbound hpath hfind, Kind.variables, List.mem_singleton] at hx
        exact .inl ⟨v, by simp [met_unbound hpath hk], hx⟩
      | none =>
        rw [variables_expand_successors hpath hk] at hx
        obtain ⟨k', hk', hx⟩ := List.mem_flatMap.mp hx
        refine (met_or_revisits_of_mem_expand (h.step hpath hk') hx).imp_left ?_
        rintro ⟨v, hv, heq⟩
        refine ⟨v, ?_, heq⟩
        rw [met_successors hpath hk]
        exact List.mem_flatMap.mpr ⟨k', hk', hv⟩

/-- The result has all variables of what resolution makes of any kind that it comes to. -/
theorem variables_expand_subset {path : List Kind} {k : Kind} (h : u.Descent root path k) :
    (u.expand naming (u.depthBound root - path.length) path k).variables ⊆
      (u.expand naming (u.depthBound root) [] root).variables := by
  induction h with
  | root => exact fun _ hx => hx
  | @step path k k' hdescent hpath hk' ih =>
    have hlt := hdescent.length_lt
    have hdepth : u.depthBound root - path.length =
        (u.depthBound root - (k :: path).length) + 1 := by
      rw [List.length_cons]
      omega
    have hk : u.unbound? k = none := by
      rw [Option.eq_none_iff_forall_ne_some]
      intro v hv
      obtain ⟨rfl, hfind⟩ := unbound?_eq_some_iff.mp hv
      simp [successors, hfind] at hk'
    rw [hdepth, variables_expand_successors hpath hk] at ih
    exact fun x hx => ih (List.mem_flatMap.mpr ⟨k', hk', hx⟩)

/-- The names in kinds that resolution comes to are reserved. -/
theorem Descent.name_mem_reserved {path : List Kind} {k : Kind} (h : u.Descent root path k) :
    ∀ v ∈ k.variables, v.name ∈ u.reserved root := by
  induction h with
  | root => exact u.name_mem_reserved
  | step _ _ hk' ih =>
    rcases mem_successors.mp hk' with hentry | ⟨w, rfl, hfind⟩
    · exact fun v hv => ih v (Kind.variables_subset_of_mem_entries hentry hv)
    · exact fun v hv => u.names_subset_reserved root ((mem_names_of_find? hfind).2 v hv)

end Substitution

namespace Session

/-- An unbound variable is left in a resolved kind, under its own name, exactly if resolution comes
back to a kind in progress that has the variable in it. -/
theorem escapes_iff_revisits (session : Session) (k : Kind) (u : Substitution) (r : Kind)
    (x : Variable) (h : (session.normalize k u).value.1 = .ok r) :
    (x ∈ r.variables ∧ u.find? x.name = none ∧ ¬(u.resolve k session.names).2.Generated x) ↔
      u.find? x.name = none ∧ u.Revisits k x := by
  obtain ⟨hsound, hmet, hr⟩ := Substitution.eq_expand_of_resolve h
  constructor
  · rintro ⟨hx, hfind, hnot⟩
    rw [hr] at hx
    rcases Substitution.met_or_revisits_of_mem_expand (.start u k) hx with ⟨v, hv, rfl⟩ | hrevisits
    · exact absurd ⟨_, hmet v hv, rfl, rfl⟩ hnot
    · exact ⟨hfind, hrevisits⟩
  · rintro ⟨hfind, path, j, hdescent, hj, hx⟩
    refine ⟨?_, hfind, ?_⟩
    · rw [hr]
      refine Substitution.variables_expand_subset hdescent ?_
      rwa [Substitution.expand_of_mem hj]
    · rintro ⟨entry, hmem, -, hname⟩
      exact hsound.free _ (List.mem_map_of_mem hmem) (hname ▸ hdescent.name_mem_reserved x hx)

/-- The production of the function leads back to the function, which has `b` in it. -/
theorem escapes_iff_revisits_recursive :
    let k : Kind := .function [.var ⟨.type, "b"⟩] [.var ⟨.type, "a"⟩] false
    let u : Substitution := ⟨[("a", k)]⟩
    (({} : Session).normalize k u).value.1 =
        .ok (.function [.var ⟨.type, "b$0"⟩] [k] false) ∧ u.Revisits k ⟨.type, "b"⟩ := by
  intro k u
  have hok : (({} : Session).normalize k u).value.1 =
      .ok (.function [.var ⟨.type, "b$0"⟩] [k] false) := rfl
  exact ⟨hok, ((escapes_iff_revisits {} k u _ ⟨.type, "b"⟩ hok).mp (by decide +revert)).2⟩

/-- Not every variable of a resolved kind is bound or generated. -/
theorem exists_escape : ¬∀ (session : Session) (k : Kind) (u : Substitution) (r : Kind),
    (session.normalize k u).value.1 = .ok r → ∀ x ∈ r.variables,
      (u.find? x.name).isSome ∨ (u.resolve k session.names).2.Generated x := by
  intro h
  let k : Kind := .function [.var ⟨.type, "b"⟩] [.var ⟨.type, "a"⟩] false
  have hescape := h {} k ⟨[("a", k)]⟩ (.function [.var ⟨.type, "b$0"⟩] [k] false) rfl ⟨.type, "b"⟩
    (by simp [k, Kind.variables, Shape.variables])
  revert hescape
  decide

end Session

end Concatenative
