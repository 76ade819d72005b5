import Concatenative.Proofs.Equivalence
import Concatenative.Proofs.Escape
import Concatenative.Proofs.Unfolding

/-! Resolution from different supplies of fresh names. Which bindings are followed, which variables
are met and whether a vector is refused does not depend on the supply. Two results differ in the
generated names only; all other names in them are reserved, so they stay apart from these. -/

namespace Concatenative

namespace Substitution

variable {u : Substitution} {naming naming' : Variable → String}

/-- Expansion depends on the names of the unbound variables that are met, and on no others. -/
theorem expand_congr : ∀ {depth : Nat} {path : List Kind} {k : Kind},
    (∀ v ∈ u.met depth path k, naming v = naming' v) →
      u.expand naming depth path k = u.expand naming' depth path k
  | 0, _, _, _ => rfl
  | depth + 1, path, k, h => by
    by_cases hpath : k ∈ path
    · rw [expand_of_mem hpath, expand_of_mem hpath]
    · cases hk : u.unbound? k with
      | some v =>
        obtain ⟨rfl, hfind⟩ := unbound?_eq_some_iff.mp hk
        rw [expand_unbound hpath hfind, expand_unbound hpath hfind,
          h v (by simp [met_unbound hpath hk])]
      | none =>
        rw [met_successors hpath hk] at h
        have ih : ∀ k' ∈ u.successors k,
            u.expand naming depth (k :: path) k' = u.expand naming' depth (k :: path) k' :=
          fun k' hk' => expand_congr fun v hv => h v (List.mem_flatMap.mpr ⟨k', hk', hv⟩)
        cases k with
        | self => rw [expand_self, expand_self]
        | named name => rw [expand_named, expand_named]
        | var v =>
          cases hfind : u.find? v.name with
          | none => simp [unbound?, hfind] at hk
          | some binding =>
            rw [expand_bound hpath hfind, expand_bound hpath hfind]
            exact ih binding (by simp [successors, hfind])
        | function c p e =>
          rw [expand_function hpath, expand_function hpath]
          exact congrArg₂ (Kind.function · · e)
            (List.map_congr_left fun k hk => ih k (List.mem_append_left p hk))
            (List.map_congr_left fun k hk => ih k (List.mem_append_right c hk))
        | vector items =>
          rw [expand_vector hpath, expand_vector hpath]
          exact congrArg Kind.vector (List.map_congr_left ih)

/-- A vector is refused whatever has been renamed before. -/
theorem resolveOuter_error (reserved : List String) : ∀ {depth : Nat} {path : List Kind} {k : Kind}
    {p : Progress} (p' : Progress) {e : BareVector},
    (u.resolveOuter reserved depth path k p).1 = .error e →
      (u.resolveOuter reserved depth path k p').1 = .error e
  | 0, _, _, _, _, _, h => by cases h
  | depth + 1, path, k, p, p', e, h => by
    unfold resolveOuter at h ⊢
    by_cases hpath : k ∈ path
    · rw [if_pos hpath] at h
      cases h
    · rw [if_neg hpath] at h ⊢
      cases k with
      | var v =>
        cases hfind : u.find? v.name with
        | none =>
          simp only [hfind] at h
          cases h
        | some binding =>
          simp only [hfind] at h ⊢
          exact resolveOuter_error reserved _ h
      | vector items => exact h
      | self | named _ | function _ _ _ => cases h

end Substitution

namespace Progress

variable {reserved : List String} {p p' : Progress}

/-- The name that the second run has given where the first one has generated a variable; other names
stay. -/
def carryOver (p p' : Progress) (x : Variable) : String :=
  if p.Generated x then p'.naming ⟨x.sort, p.original x⟩ else x.name

theorem Sound.carryOver_generated (h : p.Sound reserved) {v : Variable} {name : String}
    (hmem : (v, name) ∈ p.renamed) : p.carryOver p' ⟨v.sort, name⟩ = p'.naming v := by
  have hgenerated : p.Generated ⟨v.sort, name⟩ := ⟨_, hmem, rfl, rfl⟩
  rw [carryOver, if_pos hgenerated, h.original_generated hmem]

theorem Sound.carryOver_reserved (h : p.Sound reserved) {x : Variable} (hx : x.name ∈ reserved) :
    p.carryOver p' x = x.name := by
  have hnot : ¬p.Generated x := by
    rintro ⟨entry, hmem, -, hname⟩
    exact h.free _ (List.mem_map_of_mem hmem) (hname ▸ hx)
  rw [carryOver, if_neg hnot]

end Progress

namespace Substitution

variable {u : Substitution}

/-- Carrying over the names of one run to those of another gives the other run's result. -/
theorem rename_carryOver {k r r' : Kind} {names names' : NameSupply}
    (h : (u.resolve k names).1 = .ok r) (h' : (u.resolve k names').1 = .ok r') :
    r.rename ((u.resolve k names).2.carryOver (u.resolve k names').2) = r' := by
  obtain ⟨hsound, hmet, hr⟩ := eq_expand_of_resolve h
  obtain ⟨-, -, hr'⟩ := eq_expand_of_resolve h'
  generalize (u.resolve k names).2 = p at *
  generalize (u.resolve k names').2 = p' at *
  let onMet (naming : Variable → String) (v : Variable) : String :=
    if v ∈ u.met (u.depthBound k) [] k then naming v else v.name
  have honMet : ∀ naming, u.expand naming (u.depthBound k) [] k =
      u.expand (onMet naming) (u.depthBound k) [] k :=
    fun naming => expand_congr fun v hv => (if_pos hv).symm
  rw [hr, hr', honMet p.naming, honMet p'.naming]
  refine rename_expand (fun v hv => ⟨hsound.carryOver_reserved hv, ?_⟩)
    (u.names_subset_reserved k) _ _ k u.name_mem_reserved
  by_cases hv' : v ∈ u.met (u.depthBound k) [] k
  · simp only [onMet, if_pos hv']
    exact hsound.carryOver_generated (hmet v hv')
  · simp only [onMet, if_neg hv']
    exact hsound.carryOver_reserved hv

end Substitution

namespace Session

open Substitution

/-- Sessions that differ in their supplies of names refuse the same kinds for the same vector, and
resolve all others to equivalent kinds. -/
theorem normalize_any_supply (session session' : Session) (k : Kind) (u : Substitution) :
    (∃ e, (session.normalize k u).value.1 = .error e ∧
      (session'.normalize k u).value.1 = .error e) ∨
    ∃ r r', (session.normalize k u).value.1 = .ok r ∧ (session'.normalize k u).value.1 = .ok r' ∧
      r.equivalent r' = true := by
  have herror : ∀ names names' e, (u.resolve k names).1 = .error e →
      (u.resolve k names').1 = .error e := fun _ _ _ h => resolveOuter_error _ _ h
  cases h : (u.resolve k session.names).1 with
  | error e => exact .inl ⟨e, h, herror _ _ e h⟩
  | ok r =>
    cases h' : (u.resolve k session'.names).1 with
    | error e =>
      rw [herror _ session.names e h'] at h
      cases h
    | ok r' =>
      have hforth := rename_carryOver h h'
      have hback := rename_carryOver h' h
      rw [← hforth] at hback
      refine .inr ⟨r, r', h, h', Kind.equivalent_iff_renamesTo.mpr ⟨_, ?_, hforth⟩⟩
      exact Kind.keepsApart_of_rename_rename hback

end Session

end Concatenative
