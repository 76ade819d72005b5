import Concatenative.Proofs.Resolution
import Mathlib.Logic.Function.Iterate

/-! Substitutions in which no name leads back to itself. There the bound variables of a kind can be
replaced until none is left, resolution never meets a kind in progress, and its result is the kind
with all bound variables replaced and the others renamed. -/

namespace Concatenative

mutual

/-- Replaces every bound variable by its binding, once. -/
def Kind.instantiate (u : Substitution) : Kind → Kind
  | .self => .self
  | .named name => .named name
  | .var v => (u.find? v.name).getD (.var v)
  | .function c p e => .function (Shape.instantiate u c) (Shape.instantiate u p) e
  | .vector items => .vector (Shape.instantiate u items)

def Shape.instantiate (u : Substitution) : Shape → Shape
  | [] => []
  | k :: ks => Kind.instantiate u k :: Shape.instantiate u ks

end

theorem Shape.instantiate_eq_map (u : Substitution) (ks : Shape) :
    ks.instantiate u = ks.map (·.instantiate u) := by
  induction ks with
  | nil => rfl
  | cons k ks ih => rw [Shape.instantiate, ih, List.map_cons]

namespace Kind

theorem instantiate_function (u : Substitution) (c p : Shape) (e : Bool) :
    (Kind.function c p e).instantiate u =
      .function (c.map (·.instantiate u)) (p.map (·.instantiate u)) e := by
  rw [Kind.instantiate, Shape.instantiate_eq_map, Shape.instantiate_eq_map]

theorem instantiate_vector (u : Substitution) (items : Shape) :
    (Kind.vector items).instantiate u = .vector (items.map (·.instantiate u)) := by
  rw [Kind.instantiate, Shape.instantiate_eq_map]

theorem variables_instantiate (u : Substitution) (k : Kind) : (k.instantiate u).variables =
    k.variables.flatMap fun v => ((Kind.var v).instantiate u).variables := by
  induction k using Kind.induction with
  | self | named _ => rfl
  | var v => simp [Kind.variables]
  | function c p e hc hp =>
    rw [instantiate_function, variables_function, variables_function, ← List.map_append,
      List.flatMap_map, List.flatMap_assoc]
    exact List.flatMap_congr fun k hk => (List.mem_append.mp hk).elim (hc k) (hp k)
  | vector items hitems =>
    rw [instantiate_vector, variables_vector, variables_vector, List.flatMap_map,
      List.flatMap_assoc]
    exact List.flatMap_congr hitems

theorem instantiate_eq_self {u : Substitution} {k : Kind}
    (h : ∀ v ∈ k.variables, u.find? v.name = none) : k.instantiate u = k := by
  induction k using Kind.induction with
  | self | named _ => rfl
  | var v => simp [Kind.instantiate, h v (by simp [Kind.variables])]
  | function c p e hc hp =>
    simp only [variables_function, List.mem_flatMap, List.mem_append] at h
    rw [instantiate_function, List.map_congr_left fun k hk => hc k hk fun v hv =>
        h v ⟨k, .inl hk, hv⟩, List.map_congr_left fun k hk => hp k hk fun v hv =>
        h v ⟨k, .inr hk, hv⟩, List.map_id', List.map_id']
  | vector items hitems =>
    simp only [variables_vector, List.mem_flatMap] at h
    rw [instantiate_vector, List.map_congr_left fun k hk => hitems k hk fun v hv =>
        h v ⟨k, hk, hv⟩, List.map_id']

end Kind

namespace Substitution

variable {u : Substitution}

/-- The binding of the first name has a variable of the second in it. -/
def Mentions (u : Substitution) (name name' : String) : Prop :=
  ∃ binding, u.find? name = some binding ∧ ∃ v ∈ binding.variables, v.name = name'

/-- No name leads back to itself. -/
def Acyclic (u : Substitution) : Prop := ∀ name, ¬Relation.TransGen u.Mentions name name

/-- The kind after as many rounds of replacement as there are bindings. -/
def exhaust (u : Substitution) (k : Kind) : Kind := (Kind.instantiate u)^[u.bindings.length] k

/-- A bound variable that is left after `n` rounds has come from `n` names that lead to it. -/
theorem Acyclic.exists_chain (hu : u.Acyclic) (k : Kind) : ∀ (n : Nat) (v : Variable),
    v ∈ ((Kind.instantiate u)^[n] k).variables → u.find? v.name ≠ none →
    ∃ names : List String, names.length = n ∧ names.Nodup ∧
      ∀ name ∈ names, u.find? name ≠ none ∧ Relation.TransGen u.Mentions name v.name
  | 0, _, _, _ => ⟨[], rfl, List.nodup_nil, by simp⟩
  | n + 1, v, hv, hbound => by
    rw [Function.iterate_succ_apply', Kind.variables_instantiate] at hv
    obtain ⟨w, hw, hv⟩ := List.mem_flatMap.mp hv
    rw [Kind.instantiate] at hv
    cases hfind : u.find? w.name with
    | none =>
      obtain rfl : v = w := by simpa [hfind, Kind.variables] using hv
      exact absurd hfind hbound
    | some binding =>
      rw [hfind, Option.getD_some] at hv
      have hmentions : u.Mentions w.name v.name := ⟨binding, hfind, v, hv, rfl⟩
      obtain ⟨names, hlength, hnodup, hnames⟩ := hu.exists_chain k n w hw (by simp [hfind])
      have hnew : w.name ∉ names := fun hmem => hu w.name (hnames _ hmem).2
      refine ⟨w.name :: names, by simp [hlength], List.nodup_cons.mpr ⟨hnew, hnodup⟩, ?_⟩
      refine List.forall_mem_cons.mpr ⟨⟨by simp [hfind], .single hmentions⟩, fun name hname => ?_⟩
      exact ⟨(hnames name hname).1, (hnames name hname).2.tail hmentions⟩

/-- As many rounds as there are bindings leave no bound variable. -/
theorem Acyclic.find?_eq_none (hu : u.Acyclic) {k : Kind} {n : Nat} (hn : u.bindings.length ≤ n) :
    ∀ v ∈ ((Kind.instantiate u)^[n] k).variables, u.find? v.name = none := by
  intro v hv
  by_contra hbound
  obtain ⟨names, hlength, hnodup, hnames⟩ := hu.exists_chain k n v hv hbound
  have hnew : v.name ∉ names := fun hmem => hu v.name (hnames _ hmem).2
  have hkey : ∀ name, u.find? name ≠ none → name ∈ u.bindings.map (·.1) := by
    intro name hname
    obtain ⟨binding, hbinding⟩ := Option.ne_none_iff_exists'.mp hname
    exact List.mem_map_of_mem (mem_bindings_of_find? hbinding)
  have hsubset : v.name :: names ⊆ u.bindings.map (·.1) :=
    List.cons_subset.mpr ⟨hkey _ hbound, fun name hname => hkey _ (hnames name hname).1⟩
  have hle := (List.nodup_cons.mpr ⟨hnew, hnodup⟩).length_le_of_subset hsubset
  rw [List.length_map, List.length_cons] at hle
  omega

section Exhaust

theorem iterate_instantiate_function (n : Nat) (c p : Shape) (e : Bool) :
    (Kind.instantiate u)^[n] (.function c p e) =
      .function (c.map (Kind.instantiate u)^[n]) (p.map (Kind.instantiate u)^[n]) e := by
  induction n generalizing c p with
  | zero => simp
  | succ n ih =>
    rw [Function.iterate_succ_apply, Kind.instantiate_function, ih, List.map_map, List.map_map,
      Function.iterate_succ]

theorem iterate_instantiate_vector (n : Nat) (items : Shape) :
    (Kind.instantiate u)^[n] (.vector items) = .vector (items.map (Kind.instantiate u)^[n]) := by
  induction n generalizing items with
  | zero => simp
  | succ n ih =>
    rw [Function.iterate_succ_apply, Kind.instantiate_vector, ih, List.map_map,
      Function.iterate_succ]

theorem exhaust_eq_self {k : Kind} (h : ∀ v ∈ k.variables, u.find? v.name = none) :
    u.exhaust k = k :=
  Function.iterate_fixed (Kind.instantiate_eq_self h) _

theorem exhaust_function (c p : Shape) (e : Bool) :
    u.exhaust (.function c p e) = .function (c.map u.exhaust) (p.map u.exhaust) e :=
  iterate_instantiate_function _ c p e

theorem exhaust_vector (items : Shape) :
    u.exhaust (.vector items) = .vector (items.map u.exhaust) :=
  iterate_instantiate_vector _ items

/-- A bound variable becomes what its binding becomes: it takes one more round to get there, but the
last round has nothing to do. -/
theorem Acyclic.exhaust_bound (hu : u.Acyclic) {v : Variable} {binding : Kind}
    (h : u.find? v.name = some binding) : u.exhaust (.var v) = u.exhaust binding := by
  have hpos := List.length_pos_of_mem (mem_bindings_of_find? h)
  obtain ⟨n, hn⟩ : ∃ n, u.bindings.length = n + 1 := ⟨_, (Nat.succ_pred_eq_of_pos hpos).symm⟩
  have hvar : (Kind.var v).instantiate u = binding := by rw [Kind.instantiate, h, Option.getD_some]
  have hdone : u.exhaust (.var v) = (Kind.instantiate u)^[n] binding := by
    rw [exhaust, hn, Function.iterate_succ_apply, hvar]
  have hnone := hu.find?_eq_none (k := .var v) (Nat.le_refl _)
  rw [← exhaust, hdone] at hnone
  rw [hdone, exhaust, hn, Function.iterate_succ_apply', Kind.instantiate_eq_self hnone]

theorem Acyclic.variables_exhaust_successors (hu : u.Acyclic) {k : Kind}
    (hk : u.unbound? k = none) :
    (u.exhaust k).variables = (u.successors k).flatMap fun k' => (u.exhaust k').variables := by
  cases k with
  | self | named _ =>
    rw [exhaust_eq_self (by simp [Kind.variables])]
    simp [Kind.variables, successors, Kind.entries]
  | var v =>
    cases hfind : u.find? v.name with
    | none => simp [unbound?, hfind] at hk
    | some binding => simp [hu.exhaust_bound hfind, successors, hfind]
  | function c p e =>
    simp only [exhaust_function, Kind.variables_function, ← List.map_append, List.flatMap_map,
      successors, Kind.entries]
  | vector items =>
    simp only [exhaust_vector, Kind.variables_vector, List.flatMap_map, successors, Kind.entries]

end Exhaust

/-- Where a kind leads without a binding on the way it gets smaller; from then on it stays inside of
the bindings of names that its variables lead to. -/
theorem leads_cases {j k : Kind}
    (h : Relation.TransGen (fun k k' => k' ∈ u.successors k) j k) :
    (k.size < j.size ∧ k.variables ⊆ j.variables) ∨
      ∃ v ∈ j.variables, ∃ name binding, Relation.ReflTransGen u.Mentions v.name name ∧
        u.find? name = some binding ∧ k.variables ⊆ binding.variables := by
  induction h with
  | single hk =>
    rcases mem_successors.mp hk with hentry | ⟨v, rfl, hfind⟩
    · exact .inl ⟨Kind.size_lt_of_mem_entries hentry, Kind.variables_subset_of_mem_entries hentry⟩
    · exact .inr ⟨v, by simp [Kind.variables], v.name, _, .refl, hfind, fun _ h => h⟩
  | tail _ hk ih =>
    rcases mem_successors.mp hk with hentry | ⟨w, rfl, hfind⟩
    · have hsize := Kind.size_lt_of_mem_entries hentry
      have hsubset := Kind.variables_subset_of_mem_entries hentry
      rcases ih with ⟨hsmaller, hinside⟩ | ⟨v, hv, name, binding, hleads, hbinding, hinside⟩
      · exact .inl ⟨by omega, fun _ h => hinside (hsubset h)⟩
      · exact .inr ⟨v, hv, name, binding, hleads, hbinding, fun _ h => hinside (hsubset h)⟩
    · have hw : w ∈ (Kind.var w).variables := by simp [Kind.variables]
      rcases ih with ⟨-, hinside⟩ | ⟨v, hv, name, binding, hleads, hbinding, hinside⟩
      · exact .inr ⟨w, hinside hw, w.name, _, .refl, hfind, fun _ h => h⟩
      · have hmentions : u.Mentions name w.name := ⟨binding, hbinding, w, hinside hw, rfl⟩
        exact .inr ⟨v, hv, w.name, _, hleads.tail hmentions, hfind, fun _ h => h⟩

/-- Resolution never meets a kind in progress: one that leads to itself, not being smaller than
itself, would do so through its own variables. -/
theorem Descent.not_mem_of_acyclic {root k : Kind} {path : List Kind} (h : u.Descent root path k)
    (hu : u.Acyclic) : k ∉ path := by
  intro hmem
  rcases leads_cases (h.leads k hmem) with ⟨hsize, -⟩ |
    ⟨v, hv, name, binding, hleads, hbinding, hinside⟩
  · exact Nat.lt_irrefl _ hsize
  · exact hu v.name (Relation.TransGen.tail' hleads ⟨binding, hbinding, v, hinside hv, rfl⟩)

/-- Expansion replaces all bound variables and names the others. -/
theorem Acyclic.expand_eq (hu : u.Acyclic) {root : Kind} (naming : Variable → String) :
    ∀ {depth : Nat} {path : List Kind} {k : Kind}, u.Visit root depth path k →
      u.expand naming depth path k = (u.exhaust k).rename naming
  | 0, _, _, h => absurd rfl h.depth_ne_zero
  | depth + 1, path, k, h => by
    have hpath := h.descent.not_mem_of_acyclic hu
    have ih : ∀ k' ∈ u.successors k,
        u.expand naming depth (k :: path) k' = (u.exhaust k').rename naming :=
      fun k' hk' => hu.expand_eq naming (h.step hpath hk')
    cases k with
    | self | named _ =>
      rw [exhaust_eq_self (by simp [Kind.variables])]
      simp [Kind.rename]
    | var v =>
      cases hfind : u.find? v.name with
      | none =>
        rw [expand_unbound hpath hfind, exhaust_eq_self (by simp [Kind.variables, hfind]),
          Kind.rename]
      | some binding =>
        rw [expand_bound hpath hfind, hu.exhaust_bound hfind]
        exact ih binding (by simp [successors, hfind])
    | function c p e =>
      rw [expand_function hpath, exhaust_function, Kind.rename_function, List.map_map, List.map_map]
      exact congrArg₂ (Kind.function · · e)
        (List.map_congr_left fun k hk => ih k (List.mem_append_left p hk))
        (List.map_congr_left fun k hk => ih k (List.mem_append_right c hk))
    | vector items =>
      rw [expand_vector hpath, exhaust_vector, Kind.rename_vector, List.map_map]
      exact congrArg Kind.vector (List.map_congr_left ih)

/-- Resolution meets the variables that are left when all bound ones are replaced. -/
theorem Acyclic.met_eq (hu : u.Acyclic) {root : Kind} :
    ∀ {depth : Nat} {path : List Kind} {k : Kind}, u.Visit root depth path k →
      u.met depth path k = (u.exhaust k).variables
  | 0, _, _, h => absurd rfl h.depth_ne_zero
  | depth + 1, path, k, h => by
    have hpath := h.descent.not_mem_of_acyclic hu
    cases hk : u.unbound? k with
    | some v =>
      obtain ⟨rfl, hfind⟩ := unbound?_eq_some_iff.mp hk
      rw [met_unbound hpath hk, exhaust_eq_self (by simp [Kind.variables, hfind]), Kind.variables]
    | none =>
      rw [met_successors hpath hk, hu.variables_exhaust_successors hk]
      exact List.flatMap_congr fun k' hk' => hu.met_eq (h.step hpath hk')

/-- Outside of functions, resolution fails exactly where a vector is left in the end. -/
theorem Acyclic.resolveOuter_cases (hu : u.Acyclic) {root : Kind} (reserved : List String) :
    ∀ {depth : Nat} {path : List Kind} {k : Kind} (p : Progress), u.Visit root depth path k →
      (∃ items, u.exhaust (.vector items) = u.exhaust k ∧
        (u.resolveOuter reserved depth path k p).1 = .error ⟨items⟩) ∨
      (∀ items, u.exhaust k ≠ .vector items) ∧
        ∃ r, (u.resolveOuter reserved depth path k p).1 = .ok r
  | 0, _, _, _, h => absurd rfl h.depth_ne_zero
  | depth + 1, path, k, p, h => by
    have hpath := h.descent.not_mem_of_acyclic hu
    unfold resolveOuter
    rw [if_neg hpath]
    cases k with
    | var v =>
      cases hfind : u.find? v.name with
      | none =>
        right
        rw [exhaust_eq_self (by simp [Kind.variables, hfind])]
        simp only [hfind]
        exact ⟨by simp, _, rfl⟩
      | some binding =>
        simp only [hfind]
        rw [hu.exhaust_bound hfind]
        exact hu.resolveOuter_cases reserved _ (h.step hpath (by simp [successors, hfind]))
    | vector items => exact .inl ⟨items, rfl, rfl⟩
    | self | named _ =>
      right
      rw [exhaust_eq_self (by simp [Kind.variables])]
      exact ⟨by simp, _, rfl⟩
    | function c p e =>
      right
      rw [exhaust_function]
      exact ⟨by simp, _, rfl⟩

theorem Acyclic.resolve_error (hu : u.Acyclic) {k : Kind} (names : NameSupply) {items : Shape}
    (h : u.exhaust k = .vector items) :
    ∃ e, (u.resolve k names).1 = .error e ∧ u.exhaust (.vector e.items) = u.exhaust k := by
  rcases hu.resolveOuter_cases (u.reserved k) { names } (.start u k) with
    ⟨items', hitems', herror⟩ | ⟨hvector, -⟩
  · exact ⟨⟨items'⟩, herror, hitems'⟩
  · exact absurd h (hvector items)

/-- A renaming that keeps all variables of a kind apart and avoids the given names. -/
structure Fresh (avoided : List String) (k : Kind) (naming : Variable → String) : Prop where
  injective : ∀ v ∈ k.variables, ∀ w ∈ k.variables, naming v = naming w → v = w
  avoids : ∀ v ∈ k.variables, naming v ∉ avoided

theorem Acyclic.resolve_ok (hu : u.Acyclic) {k : Kind} (names : NameSupply)
    (h : ∀ items, u.exhaust k ≠ .vector items) :
    ∃ naming, (u.resolve k names).1 = .ok ((u.exhaust k).rename naming) ∧
      Fresh (u.reserved k) (u.exhaust k) naming := by
  rcases hu.resolveOuter_cases (u.reserved k) { names } (.start u k) with
    ⟨items, hitems, -⟩ | ⟨-, r, hok⟩
  · rw [exhaust_vector] at hitems
    exact absurd hitems.symm (h _)
  · obtain ⟨hsound, hmet, hr⟩ := eq_expand_of_resolve hok
    rw [hu.met_eq (.start u k)] at hmet
    rw [hu.expand_eq _ (.start u k)] at hr
    refine ⟨(u.resolve k names).2.naming, hr ▸ hok, fun v hv w hw heq => ?_, fun v hv => ?_⟩
    · exact hsound.source_eq (hmet v hv) (heq ▸ hmet w hw)
    · exact hsound.free _ (List.mem_map_of_mem (hmet v hv))

/-- A substitution is acyclic if the names in each binding rank below the bound name. -/
theorem acyclic_of_rank (rank : String → Nat)
    (h : ∀ b ∈ u.bindings, ∀ v ∈ b.2.variables, rank v.name < rank b.1) : u.Acyclic := by
  have hlt : ∀ name name', Relation.TransGen u.Mentions name name' → rank name' < rank name := by
    intro name name' hleads
    have hstep : ∀ {a b}, u.Mentions a b → rank b < rank a := by
      rintro a _ ⟨binding, hfind, v, hv, rfl⟩
      exact h _ (mem_bindings_of_find? hfind) v hv
    induction hleads with
    | single hm => exact hstep hm
    | tail _ hm ih => exact Nat.lt_trans (hstep hm) ih
  exact fun name hleads => Nat.lt_irrefl _ (hlt name name hleads)

theorem acyclic_empty : Substitution.Acyclic {} := acyclic_of_rank (fun _ => 0) (by simp)

end Substitution

namespace Session

open Substitution

/-- Under an acyclic substitution, all bound variables are replaced until none is left. If that
gives a vector the kind is refused; otherwise the remaining variables get new names, which differ
from one another and occur in neither the kind nor the substitution. -/
theorem normalize_acyclic (session : Session) (k : Kind) (u : Substitution) (hu : u.Acyclic) :
    (∀ v ∈ (u.exhaust k).variables, u.find? v.name = none) ∧
    ((∃ items, u.exhaust k = .vector items) →
      ∃ e, (session.normalize k u).value.1 = .error e ∧
        u.exhaust (.vector e.items) = u.exhaust k) ∧
    ((¬∃ items, u.exhaust k = .vector items) →
      ∃ naming, (session.normalize k u).value.1 = .ok ((u.exhaust k).rename naming) ∧
        Fresh (u.names ++ k.variables.map (·.name)) (u.exhaust k) naming) := by
  refine ⟨hu.find?_eq_none (Nat.le_refl _), fun ⟨items, hitems⟩ => ?_, fun hvector => ?_⟩
  · exact hu.resolve_error session.names hitems
  · exact hu.resolve_ok session.names (not_exists.mp hvector)

/-- Two names in a chain, and equal kinds in several places. -/
theorem normalize_acyclic_chain :
    let u : Substitution := ⟨[("T", .var ⟨.type, "U"⟩),
      ("U", .function [.var ⟨.type, "x"⟩] [.var ⟨.type, "x"⟩, .var ⟨.stack, "x"⟩] false)]⟩
    let k : Kind := .function [.var ⟨.type, "T"⟩] [.var ⟨.type, "U"⟩, .var ⟨.type, "x"⟩] false
    u.Acyclic ∧ ∃ naming,
      (({} : Session).normalize k u).value.1 = .ok ((u.exhaust k).rename naming) ∧
        Fresh (u.names ++ k.variables.map (·.name)) (u.exhaust k) naming := by
  intro u k
  have hu : u.Acyclic := acyclic_of_rank
    (fun name => if name = "T" then 2 else if name = "U" then 1 else 0) (by decide +revert)
  refine ⟨hu, (normalize_acyclic {} k u hu).2.2 ?_⟩
  rintro ⟨items, h⟩
  cases h

end Session

namespace Substitution

variable {u : Substitution}

theorem freshen_eq_var (reserved : List String) (v : Variable) (p : Progress) :
    ∃ name, (freshen reserved v p).1 = .var ⟨v.sort, name⟩ := by
  rw [freshen]
  split <;> exact ⟨_, rfl⟩

/-- Resolution outside of functions gives no vector: it refuses one that it comes to, and the kinds
in progress are variables. -/
theorem ne_vector_of_resolveOuter {root : Kind} (reserved : List String) :
    ∀ {depth : Nat} {path : List Kind} {k : Kind} {p : Progress} {r : Kind},
      u.Visit root depth path k → (∀ j ∈ path, ∃ v, j = .var v) →
      (u.resolveOuter reserved depth path k p).1 = .ok r → ∀ items, r ≠ .vector items
  | 0, _, _, _, _, hvisit, _, _ => absurd rfl hvisit.depth_ne_zero
  | depth + 1, path, k, p, r, hvisit, hvars, h => by
    unfold resolveOuter at h
    by_cases hpath : k ∈ path
    · rw [if_pos hpath] at h
      obtain ⟨v, rfl⟩ := hvars k hpath
      cases h
      simp
    · rw [if_neg hpath] at h
      cases k with
      | var v =>
        cases hfind : u.find? v.name with
        | none =>
          simp only [hfind] at h
          have hr : (freshen reserved v p).1 = r := Except.ok.inj h
          obtain ⟨name, hname⟩ := freshen_eq_var reserved v p
          rw [← hr, hname]
          simp
        | some binding =>
          simp only [hfind] at h
          exact ne_vector_of_resolveOuter reserved
            (hvisit.step hpath (by simp [successors, hfind]))
            (List.forall_mem_cons.mpr ⟨⟨v, rfl⟩, hvars⟩) h
      | vector items => cases h
      | self | named _ | function _ _ _ =>
        have hr : (u.resolveWithin reserved (depth + 1) path _ p).1 = r := Except.ok.inj h
        subst hr
        simp only [resolveWithin, if_neg hpath]
        intro items hitems
        cases hitems

end Substitution

namespace Session

open Substitution

/-- Resolving a resolved kind again, with no bindings and from any supply of names, does no more
than rename its variables. -/
theorem equivalent_normalize_normalized (session later : Session) (k : Kind) (u : Substitution)
    (r : Kind) (h : (session.normalize k u).value.1 = .ok r) :
    ∃ r', (later.normalize r {}).value.1 = .ok r' ∧ r.equivalent r' = true := by
  have hvector := ne_vector_of_resolveOuter _ (.start u k) (by simp) h
  obtain ⟨naming, hok, hfresh⟩ := acyclic_empty.resolve_ok later.names hvector
  exact ⟨r.rename naming, hok,
    Kind.KeepsApart.equivalent_rename fun v hv w hw _ heq => hfresh.injective v hv w hw heq⟩

/-- The first result has a variable in progress, a vector, and two variables of one name. -/
theorem equivalent_normalize_normalized_recursive :
    let k : Kind := .function [.var ⟨.type, "a"⟩, .var ⟨.stack, "x"⟩] [] true
    let u : Substitution := ⟨[("a", .vector [.var ⟨.type, "a"⟩, .var ⟨.type, "x"⟩])]⟩
    let r : Kind := .function [.vector [.var ⟨.type, "a"⟩, .var ⟨.type, "x$0"⟩],
      .var ⟨.stack, "x$1"⟩] [] true
    (({} : Session).normalize k u).value.1 = .ok r ∧
      ∃ r', (({ names := ⟨2⟩ } : Session).normalize r {}).value.1 = .ok r' ∧
        r.equivalent r' = true := by
  intro k u r
  have hok : (({} : Session).normalize k u).value.1 = .ok r := rfl
  exact ⟨hok, equivalent_normalize_normalized {} { names := ⟨2⟩ } k u r hok⟩

end Session

end Concatenative
