import Concatenative.Proofs.Resolution

/-! What a kind stands for under a substitution. If bindings lead back to themselves, that is an
infinite kind, which is known by its finite unfoldings. Resolution keeps all of them, wherever it
leaves a kind as it is. -/

namespace Concatenative

namespace Substitution

variable {u : Substitution}

/-- The binding of a kind, if it is a variable that has one. -/
def binding? (u : Substitution) : Kind → Option Kind
  | .var v => u.find? v.name
  | _ => none

/-- Following bindings from a kind ends in a kind without one, by way of variables of the listed
names. -/
inductive Ends (u : Substitution) : List String → Kind → Kind → Prop
  | done {k : Kind} : u.binding? k = none → Ends u [] k k
  | step {v : Variable} {names : List String} {binding k : Kind} :
    u.find? v.name = some binding → Ends u names binding k → Ends u (v.name :: names) (.var v) k

theorem Ends.unique {names names' : List String} {k h h' : Kind} (hk : u.Ends names k h)
    (hk' : u.Ends names' k h') : names = names' ∧ h = h' := by
  induction hk generalizing names' with
  | done hnone =>
    cases hk' with
    | done _ => exact ⟨rfl, rfl⟩
    | step hsome _ => simp [binding?, hsome] at hnone
  | step hsome _ ih =>
    cases hk' with
    | done hnone => simp [binding?, hsome] at hnone
    | step hsome' hrest =>
      obtain rfl := Option.some.inj (hsome.symm.trans hsome')
      obtain ⟨rfl, rfl⟩ := ih hrest
      exact ⟨rfl, rfl⟩

/-- From a name on the way, the way to the end is shorter. -/
theorem Ends.from_name {names : List String} {k h : Kind} (hk : u.Ends names k h) :
    ∀ v : Variable, v.name ∈ names →
      ∃ rest, u.Ends (v.name :: rest) (.var v) h ∧ rest.length < names.length := by
  induction hk with
  | done _ => simp
  | @step w names binding k hsome hrest ih =>
    intro v hv
    rcases List.mem_cons.mp hv with heq | hv
    · exact ⟨names, .step (heq ▸ hsome) hrest, by simp⟩
    · obtain ⟨rest, hends, hlt⟩ := ih v hv
      exact ⟨rest, hends, by simp; omega⟩

/-- A way that comes to a name again never ends. -/
theorem Ends.nodup {names : List String} {k h : Kind} (hk : u.Ends names k h) : names.Nodup := by
  induction hk with
  | done _ => exact List.nodup_nil
  | @step v names binding k hsome hrest ih =>
    refine List.nodup_cons.mpr ⟨fun hmem => ?_, ih⟩
    obtain ⟨rest, hends, hlt⟩ := hrest.from_name v hmem
    obtain ⟨hnames, _⟩ := hends.unique (.step hsome hrest)
    have := congrArg List.length hnames
    simp at this
    omega

theorem Ends.names_subset {names : List String} {k h : Kind} (hk : u.Ends names k h) :
    names ⊆ u.bindings.map (·.1) := by
  induction hk with
  | done _ => exact List.nil_subset _
  | step hsome _ ih =>
    exact List.cons_subset.mpr ⟨List.mem_map_of_mem (mem_bindings_of_find? hsome), ih⟩

theorem Ends.length_le {names : List String} {k h : Kind} (hk : u.Ends names k h) :
    names.length ≤ u.bindings.length := by
  have hle := hk.nodup.length_le_of_subset hk.names_subset
  rwa [List.length_map] at hle

/-- Follows bindings from a kind to a kind without one, past fewer than `limit` variables. -/
def chase (u : Substitution) : Nat → Kind → Option Kind
  | 0, _ => none
  | limit + 1, k =>
    match u.binding? k with
    | none => some k
    | some binding => u.chase limit binding

/-- Where the bindings of a kind lead: nowhere if they run in a circle. -/
def head? (u : Substitution) (k : Kind) : Option Kind := u.chase (u.bindings.length + 1) k

theorem chase_eq_some_iff {limit : Nat} {k h : Kind} :
    u.chase limit k = some h ↔ ∃ names, u.Ends names k h ∧ names.length < limit := by
  induction limit generalizing k with
  | zero => simp [chase]
  | succ limit ih =>
    cases hbinding : u.binding? k with
    | none =>
      simp only [chase, hbinding, Option.some.injEq]
      constructor
      · rintro rfl
        exact ⟨[], .done hbinding, by simp⟩
      · rintro ⟨names, hends, _⟩
        exact ((Ends.done hbinding).unique hends).2
    | some binding =>
      simp only [chase, hbinding, ih]
      cases k with
      | var v =>
        constructor
        · rintro ⟨names, hends, hlt⟩
          exact ⟨v.name :: names, .step hbinding hends, by simp; omega⟩
        · rintro ⟨names, hends, hlt⟩
          cases hends with
          | done hnone => simp [hbinding] at hnone
          | @step _ names _ _ hsome hrest =>
            obtain rfl := Option.some.inj (hbinding.symm.trans hsome)
            exact ⟨names, hrest, by simp at hlt; omega⟩
      | _ => simp [binding?] at hbinding

theorem head?_eq_some_iff {k h : Kind} : u.head? k = some h ↔ ∃ names, u.Ends names k h := by
  rw [head?, chase_eq_some_iff]
  constructor
  · rintro ⟨names, hends, _⟩
    exact ⟨names, hends⟩
  · rintro ⟨names, hends⟩
    exact ⟨names, hends, Nat.lt_succ_of_le hends.length_le⟩

theorem head?_of_binding {k : Kind} (h : u.binding? k = none) : u.head? k = some k :=
  head?_eq_some_iff.mpr ⟨[], .done h⟩

theorem head?_bound {v : Variable} {binding : Kind} (h : u.find? v.name = some binding) :
    u.head? (.var v) = u.head? binding := by
  refine Option.ext fun k => ?_
  rw [head?_eq_some_iff, head?_eq_some_iff]
  constructor
  · rintro ⟨names, hends⟩
    cases hends with
    | done hnone => simp [binding?, h] at hnone
    | @step _ names _ _ hsome hrest =>
      obtain rfl := Option.some.inj (h.symm.trans hsome)
      exact ⟨names, hrest⟩
  · rintro ⟨names, hends⟩
    exact ⟨_, .step h hends⟩

end Substitution

/-- A kind down to some depth. -/
inductive Outline where
  /-- Nothing is said about what stands here. -/
  | cut
  | self
  | named (name : String)
  | var (v : Variable)
  | function (consumption production : List Outline) (effects : Bool)
  | vector (items : List Outline)

namespace Substitution

variable {u : Substitution}

/-- What a kind stands for, down to a depth. Bound variables are replaced by where they lead, which
takes no depth; unbound variables stay. -/
def unfold (u : Substitution) : Nat → Kind → Outline
  | 0, _ => .cut
  | depth + 1, k =>
    match u.head? k with
    | none => .cut
    | some .self => .self
    | some (.named name) => .named name
    | some (.var v) => .var v
    | some (.function c p e) => .function (c.map (u.unfold depth)) (p.map (u.unfold depth)) e
    | some (.vector items) => .vector (items.map (u.unfold depth))

theorem unfold_bound {v : Variable} {binding : Kind} (h : u.find? v.name = some binding)
    (depth : Nat) : u.unfold depth (.var v) = u.unfold depth binding := by
  cases depth with
  | zero => rfl
  | succ depth => rw [unfold, unfold, head?_bound h]

/-- Expansion that renames nothing keeps the unfoldings. -/
theorem unfold_expand (u : Substitution) (n : Nat) :
    ∀ (depth : Nat) (path : List Kind) (k : Kind),
      u.unfold n (u.expand (·.name) depth path k) = u.unfold n k
  | 0, _, _ => rfl
  | depth + 1, path, k => by
    by_cases hpath : k ∈ path
    · rw [expand_of_mem hpath]
    · cases k with
      | self => rw [expand_self]
      | named name => rw [expand_named]
      | var v =>
        cases hfind : u.find? v.name with
        | none => rw [expand_unbound hpath hfind]
        | some binding =>
          rw [expand_bound hpath hfind, unfold_expand, unfold_bound hfind]
      | function c p e =>
        rw [expand_function hpath]
        cases n with
        | zero => rfl
        | succ n =>
          rw [unfold, unfold, head?_of_binding rfl, head?_of_binding rfl]
          simp only [List.map_map, Outline.function.injEq, and_true]
          exact ⟨List.map_congr_left fun k _ => unfold_expand u n depth _ k,
            List.map_congr_left fun k _ => unfold_expand u n depth _ k⟩
      | vector items =>
        rw [expand_vector hpath]
        cases n with
        | zero => rfl
        | succ n =>
          rw [unfold, unfold, head?_of_binding rfl, head?_of_binding rfl]
          simp only [List.map_map, Outline.vector.injEq]
          exact List.map_congr_left fun k _ => unfold_expand u n depth _ k

end Substitution

namespace Progress

variable {reserved : List String} {p : Progress}

/-- The name that a generated variable was given in place of; any other variable's own name. -/
def original (p : Progress) (v : Variable) : String :=
  match p.renamed.find? fun entry => entry.1.sort = v.sort ∧ entry.2 = v.name with
  | some entry => entry.1.name
  | none => v.name

theorem Sound.original_generated (h : p.Sound reserved) {v : Variable} {name : String}
    (hmem : (v, name) ∈ p.renamed) : p.original ⟨v.sort, name⟩ = v.name := by
  have hsome : (p.renamed.find? fun entry => entry.1.sort = v.sort ∧ entry.2 = name).isSome :=
    List.find?_isSome.mpr ⟨(v, name), hmem, by simp⟩
  obtain ⟨⟨w, name'⟩, hfound⟩ := Option.isSome_iff_exists.mp hsome
  obtain ⟨-, rfl⟩ : w.sort = v.sort ∧ name' = name := by simpa using List.find?_some hfound
  rw [original, hfound, h.source_eq (List.mem_of_find?_eq_some hfound) hmem]

theorem Sound.original_reserved (h : p.Sound reserved) {v : Variable} (hv : v.name ∈ reserved) :
    p.original v = v.name := by
  have hnone : p.renamed.find? (fun entry => entry.1.sort = v.sort ∧ entry.2 = v.name) = none := by
    rw [List.find?_eq_none]
    rintro ⟨w, name⟩ hmem hfound
    obtain ⟨-, rfl⟩ : w.sort = v.sort ∧ name = v.name := by simpa using hfound
    exact h.free _ (List.mem_map_of_mem hmem) hv
  rw [original, hnone]

/-- Renaming an unbound variable and back gives its name again. -/
theorem Sound.original_naming (h : p.Sound reserved) {v : Variable} (hv : v.name ∈ reserved) :
    p.original ⟨v.sort, p.naming v⟩ = v.name := by
  cases hlookup : p.renamed.lookup v with
  | some name =>
    have hmem := mem_of_lookup hlookup
    rw [h.agrees_naming v name hmem, h.original_generated hmem]
  | none =>
    have hname : p.naming v = v.name := by rw [naming, hlookup, Option.getD_none]
    rw [hname]
    exact h.original_reserved hv

end Progress

namespace Session

/-- With the original names in place of the generated ones, a resolved kind stands for the same as
the kind that was resolved. -/
theorem unfold_normalized (session : Session) (k : Kind) (u : Substitution) (r : Kind) (n : Nat)
    (h : (session.normalize k u).value.1 = .ok r) :
    u.unfold n (r.rename (u.resolve k session.names).2.original) = u.unfold n k := by
  obtain ⟨hsound, -, hr⟩ := Substitution.eq_expand_of_resolve h
  have hrestored : r.rename (u.resolve k session.names).2.original =
      u.expand (·.name) (u.depthBound k) [] k := by
    rw [hr]
    exact Substitution.rename_expand
      (fun v hv => ⟨hsound.original_reserved hv, hsound.original_naming hv⟩)
      (u.names_subset_reserved k) _ _ k u.name_mem_reserved
  rw [hrestored, Substitution.unfold_expand]

/-- The production of the function leads back to it. There the function is left as it is, so one
variable stands under two names. -/
theorem unfold_normalized_recursive :
    let k : Kind := .function [.var ⟨.type, "b"⟩] [.var ⟨.type, "a"⟩] false
    let u : Substitution := ⟨[("a", k)]⟩
    let r : Kind := .function [.var ⟨.type, "b$0"⟩] [k] false
    (({} : Session).normalize k u).value.1 = .ok r ∧
      u.unfold 3 (r.rename (u.resolve k {}).2.original) = u.unfold 3 k := by
  refine ⟨by decide, unfold_normalized {} _ _ _ 3 (by decide)⟩

end Session

end Concatenative
