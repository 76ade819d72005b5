import Concatenative.Proofs.Descent
import Concatenative.Proofs.FreshNames
import Concatenative.Session
import Mathlib.Data.List.Nodup

/-! Resolution without a state. The names that resolution gives to unbound variables are drawn one
after the other, but each variable has one name in the end, and the result is what a plain recursive
function makes of the kind and those names. -/

namespace Concatenative

namespace Progress

/-- What holds of the renamed variables throughout: each has one new name, the new names differ from
one another and from the reserved ones, and the supply has passed their numbers. -/
structure Sound (reserved : List String) (p : Progress) : Prop where
  sources : (p.renamed.map (·.1)).Nodup
  targets : (p.renamed.map (·.2)).Nodup
  free : ∀ name ∈ p.renamed.map (·.2), name ∉ reserved
  passed : ∀ name ∈ p.renamed.map (·.2),
    ∃ stem number, name = generatedName stem number ∧ number < p.names.next

/-- A naming of variables that has the new names, and any others. -/
def Agrees (p : Progress) (naming : Variable → String) : Prop :=
  ∀ v name, (v, name) ∈ p.renamed → naming v = name

/-- The new name of a variable, or its own if it has none. -/
def naming (p : Progress) (v : Variable) : String := (p.renamed.lookup v).getD v.name

theorem sound_start (reserved : List String) (names : NameSupply) :
    Progress.Sound reserved { names } := by
  constructor <;> simp

variable {reserved : List String} {p : Progress}

theorem Sound.lookup_of_mem (h : p.Sound reserved) {v : Variable} {name : String}
    (hmem : (v, name) ∈ p.renamed) : p.renamed.lookup v = some name := by
  obtain ⟨before, after, heq⟩ := List.append_of_mem hmem
  refine List.lookup_eq_some_iff.mpr ⟨before, after, heq, fun entry hentry => ?_⟩
  have hsources := h.sources
  rw [heq, List.map_append, List.map_cons, List.nodup_append] at hsources
  have hne := hsources.2.2 entry.1 (List.mem_map_of_mem hentry) v List.mem_cons_self
  simpa using fun heq => hne heq.symm

theorem Sound.agrees_naming (h : p.Sound reserved) : p.Agrees p.naming := by
  intro v name hmem
  rw [naming, h.lookup_of_mem hmem, Option.getD_some]

/-- Different variables have different new names. -/
theorem Sound.source_eq (h : p.Sound reserved) {v w : Variable} {name : String}
    (hv : (v, name) ∈ p.renamed) (hw : (w, name) ∈ p.renamed) : v = w := by
  exact congrArg Prod.fst (List.inj_on_of_nodup_map h.targets hv hw rfl)

theorem Sound.add (h : p.Sound reserved) {v : Variable} {stem : String} {number : Nat}
    (hsource : v ∉ p.renamed.map (·.1)) (hnumber : p.names.next ≤ number)
    (hfree : generatedName stem number ∉ reserved) :
    Sound reserved { p with
      names := ⟨number + 1⟩, renamed := (v, generatedName stem number) :: p.renamed } := by
  have htarget : generatedName stem number ∉ p.renamed.map (·.2) := by
    intro hmem
    obtain ⟨stem', earlier, heq, hlt⟩ := h.passed _ hmem
    have := number_eq_of_generatedName_eq heq
    omega
  refine ⟨?_, ?_, ?_, ?_⟩
  · exact List.nodup_cons.mpr ⟨hsource, h.sources⟩
  · exact List.nodup_cons.mpr ⟨htarget, h.targets⟩
  · exact List.forall_mem_cons.mpr ⟨hfree, h.free⟩
  · refine List.forall_mem_cons.mpr ⟨⟨stem, number, rfl, Nat.lt_succ_self _⟩, ?_⟩
    intro name hname
    obtain ⟨stem', earlier, heq, hlt⟩ := h.passed name hname
    exact ⟨stem', earlier, heq, by dsimp only; omega⟩

/-- What a computation achieves that starts from `p` and meets the unbound variables `met`: it only
adds to the renamed variables, and its result is read off any naming that has the new names. -/
structure Reaches (reserved : List String) (met : List Variable) {α : Type}
    (value : (Variable → String) → α) (p : Progress) (out : α × Progress) : Prop where
  sound : out.2.Sound reserved
  grows : p.renamed ⊆ out.2.renamed
  covers : ∀ v ∈ met, ∃ name, (v, name) ∈ out.2.renamed
  value_eq : ∀ naming, out.2.Agrees naming → out.1 = value naming

/-- A computation that does so from every sound start. -/
def Yields (reserved : List String) (met : List Variable) {α : Type}
    (value : (Variable → String) → α) (x : StateM Progress α) : Prop :=
  ∀ p, p.Sound reserved → Reaches reserved met value p (x p)

variable {α β : Type} {met met' : List Variable}

theorem yields_pure (a : α) : Yields reserved [] (fun _ => a) (pure a) := by
  intro p hp
  exact ⟨hp, fun _ h => h, by simp, fun _ _ => rfl⟩

theorem Yields.bind {x : StateM Progress α} {f : α → StateM Progress β}
    {value : (Variable → String) → α} {value' : α → (Variable → String) → β}
    (hx : Yields reserved met value x) (hf : ∀ a, Yields reserved met' (value' a) (f a)) :
    Yields reserved (met ++ met') (fun naming => value' (value naming) naming) (x >>= f) := by
  intro p hp
  have h1 := hx p hp
  have h2 := hf (x p).1 (x p).2 h1.sound
  refine ⟨h2.sound, fun _ h => h2.grows (h1.grows h), fun v hv => ?_, fun naming hnaming => ?_⟩
  · rcases List.mem_append.mp hv with hv | hv
    · obtain ⟨name, hname⟩ := h1.covers v hv
      exact ⟨name, h2.grows hname⟩
    · exact h2.covers v hv
  · have hearlier := h1.value_eq naming fun v name h => hnaming v name (h2.grows h)
    rw [← hearlier]
    exact h2.value_eq naming hnaming

theorem Yields.mapM {γ : Type} {f : γ → StateM Progress α} {metOf : γ → List Variable}
    {value : γ → (Variable → String) → α} (items : List γ)
    (h : ∀ c ∈ items, Yields reserved (metOf c) (value c) (f c)) :
    Yields reserved (items.flatMap metOf) (fun naming => items.map (value · naming))
      (items.mapM f) := by
  induction items with
  | nil => exact yields_pure []
  | cons c items ih =>
    have hrest : ∀ a, Yields reserved (items.flatMap metOf ++ [])
        (fun naming => a :: items.map (value · naming))
        (items.mapM f >>= fun as => pure (a :: as)) := fun a =>
      (ih fun c hc => h c (List.mem_cons_of_mem _ hc)).bind fun as => yields_pure (a :: as)
    rw [List.append_nil] at hrest
    rw [List.mapM_cons, List.flatMap_cons]
    exact (h c List.mem_cons_self).bind hrest

end Progress

namespace Substitution

open Progress

variable {u : Substitution} {reserved : List String}

theorem yields_follow (v : Variable) (binding : Kind) :
    Yields reserved [] (fun _ => ()) (follow v binding) := by
  intro p hp
  exact ⟨⟨hp.sources, hp.targets, hp.free, hp.passed⟩, fun _ h => h, by simp, fun _ _ => rfl⟩

theorem yields_freshen (v : Variable) :
    Yields reserved [v] (fun naming => .var ⟨v.sort, naming v⟩) (freshen reserved v) := by
  intro p hp
  cases hlookup : p.renamed.lookup v with
  | some name =>
    have hmem := mem_of_lookup hlookup
    rw [freshen, hlookup]
    refine ⟨hp, fun _ h => h, ?_, fun naming hnaming => ?_⟩
    · rintro w hw
      obtain rfl := List.mem_singleton.mp hw
      exact ⟨name, hmem⟩
    · rw [hnaming v name hmem]
  | none =>
    obtain ⟨number, hnumber, hfresh, hfree, _⟩ := p.names.freshAvoiding_eq v.name reserved
    have hsource : v ∉ p.renamed.map (·.1) := by
      rw [List.lookup_eq_none_iff] at hlookup
      rintro hmem
      obtain ⟨entry, hentry, rfl⟩ := List.mem_map.mp hmem
      simpa using hlookup entry hentry
    rw [freshen, hlookup]
    dsimp only
    rw [hfresh]
    refine ⟨hp.add hsource hnumber hfree, List.subset_cons_self _ _, ?_, fun naming hnaming => ?_⟩
    · rintro w hw
      obtain rfl := List.mem_singleton.mp hw
      exact ⟨_, List.mem_cons_self⟩
    · rw [hnaming v _ List.mem_cons_self]

/-- What resolution inside a function makes of a kind if it gives the unbound variables the names of
a fixed naming. -/
def expand (u : Substitution) (naming : Variable → String) : Nat → List Kind → Kind → Kind
  | 0, _, k => k
  | depth + 1, path, k =>
    if k ∈ path then k
    else match k with
      | .self => .self
      | .named name => .named name
      | .var v =>
        match u.find? v.name with
        | none => .var ⟨v.sort, naming v⟩
        | some binding => u.expand naming depth (.var v :: path) binding
      | .function c p e =>
        .function (c.map (u.expand naming depth (.function c p e :: path)))
          (p.map (u.expand naming depth (.function c p e :: path))) e
      | .vector items => .vector (items.map (u.expand naming depth (.vector items :: path)))

section Expand

variable {naming : Variable → String} {depth : Nat} {path : List Kind}

theorem expand_of_mem {k : Kind} (h : k ∈ path) : u.expand naming depth path k = k := by
  cases depth with
  | zero => rfl
  | succ depth => simp only [expand, if_pos h]

@[simp] theorem expand_self : u.expand naming depth path .self = .self := by
  cases depth <;> simp [expand]

@[simp] theorem expand_named (name : String) :
    u.expand naming depth path (.named name) = .named name := by
  cases depth <;> simp [expand]

theorem expand_unbound {v : Variable} (h : .var v ∉ path) (hfind : u.find? v.name = none) :
    u.expand naming (depth + 1) path (.var v) = .var ⟨v.sort, naming v⟩ := by
  simp [expand, h, hfind]

theorem expand_bound {v : Variable} {binding : Kind} (h : .var v ∉ path)
    (hfind : u.find? v.name = some binding) :
    u.expand naming (depth + 1) path (.var v) =
      u.expand naming depth (.var v :: path) binding := by
  simp [expand, h, hfind]

theorem expand_function {c p : Shape} {e : Bool} (h : .function c p e ∉ path) :
    u.expand naming (depth + 1) path (.function c p e) =
      .function (c.map (u.expand naming depth (.function c p e :: path)))
        (p.map (u.expand naming depth (.function c p e :: path))) e := by
  simp [expand, h]

theorem expand_vector {items : Shape} (h : .vector items ∉ path) :
    u.expand naming (depth + 1) path (.vector items) =
      .vector (items.map (u.expand naming depth (.vector items :: path))) := by
  simp [expand, h]

/-- Renaming the result of expansion. What the renaming does to the names of `naming` is to be known
only for the variables of the kind and of the bindings, and those it must leave alone. -/
theorem rename_expand {f naming naming' : Variable → String} {reserved : List String}
    (hf : ∀ v, v.name ∈ reserved → f v = v.name ∧ f ⟨v.sort, naming v⟩ = naming' v)
    (hu : u.names ⊆ reserved) : ∀ (depth : Nat) (path : List Kind) (k : Kind),
      (∀ v ∈ k.variables, v.name ∈ reserved) →
      (u.expand naming depth path k).rename f = u.expand naming' depth path k := by
  intro depth
  have hfixed : ∀ k : Kind, (∀ v ∈ k.variables, v.name ∈ reserved) → k.rename f = k :=
    fun k hk => (Kind.rename_congr fun v hv => (hf v (hk v hv)).1).trans k.rename_name
  induction depth with
  | zero => exact fun _ k hk => hfixed k hk
  | succ depth ih =>
    intro path k hk
    have hentry : ∀ k' ∈ k.entries, ∀ v ∈ k'.variables, v.name ∈ reserved :=
      fun k' hk' v hv => hk v (Kind.variables_subset_of_mem_entries hk' hv)
    by_cases hpath : k ∈ path
    · rw [expand_of_mem hpath, expand_of_mem hpath, hfixed k hk]
    · cases k with
      | self => simp [Kind.rename]
      | named name => simp [Kind.rename]
      | var v =>
        cases hfind : u.find? v.name with
        | none =>
          rw [expand_unbound hpath hfind, expand_unbound hpath hfind, Kind.rename,
            (hf v (hk v (by simp [Kind.variables]))).2]
        | some binding =>
          rw [expand_bound hpath hfind, expand_bound hpath hfind]
          exact ih _ binding fun v hv => hu ((mem_names_of_find? hfind).2 v hv)
      | function c p e =>
        rw [expand_function hpath, expand_function hpath, Kind.rename_function, List.map_map,
          List.map_map]
        exact congrArg₂ (Kind.function · · e)
          (List.map_congr_left fun k hk => ih _ k (hentry k (List.mem_append_left p hk)))
          (List.map_congr_left fun k hk => ih _ k (hentry k (List.mem_append_right c hk)))
      | vector items =>
        rw [expand_vector hpath, expand_vector hpath, Kind.rename_vector, List.map_map]
        exact congrArg Kind.vector (List.map_congr_left fun k hk => ih _ k (hentry k hk))

end Expand

/-- The variable that a kind is, if it is one without a binding. -/
def unbound? (u : Substitution) : Kind → Option Variable
  | .var v => if (u.find? v.name).isSome then none else some v
  | _ => none

theorem unbound?_eq_some_iff {k : Kind} {v : Variable} :
    u.unbound? k = some v ↔ k = .var v ∧ u.find? v.name = none := by
  cases k with
  | var w =>
    simp only [unbound?, Option.ite_none_left_eq_some, Option.some.injEq, Kind.var.injEq,
      Option.not_isSome_iff_eq_none]
    constructor
    · rintro ⟨hfind, rfl⟩
      exact ⟨rfl, hfind⟩
    · rintro ⟨rfl, hfind⟩
      exact ⟨hfind, rfl⟩
  | _ => simp [unbound?]

/-- The unbound variables that resolution meets, an entry for each time. -/
def met (u : Substitution) : Nat → List Kind → Kind → List Variable
  | 0, _, _ => []
  | depth + 1, path, k =>
    if k ∈ path then []
    else match u.unbound? k with
      | some v => [v]
      | none => (u.successors k).flatMap (u.met depth (k :: path))

section Met

variable {naming : Variable → String} {depth : Nat} {path : List Kind} {k : Kind}

theorem met_unbound {v : Variable} (hpath : k ∉ path) (hk : u.unbound? k = some v) :
    u.met (depth + 1) path k = [v] := by
  simp [met, hpath, hk]

theorem met_successors (hpath : k ∉ path) (hk : u.unbound? k = none) :
    u.met (depth + 1) path k = (u.successors k).flatMap (u.met depth (k :: path)) := by
  simp [met, hpath, hk]

/-- The variables of an expansion come from where resolution goes on to. -/
theorem variables_expand_successors (hpath : k ∉ path) (hk : u.unbound? k = none) :
    (u.expand naming (depth + 1) path k).variables =
      (u.successors k).flatMap fun k' => (u.expand naming depth (k :: path) k').variables := by
  cases k with
  | self | named _ => simp [Kind.variables, successors, Kind.entries]
  | var v =>
    cases hfind : u.find? v.name with
    | none => simp [unbound?, hfind] at hk
    | some binding => simp [expand_bound hpath hfind, successors, hfind]
  | function c p e =>
    simp only [expand_function hpath, Kind.variables_function, ← List.map_append,
      List.flatMap_map, successors, Kind.entries]
  | vector items =>
    simp only [expand_vector hpath, Kind.variables_vector, List.flatMap_map, successors,
      Kind.entries]

end Met

/-- Resolution inside a function is expansion with the names it has given in the end. -/
theorem yields_resolveWithin (u : Substitution) (reserved : List String) :
    ∀ (depth : Nat) (path : List Kind) (k : Kind),
      Yields reserved (u.met depth path k) (fun naming => u.expand naming depth path k)
        (u.resolveWithin reserved depth path k)
  | 0, _, k => yields_pure k
  | depth + 1, path, k => by
    have ih := fun path k => yields_resolveWithin u reserved depth path k
    by_cases hpath : k ∈ path
    · simp only [met, expand, resolveWithin, if_pos hpath]
      exact yields_pure k
    · cases k with
      | self | named _ =>
        simp only [met, expand, resolveWithin, if_neg hpath]
        exact yields_pure _
      | var v =>
        simp only [met, expand, resolveWithin, if_neg hpath, unbound?, successors]
        cases hfind : u.find? v.name with
        | none => exact yields_freshen v
        | some binding =>
          have hmet : [binding].flatMap (u.met depth (.var v :: path)) =
              u.met depth (.var v :: path) binding := List.flatMap_singleton _ _
          simp only [Option.isSome_some, if_true, Option.toList_some, hmet]
          exact (yields_follow v binding).bind fun _ => ih (.var v :: path) binding
      | function c p e =>
        simp only [met, expand, resolveWithin, if_neg hpath, unbound?, successors, Kind.entries,
          List.flatMap_append]
        have below := ih (.function c p e :: path)
        have hproduction := fun c' => (Yields.mapM p fun k _ => below k).bind fun p' =>
          yields_pure (Kind.function c' p' e)
        simp only [List.append_nil] at hproduction
        exact (Yields.mapM c fun k _ => below k).bind hproduction
      | vector items =>
        simp only [met, expand, resolveWithin, if_neg hpath, unbound?, successors, Kind.entries]
        have hitems := (Yields.mapM items fun k _ => ih (.vector items :: path) k).bind
          fun items => yields_pure (Kind.vector items)
        rwa [List.append_nil] at hitems

/-- Where resolution outside of functions succeeds, it does what it does inside of them. -/
theorem resolveWithin_of_resolveOuter (u : Substitution) (reserved : List String) :
    ∀ (depth : Nat) (path : List Kind) (k : Kind) {p : Progress} {r : Kind},
      (u.resolveOuter reserved depth path k p).1 = .ok r →
      u.resolveWithin reserved depth path k p = (r, (u.resolveOuter reserved depth path k p).2)
  | 0, _, k, p, r, h => by
    cases h
    rfl
  | depth + 1, path, k, p, r, h => by
    unfold resolveOuter at h ⊢
    by_cases hpath : k ∈ path
    · rw [if_pos hpath] at h ⊢
      rw [resolveWithin, if_pos hpath]
      cases h
      rfl
    · rw [if_neg hpath] at h ⊢
      cases k with
      | var v =>
        rw [resolveWithin, if_neg hpath]
        cases hfind : u.find? v.name with
        | none =>
          simp only [hfind] at h ⊢
          cases h
          rfl
        | some binding =>
          simp only [hfind] at h ⊢
          exact resolveWithin_of_resolveOuter u reserved depth _ binding h
      | vector items => cases h
      | self | named _ | function _ _ _ =>
        cases h
        rfl

/-- A resolved kind is the expansion of the kind by the names that the call has given, and every
unbound variable that was met has been given one. -/
theorem eq_expand_of_resolve {k : Kind} {names : NameSupply} {r : Kind}
    (h : (u.resolve k names).1 = .ok r) :
    (u.resolve k names).2.Sound (u.reserved k) ∧
    (∀ v ∈ u.met (u.depthBound k) [] k,
      (v, (u.resolve k names).2.naming v) ∈ (u.resolve k names).2.renamed) ∧
    r = u.expand (u.resolve k names).2.naming (u.depthBound k) [] k := by
  have hrun := yields_resolveWithin u (u.reserved k) (u.depthBound k) [] k { names }
    (sound_start _ names)
  rw [resolveWithin_of_resolveOuter u _ _ _ _ h] at hrun
  have hagrees := hrun.sound.agrees_naming
  refine ⟨hrun.sound, fun v hv => ?_, hrun.value_eq _ hagrees⟩
  obtain ⟨name, hname⟩ := hrun.covers v hv
  exact hagrees v name hname ▸ hname

end Substitution

end Concatenative
