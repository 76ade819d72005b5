import Concatenative.Proofs.Rewriting

/-! Laws of a machine. Code that runs on the empty stack without output may be replaced by pushes of
what it leaves, and code that is run below a value may be run before that value is pushed. Both ways
can only save nested calls, so a run of rewritten code ends as the original one does, up to the
bodies of quotations, unless the original was cut off. -/

namespace Concatenative

mutual

/-- A value with every quotation in it replaced by the empty one. -/
def Value.skeleton : Value → Value
  | .literal l => .literal l
  | .list items => .list (Value.skeletons items)
  | .quotation _ => .quotation []

def Value.skeletons : List Value → List Value
  | [] => []
  | v :: vs => Value.skeleton v :: Value.skeletons vs

end

/-- Two runs ended in the same way, up to the bodies of the quotations that they left. -/
structure Outcome.Alike (o o' : Outcome Unit) : Prop where
  result : o'.result = o.result
  lines : o'.lines = o.lines
  stack : Value.skeletons o'.stack = Value.skeletons o.stack

namespace Correspondence

variable {K : Correspondence}

mutual

theorem skeleton_eq : ∀ {v v' : Value}, K.value v v' → v'.skeleton = v.skeleton
  | .literal _, _, h => by rw [K.literal_iff.mp h]
  | .list items, _, h => by
    obtain ⟨items', rfl, hitems⟩ := K.list_iff.mp h
    simp only [Value.skeleton]
    rw [skeletons_eq hitems]
  | .quotation _, _, h => by
    obtain ⟨b', rfl, _⟩ := K.quotation_iff.mp h
    rfl

theorem skeletons_eq : ∀ {vs vs' : List Value}, List.Forall₂ K.value vs vs' →
    Value.skeletons vs' = Value.skeletons vs
  | [], _, .nil => rfl
  | _ :: _, _, .cons h hs => by
    simp only [Value.skeletons]
    rw [skeleton_eq h, skeletons_eq hs]

end

theorem Stacks.skeletons_eq {s s' : Stack} (h : K.Stacks [] s s') :
    Value.skeletons s' = Value.skeletons s := by
  induction h with
  | base => rfl
  | cons hv _ ih =>
    simp only [Value.skeletons]
    rw [skeleton_eq hv, ih]

end Correspondence

theorem Outcome.Matches.alike {K : Correspondence} {C : Comparison} {o o' : Outcome Unit}
    (h : o.Matches K C Eq o') (hbase : C.base = []) : o.Alike o' := by
  refine ⟨h.result.eq, h.lines, ?_⟩
  have hstack := h.stack
  rw [hbase] at hstack
  exact hstack.skeletons_eq

namespace Machine

/-- By what the blocks of a machine may be replaced. -/
inductive Law (m : Machine) : Rules
  | evaluate {b : Block} {calls : Nat} : (m.runBlock .pure calls b []).result = .ok () →
    Law m b ((m.runBlock .pure calls b []).stack.reverse.map .push)
  | undip (v : Value) (b : Block) : m.body? Primitive.dip.name = none →
    Law m [.push v, .push (.quotation b), .run Primitive.dip.term] (b ++ [.push v])

variable {m m' o : Machine} {mode : Mode} {calls calls' : Nat} {rules : Rules}

theorem runBlock_pushes_append (vs : List Value) (b : Block) (s : Stack) :
    m.runBlock mode calls (vs.map .push ++ b) s = m.runBlock mode calls b (vs.reverse ++ s) := by
  induction vs generalizing s with
  | nil => rfl
  | cons v vs ih =>
    show m.runBlock mode calls (vs.map .push ++ b) (v :: s) = _
    rw [ih, List.reverse_cons, List.append_assoc]
    rfl

theorem runBlock_pushes (vs : List Value) (s : Stack) :
    m.runBlock mode calls (vs.map .push) s = ⟨.ok (), vs.reverse ++ s, [], []⟩ := by
  rw [← List.append_nil (vs.map _), runBlock_pushes_append]
  rfl

theorem runBlock_builtin {p : Primitive} (h : m.body? p.name = none) (b : Block) (s : Stack) :
    (m.runBlock mode calls (.run p.term :: b) s).untraced =
      ((do p.exec mode (m.invoke mode calls); m.runBlock mode calls b : Run Unit) s).untraced := by
  rw [runBlock_cons, perform, Primitive.term, step_builtin h, bind_assoc]
  rfl

/-- Running a block below a value takes one more level of nesting than running it first. -/
theorem runBlock_dip (h : m.body? Primitive.dip.name = none) (v : Value) (b : Block) (s : Stack) :
    (m.runBlock mode calls [.push v, .push (.quotation b), .run Primitive.dip.term] s).untraced =
      ((do m.invoke mode calls b; Run.push v : Run Unit) s).untraced := by
  show (m.runBlock mode calls [.run Primitive.dip.term] (.quotation b :: v :: s)).untraced = _
  rw [runBlock_builtin h, runBlock_nil, bind_pure_unit]
  rfl

theorem undip_follows (h : m.body? Primitive.dip.name = none) {C : Comparison} {K : Correspondence}
    {v : Value} {b : Block} (hv : K.value v v) (hexcused : ∀ n, C.excused (.callDepthExceeded n))
    (hb : ∀ k, calls = k + 1 →
      (m.runBlock C.mode k b).Follows K C Eq (m'.runBlock C.mode' calls' b)) :
    (m.runBlock C.mode calls [.push v, .push (.quotation b), .run Primitive.dip.term]).Follows K C
      Eq (m'.runBlock C.mode' calls' (b ++ [.push v])) := by
  have hpush : m'.runBlock C.mode' calls' [.push v] = Run.push v := bind_pure_unit
  rw [runBlock_append, hpush]
  intro s s' hs
  refine Outcome.follows_of_untraced (runBlock_dip h v b s) ?_
  refine Run.Follows.bind (A := Eq) ?_ (fun _ _ _ => Run.follows_push hv) s s' hs
  cases calls with
  | zero => exact fun _ _ _ => .inl ⟨_, rfl, hexcused _⟩
  | succ calls => exact hb calls rfl

theorem evaluate_follows (hwords : m.words = o.words) {C : Comparison} {b : Block} {limit : Nat}
    (h : (o.runBlock .pure limit b []).result = .ok ())
    (hexcused : ∀ n, C.excused (.callDepthExceeded n)) :
    (m.runBlock C.mode calls b).Follows (.rewriting rules) C Eq
      (m'.runBlock C.mode' calls' ((o.runBlock .pure limit b []).stack.reverse.map .push)) := by
  intro s s' hs
  rw [runBlock_pushes, List.reverse_reverse]
  rcases runBlock_predicted hwords h C.mode calls s with ⟨n, he⟩ | ⟨hresult, hstack, hlines⟩
  · exact .inl ⟨_, he, hexcused n⟩
  · refine .inr ⟨by rw [hresult]; exact .ok rfl, ?_, hlines.symm, fun _ => hlines⟩
    rw [hstack]
    exact hs.append_left Value.rewritten_refl _

/-- The laws of a machine keep up comparisons in which runs that were cut off are excused, also on
a machine with another limit. -/
theorem law_sound (ho : m.words = o.words) :
    Sound o.Law (fun e => ∃ n, e = .callDepthExceeded n) m := by
  intro calls ih C m' calls' hC hwords hdepth x x' hlaw
  have hexcused : ∀ n, C.excused (.callDepthExceeded n) := by
    rw [hC]
    exact fun n => ⟨n, rfl⟩
  cases hlaw with
  | evaluate h => exact evaluate_follows ho h hexcused
  | undip v b hdip =>
    have hdip : m.body? Primitive.dip.name = none := by rw [body?, ho, ← body?, hdip]
    refine undip_follows hdip (Value.rewritten_refl v) hexcused fun k hk => ?_
    have hle : k ≤ calls' := by
      rcases hdepth with ⟨h, _⟩ | ⟨h, _⟩ <;> omega
    exact ih k (by omega) C m' calls' hC hwords (.inr ⟨hle, hexcused⟩) b b (Block.rewritten_refl b)

/-- A run of rewritten code, with rewritten definitions, ends as the original run does unless that
was cut off. -/
theorem alike_of_rewritten (ho : m.words = o.words)
    (hwords : WordsCorrespond (.rewriting o.Law) m m') {b b' : Block}
    (hb : Block.Rewritten o.Law b b') (mode : Mode) (calls : Nat) (s : Stack)
    (h : ¬ (m.runBlock mode calls b s).Exceeded) :
    (m.runBlock mode calls b s).Alike (m'.runBlock mode calls b' s) := by
  have hdepth : DepthsAllow (.deeper mode) m m' calls calls :=
    .inr ⟨calls.le_refl, fun n => ⟨n, rfl⟩⟩
  have hfollows := simulates_of_sound (law_sound ho) calls (.deeper mode) m' calls rfl hwords hdepth
    b b' hb
  rcases hfollows s s (Correspondence.rewriting_stacks_refl s) with ⟨_, he, n, rfl⟩ | hm
  · exact absurd ⟨n, he⟩ h
  · exact hm.alike rfl

end Machine

end Concatenative
