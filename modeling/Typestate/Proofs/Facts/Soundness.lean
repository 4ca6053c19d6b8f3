import Typestate.Facts.Flow
import Typestate.Proofs.Execution
import Typestate.Proofs.Fixpoint

/-!
# The facts pass is sound

A statement takes a valuation that satisfies a set of facts to one that satisfies the facts
after the statement. So the facts that the pass finds at a node hold whenever a run is there,
and no edge that a run takes is found impossible.
-/
namespace Typestate

namespace Comparison

theorem holds_mul_of_pos {c : Comparison} {a b k : Int} (hk : 0 < k) (h : c.Holds a b) :
    c.Holds (a * k) (b * k) := by
  cases c with
  | eq => exact congrArg (· * k) h
  | ne => exact fun hm => h (Int.eq_of_mul_eq_mul_right (Int.ne_of_gt hk) hm)
  | lt => exact Int.mul_lt_mul_of_pos_right h hk
  | le => exact Int.mul_le_mul_of_nonneg_right h (Int.le_of_lt hk)
  | gt => exact Int.mul_lt_mul_of_pos_right h hk
  | ge => exact Int.mul_le_mul_of_nonneg_right h (Int.le_of_lt hk)

theorem holds_mul_of_neg {c : Comparison} {a b k : Int} (hk : k < 0) (h : c.Holds a b) :
    c.flip.Holds (a * k) (b * k) := by
  cases c with
  | eq => exact congrArg (· * k) h
  | ne => exact fun hm => h (Int.eq_of_mul_eq_mul_right (Int.ne_of_lt hk) hm)
  | lt => exact Int.mul_lt_mul_of_neg_right h hk
  | le => exact Int.mul_le_mul_of_nonpos_right h (Int.le_of_lt hk)
  | gt => exact Int.mul_lt_mul_of_neg_right h hk
  | ge => exact Int.mul_le_mul_of_nonpos_right h (Int.le_of_lt hk)

end Comparison

namespace BinaryOp

theorem eq_of_applyLinear {op : BinaryOp} {v : Valuation} {a b : Expr} {n r : Int}
    (hn : (Rvalue.binary op a b).Yields v n)
    (hr : op.applyLinear (v.eval a) (v.eval b) = some r) : n = r := by
  cases op <;> simp only [applyLinear, Word.check_eq_some_iff, reduceCtorEq] at hr
  all_goals exact Eq.trans hn hr.1

theorem yields_comm {op : BinaryOp} (h : op.isCommutative = true) {v : Valuation} {a b : Expr}
    {n : Int} (hn : (Rvalue.binary op a b).Yields v n) : (Rvalue.binary op b a).Yields v n := by
  cases op <;> simp only [isCommutative, Bool.false_eq_true] at h
  case add => exact Eq.trans hn (Int.add_comm _ _)
  case mul => exact Eq.trans hn (Int.mul_comm _ _)
  all_goals trivial

theorem holds_applyLinear {op : BinaryOp} {v : Valuation} {a b : Expr} {n bound r : Int}
    {c : Comparison} (hn : (Rvalue.binary op a b).Yields v n)
    (hmul : ¬ (op = .mul ∧ v.eval b = 0)) (hc : c.Holds (v.eval a) bound)
    (hr : op.applyLinear bound (v.eval b) = some r) :
    (if op = .mul ∧ v.eval b < 0 then c.flip else c).Holds n r := by
  cases op <;> simp only [applyLinear, Word.check_eq_some_iff, reduceCtorEq] at hr
  case add =>
    obtain rfl : n = v.eval a + v.eval b := hn
    obtain ⟨rfl, -⟩ := hr
    cases c <;> simp only [Comparison.Holds, reduceCtorEq, false_and, if_false] at hc ⊢ <;> omega
  case sub =>
    obtain rfl : n = v.eval a - v.eval b := hn
    obtain ⟨rfl, -⟩ := hr
    cases c <;> simp only [Comparison.Holds, reduceCtorEq, false_and, if_false] at hc ⊢ <;> omega
  case mul =>
    obtain rfl : n = v.eval a * v.eval b := hn
    obtain ⟨rfl, -⟩ := hr
    rcases Int.lt_trichotomy (v.eval b) 0 with hb | hb | hb
    · rw [if_pos ⟨rfl, hb⟩]
      exact Comparison.holds_mul_of_neg hb hc
    · exact absurd ⟨rfl, hb⟩ hmul
    · rw [if_neg fun h => Int.lt_asymm h.2 hb]
      exact Comparison.holds_mul_of_pos hb hc

end BinaryOp

namespace Facts

variable {v v' : Valuation} {s : Facts}

theorem holds_iff_of_keepsOff {written : Expr → Prop} (h : v.KeepsOff v' written) {f : Fact}
    (hf : ∀ x, written x → f.mentions x = false) : v'.Holds f ↔ v.Holds f := by
  have hside : ∀ x, written x → f.left.mentions x = false ∧ f.right.mentions x = false := by
    intro x hx
    simpa [Fact.mentions] using hf x hx
  rw [Valuation.Holds, Valuation.Holds, h f.left f.left_canonical fun x hx => (hside x hx).1,
    h f.right f.right_canonical fun x hx => (hside x hx).2]

theorem satisfies_of_keepsOff {written : Expr → Prop} (h : v.KeepsOff v' written)
    (hv : v.Satisfies s) {t : Facts}
    (ht : ∀ f ∈ t, f ∈ s ∧ ∀ x, written x → f.mentions x = false) : v'.Satisfies t := by
  intro f hf
  exact (holds_iff_of_keepsOff h (ht f hf).2).2 (hv f (ht f hf).1)

theorem satisfies_forget {target : Expr} (h : v.KeepsOff v' (· = target))
    (hv : v.Satisfies s) : v'.Satisfies (s.forget target) := by
  apply satisfies_of_keepsOff h hv
  intro f hf
  obtain ⟨hf, hm⟩ := mem_forget.1 hf
  exact ⟨hf, fun x hx => hx ▸ hm⟩

theorem holds_literal {target : Expr} {op : Comparison} {n : Int} :
    v.Holds (Fact.of target op (.lit n)) ↔ op.Holds (v.eval target) n := by
  rw [Valuation.holds_of, Valuation.eval_lit]

theorem holds_moved (hv : v.Satisfies s) {target operand e : Expr} {op : BinaryOp} {n : Int}
    (he : v.eval e = v.eval operand)
    (hn : (Rvalue.binary op e (.lit n)).Yields v (v'.eval target)) :
    ∀ f ∈ s.moved target op operand n, v'.Holds f := by
  have hlit : v.eval (.lit n) = n := v.eval_lit n
  intro f hf
  unfold moved at hf
  split at hf
  · rename_i hzero
    obtain ⟨rfl, rfl⟩ := hzero
    obtain rfl := List.mem_singleton.1 hf
    have hmul : v'.eval target = v.eval e * v.eval (.lit 0) := hn
    rw [holds_literal, hmul, hlit]
    exact Int.mul_zero _
  · rename_i hzero
    split at hf
    · rename_i m hm
      obtain ⟨r, hr, rfl⟩ := List.mem_map.1 hf
      rw [holds_literal]
      apply BinaryOp.eq_of_applyLinear hn
      rw [he, eval_of_constantOf hv hm, hlit]
      exact Option.mem_toList.1 hr
    · obtain ⟨g, hg, hgf⟩ := List.mem_filterMap.1 hf
      obtain ⟨hgs, hleft⟩ := List.mem_filter.1 hg
      simp only [Option.bind_eq_bind, Option.bind_eq_some_iff, Option.pure_def,
        Option.some.injEq] at hgf
      obtain ⟨bound, hbound, r, hr, rfl⟩ := hgf
      have hold : g.op.Holds (v.eval e) bound := by
        have := hv g hgs
        rwa [Valuation.Holds, of_decide_eq_true hleft, v.eval_of_literal? hbound, ← he] at this
      rw [holds_literal]
      have := BinaryOp.holds_applyLinear hn (hlit.symm ▸ hzero) hold (hlit.symm ▸ hr)
      rwa [hlit] at this

theorem holds_linear (hv : v.Satisfies s) {target left right : Expr} {op : BinaryOp}
    (hn : (Rvalue.binary op left right).Yields v (v'.eval target)) :
    ∀ f ∈ s.linear target op left right, v'.Holds f := by
  intro f hf
  unfold linear at hf
  split at hf
  · rename_i m n hm hn'
    obtain ⟨r, hr, rfl⟩ := List.mem_map.1 hf
    rw [holds_literal]
    apply BinaryOp.eq_of_applyLinear hn
    rw [v.eval_of_literal? hm, v.eval_of_literal? hn']
    exact Option.mem_toList.1 hr
  · rename_i n hm hn'
    obtain rfl := Expr.literal?_eq_some.1 hn'
    exact holds_moved hv (v.eval_simplify left).symm hn f hf
  · rename_i m hm hn'
    obtain rfl := Expr.literal?_eq_some.1 hm
    split at hf
    · rename_i hcomm
      exact holds_moved hv (v.eval_simplify right).symm (BinaryOp.yields_comm hcomm hn) f hf
    · cases hf
  · cases hf

theorem satisfies_copy (hv : v.Satisfies s) {target value : Expr} (hc : value.IsCanonical)
    (heq : v'.eval target = v.eval value) (hkeep : v.KeepsOff v' (· = target)) :
    v'.Satisfies (s.copy target value) := by
  unfold copy
  split
  · exact satisfies_forget hkeep hv
  · rename_i hm
    rw [not_or, Bool.not_eq_true] at hm
    refine (satisfies_forget hkeep hv).add (Valuation.holds_of.2 ?_)
    exact heq.trans (hkeep value hc fun x hx => hx ▸ hm.2).symm

theorem satisfies_assign (hv : v.Satisfies s) {target : Expr} {value : Rvalue}
    (hn : value.Yields v (v'.eval target)) (hkeep : v.KeepsOff v' (· = target)) :
    v'.Satisfies (s.assign target value) := by
  have hforget := satisfies_forget hkeep hv
  unfold assign
  split
  · rename_i e
    exact satisfies_copy hv e.isCanonical_simplify (hn.trans (v.eval_simplify e).symm) hkeep
  · rename_i e
    exact satisfies_copy hv e.isCanonical_simplify (hn.trans (v.eval_simplify e).symm) hkeep
  · exact hforget.addAll (holds_linear hv hn)
  · rename_i n
    split
    · rename_i m hm
      refine hforget.add (holds_literal.2 ?_)
      exact Eq.trans hn (Word.check_eq_some_iff.1 hm).1
    · exact hforget
  · exact hforget

theorem le_runEnd {cases : List CaseLabel} {start high : Int}
    (h : runEnd start cases = some high) (hord : ∀ c ∈ cases, c.low ≤ c.high) :
    start ≤ high ∧ ∀ c ∈ cases, start ≤ c.low ∧ c.high ≤ high := by
  induction cases generalizing start with
  | nil =>
    obtain rfl := Option.some.inj h
    exact ⟨Int.le_refl _, fun c hc => absurd hc List.not_mem_nil⟩
  | cons c cases ih =>
    unfold runEnd at h
    split at h
    · rename_i hlow
      obtain ⟨hlow, -⟩ := Word.check_eq_some_iff.1 hlow
      have hc := hord c (by simp)
      obtain ⟨hhigh, hall⟩ := ih h fun d hd => hord d (by simp [hd])
      refine ⟨by omega, fun d hd => ?_⟩
      rcases List.mem_cons.1 hd with rfl | hd
      · omega
      · have := hall d hd
        omega
    · cases h

theorem not_mem_ofLabels_nil {index : Expr} {f : Fact} : f ∉ ofLabels index [] := by
  simp [ofLabels]

theorem holds_ofLabels {index : Expr} {cases : List CaseLabel}
    (hord : ∀ c ∈ cases, c.low ≤ c.high)
    (hc : ∃ c ∈ cases, c.low ≤ v.eval index ∧ v.eval index ≤ c.high) :
    ∀ f ∈ ofLabels index cases, v.Holds f := by
  obtain ⟨c, hc, hlow, hhigh⟩ := hc
  intro f hf
  unfold ofLabels at hf
  split at hf
  · cases hf
  · rename_i first rest hsort
    have hmem : ∀ d, d ∈ first :: rest ↔ d ∈ cases := fun d => by
      rw [← hsort, List.mem_mergeSort]
    split at hf
    · cases hf
    · rename_i high hrun
      obtain ⟨hle, hall⟩ := le_runEnd hrun fun d hd => hord d ((hmem d).1 (by simp [hd]))
      have hfirst := hord first ((hmem first).1 (by simp))
      have hbounds : first.low ≤ v.eval index ∧ v.eval index ≤ high := by
        rcases List.mem_cons.1 ((hmem c).2 hc) with rfl | hc
        · omega
        · have := hall c hc
          omega
      split at hf
      · rename_i hone
        obtain rfl := List.mem_singleton.1 hf
        rw [holds_literal]
        exact Int.le_antisymm (hone ▸ hbounds.2) hbounds.1
      · rcases List.mem_cons.1 hf with rfl | hf
        · exact holds_literal.2 hbounds.1
        · obtain rfl := List.mem_singleton.1 hf
          exact holds_literal.2 hbounds.2

theorem mem_addressTaken {args : List Expr} {x : Expr} :
    x ∈ addressTaken args ↔ ∃ a ∈ args, a.simplify = .addrOf x := by
  simp only [addressTaken, List.mem_filterMap]
  refine exists_congr fun a => and_congr_right fun _ => ?_
  cases a.simplify <;> simp [addressed?]

/-- A statement takes what satisfies the facts before it to what satisfies those after it. -/
theorem satisfies_afterStatement (hv : v.Satisfies s) {guard : Guard} {stmt : Statement}
    (hord : ∀ c ∈ (EdgeKind.flow guard).cases, c.low ≤ c.high)
    (h : stmt.Executes guard v v') : v'.Satisfies (s.afterStatement (.flow guard) stmt) := by
  cases stmt with
  | assign target value =>
    exact satisfies_assign hv ((v'.eval_simplify target).symm ▸ h.1) h.2
  | phi target value =>
    refine satisfies_copy hv value.isCanonical_simplify ?_ h.2
    rw [v'.eval_simplify, v.eval_simplify]
    exact h.1
  | call result callee args =>
    apply satisfies_of_keepsOff h hv
    intro f hf
    simp only [afterStatement, mem_foldl_forget] at hf
    obtain ⟨hf, hargs⟩ := hf
    have haddr : ∀ x, (∃ a ∈ args, a.simplify = .addrOf x) → f.mentions x = false :=
      fun x hx => hargs x (mem_addressTaken.2 hx)
    cases result with
    | none =>
      refine ⟨hf, ?_⟩
      rintro x (⟨r, hr, -⟩ | hx)
      · cases hr
      · exact haddr x hx
    | some e =>
      obtain ⟨hf, he⟩ := mem_forget.1 hf
      refine ⟨hf, ?_⟩
      rintro x (⟨r, hr, rfl⟩ | hx)
      · exact Option.some.inj hr ▸ he
      · exact haddr x hx
  | cond a op b =>
    obtain ⟨rfl, hcond⟩ := h
    cases guard with
    | always | labels cases => exact hv
    | branch value =>
      have hcond := hcond value rfl
      cases value with
      | true => exact hv.add (Valuation.holds_of.2 (hcond.2 rfl))
      | false =>
        refine hv.add (Valuation.holds_of.2 (Comparison.holds_negate.2 fun hop => ?_))
        cases hcond.1 hop
  | switch index =>
    obtain ⟨rfl, hlabels⟩ := h
    apply hv.addAll
    cases guard with
    | always | branch value => exact fun f hf => absurd hf not_mem_ofLabels_nil
    | labels cases =>
      by_cases hne : cases = []
      · subst hne
        exact fun f hf => absurd hf not_mem_ofLabels_nil
      · exact holds_ofLabels hord (hlabels cases rfl hne)
  | ret value => exact h ▸ hv
  | nop => exact h ▸ hv

theorem rises_factsProblem (p : Program) :
    p.factsProblem.Rises fun s t : Facts => ∀ f ∈ t, f ∈ s where
  refl _ _ hf := hf
  trans hst htu f hf := hst f (htu f hf)
  meet_left _ _ _ hf := (mem_meet.1 hf).1
  meet_right _ _ _ hf := (mem_meet.1 hf).2

end Facts

namespace Program

variable {p : Program} {v v' : Valuation} {s : Facts}

theorem mem_successors {n : NodeId} {x : EdgeId × NodeId} :
    x ∈ p.successors n ↔ ∃ edge, p.edges[x.1]? = some edge ∧ edge.source = n ∧
      edge.target = x.2 := by
  obtain ⟨e, t⟩ := x
  simp only [successors, outEdges, List.mem_filterMap, mem_edgesWhere, Option.map_eq_some_iff,
    Prod.mk.injEq]
  constructor
  · rintro ⟨e, ⟨edge, hedge, hn⟩, edge', hedge', rfl, rfl⟩
    obtain rfl : edge = edge' := Option.some.inj (hedge.symm.trans hedge')
    exact ⟨edge, hedge, by simpa using hn, rfl⟩
  · rintro ⟨edge, hedge, rfl, rfl⟩
    exact ⟨e, ⟨edge, hedge, by simp⟩, edge, hedge, rfl, rfl⟩

/-- An edge that a run takes is possible, and the facts after it hold. -/
theorem factsFlow_of_takes (hord : p.LabelsOrdered) {e : EdgeId} {edge : Edge}
    (he : p.edges[e]? = some edge) (ht : p.Takes edge v v') (hv : v.Satisfies s) :
    ∃ t, (p.factsFlow s e).1 = some t ∧ v'.Satisfies t := by
  have hafter : ∃ t, p.factsAfter s e = some t ∧ v'.Satisfies t := by
    cases ht with
    | root hk => exact ⟨s, by simp [factsAfter, he, hk], hv⟩
    | pass hk hs => exact ⟨s, by simp [factsAfter, he, hk, hs], hv⟩
    | @execute guard stmt _ hk hs hx =>
      refine ⟨s.afterStatement (.flow guard) stmt, by simp [factsAfter, he, hk, hs], ?_⟩
      refine Facts.satisfies_afterStatement hv (fun c hc => ?_) hx
      exact hord edge (Array.mem_of_getElem? he) c (hk ▸ hc)
  obtain ⟨t, ht, hvt⟩ := hafter
  refine ⟨t, ?_, hvt⟩
  rw [factsFlow, ht]
  exact Option.filter_some_pos (Facts.isPossible_of_satisfies hvt)

/-- The facts found at a node hold whenever a run is there, and each edge that the run may
take next is possible and leads to facts that hold. -/
theorem factsProblem_sound (hord : p.LabelsOrdered) {pass : String} {limit : Nat}
    {sol : FactsSolution} (hs : p.factsProblem.solve pass limit = .ok sol) {path : List EdgeId}
    {n : NodeId} (hr : p.Runs path n v) :
    ∃ s, sol.value n = some s ∧ v.Satisfies s ∧
      ∀ e edge v', p.edges[e]? = some edge → edge.source = n → p.Takes edge v v' →
        ∃ t, (p.factsFlow s e).1 = some t ∧ v'.Satisfies t := by
  have hrise := Facts.rises_factsProblem p
  have hvalue : ∃ s, sol.value n = some s ∧ v.Satisfies s := by
    induction hr with
    | start v =>
      obtain ⟨s, hs, hsub⟩ := hrise.reaches_seed hs (n := root) (by simp [factsProblem])
      exact ⟨s, hs, Valuation.satisfies_empty.mono hsub⟩
    | @step path e edge v v' hr he ht ih =>
      obtain ⟨s, hs', hv⟩ := ih
      obtain ⟨t, hflow, hvt⟩ := factsFlow_of_takes hord he ht hv
      obtain ⟨u, hu, hsub⟩ := hrise.passedOn_solve hs edge.source s hs' (e, edge.target)
        (mem_successors.2 ⟨edge, he, rfl, rfl⟩) t hflow
      exact ⟨u, hu, hvt.mono hsub⟩
  obtain ⟨s, hs, hv⟩ := hvalue
  exact ⟨s, hs, hv, fun e edge v' he _ ht => factsFlow_of_takes hord he ht hv⟩

def countingVar : Expr := .var ⟨"x", some 0, .localVar, .integer⟩

/-- The program `x = 1; while (x < 2) x = x + 1;`. -/
def countingLoop : Program :=
  let node (kind : NodeKind) (stmt : Option Statement) : Node := ⟨some 0, kind, stmt, none⟩
  { nodes := #[⟨none, .root, none, none⟩, node .entry none, node .exit none,
      node .statement (some (.assign countingVar (.use (.lit 1)))),
      node .statement (some (.cond countingVar .lt (.lit 2))),
      node .statement (some (.assign countingVar (.binary .add countingVar (.lit 1))))]
    edges := #[⟨0, 1, .root⟩, ⟨1, 3, .flow .always⟩, ⟨3, 4, .flow .always⟩,
      ⟨4, 5, .flow (.branch true)⟩, ⟨5, 4, .flow .always⟩, ⟨4, 2, .flow (.branch false)⟩]
    functions := #[⟨0, "main", [], [⟨"x", some 0, .localVar, .integer⟩], 1, 2, none, none, none⟩]
    globals := [] }

theorem runs_countingLoop :
    countingLoop.Runs [5, 4, 3, 2, 1, 0] 2 (.table [(countingVar, 2)]) := by
  have value (n : Int) : (Valuation.table [(countingVar, n)]).eval countingVar = n := rfl
  have root : countingLoop.Runs [0] 1 (.table [(countingVar, 0)]) :=
    @Runs.step _ _ 0 ⟨0, 1, .root⟩ _ _ (.start _) rfl (.root rfl)
  have entry : countingLoop.Runs [1, 0] 3 (.table [(countingVar, 0)]) :=
    @Runs.step _ _ 1 ⟨1, 3, .flow .always⟩ _ _ root rfl (.pass rfl rfl)
  have first : countingLoop.Runs [2, 1, 0] 4 (.table [(countingVar, 1)]) :=
    @Runs.step _ _ 2 ⟨3, 4, .flow .always⟩ _ _ entry rfl
      (.execute rfl rfl ⟨value 1, Valuation.keepsOff_table _ 0 1 []⟩)
  have body : countingLoop.Runs [3, 2, 1, 0] 5 (.table [(countingVar, 1)]) :=
    @Runs.step _ _ 3 ⟨4, 5, .flow (.branch true)⟩ _ _ first rfl
      (.execute rfl rfl ⟨rfl, by rintro _ ⟨⟩; decide⟩)
  have again : countingLoop.Runs [4, 3, 2, 1, 0] 4 (.table [(countingVar, 2)]) :=
    @Runs.step _ _ 4 ⟨5, 4, .flow .always⟩ _ _ body rfl
      (.execute rfl rfl ⟨value 2, Valuation.keepsOff_table _ 1 2 []⟩)
  exact @Runs.step _ _ 5 ⟨4, 2, .flow (.branch false)⟩ _ _ again rfl
    (.execute rfl rfl ⟨rfl, by rintro _ ⟨⟩; decide⟩)

theorem factsProblem_sound_countingLoop :
    ∃ sol, countingLoop.factsProblem.solve "facts" 100 = .ok sol ∧
      ∃ s, sol.value 2 = some s ∧ (Valuation.table [(countingVar, 2)]).Satisfies s := by
  cases hs : countingLoop.factsProblem.solve "facts" 100 with
  | error fault =>
    have hok : (countingLoop.factsProblem.solve "facts" 100).isOk = true := by decide +kernel
    rw [hs] at hok
    cases hok
  | ok sol =>
    have hord : countingLoop.LabelsOrdered := by
      simp [LabelsOrdered, countingLoop, EdgeKind.cases]
    obtain ⟨s, hv, hsat, -⟩ := factsProblem_sound hord hs runs_countingLoop
    exact ⟨sol, rfl, s, hv, hsat⟩

end Program

end Typestate
