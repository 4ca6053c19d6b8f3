import Typestate.Proofs.States.Shape

/-!
# Threads of states

What flows along an edge is made of threads: each state of a class at the target is there
whatever the value at the source, or stems from one state of one class at the source and is
there for every value that has this state. Threads compose, and make a passage monotone.

States of expressions are followed in the same way, since values are taken apart into them and
gathered again at the target.
-/
namespace Typestate

namespace NodeStates

variable {v : NodeStates} {scope : Option FunctionId} {e : Expr} {t : State}

theorem mayBe_foldl_union {l : List Expr} {m : ExprStates} {s : States} :
    (l.foldl (fun m e => m.insert e (((m.get? e).getD ∅).union s)) m).MayBe e t ↔
      m.MayBe e t ∨ e ∈ l ∧ t ∈ s := by
  induction l generalizing m with
  | nil => simp
  | cons a l ih =>
    rw [List.foldl_cons, ih, SortedMap.mayBe_insert]
    by_cases hea : e = a
    · subst hea
      cases hm : m.get? e with
      | none => simp [SortedMap.MayBe, hm]
      | some s' =>
        simp only [SortedMap.mayBe_of_get? hm, Option.getD_some, SortedSet.mem_union, if_true,
          List.mem_cons, true_or, true_and]
        grind
    · simp [hea]

theorem mayBe_foldl_flatten {l : List (EquivClass × States)} {m : ExprStates} :
    (l.foldl (fun m (c, s) =>
      if EquivClass.isInScope c scope then
        c.toList.foldl (fun m e => m.insert e (((m.get? e).getD ∅).union s)) m
      else m) m).MayBe e t ↔
    m.MayBe e t ∨ ∃ x ∈ l, e ∈ x.1 ∧ EquivClass.isInScope x.1 scope = true ∧ t ∈ x.2 := by
  induction l generalizing m with
  | nil => simp
  | cons x l ih =>
    obtain ⟨c, s⟩ := x
    have hone : (if EquivClass.isInScope c scope then
        c.toList.foldl (fun m e => m.insert e (((m.get? e).getD ∅).union s)) m
        else m).MayBe e t ↔
        m.MayBe e t ∨ e ∈ c ∧ EquivClass.isInScope c scope = true ∧ t ∈ s := by
      by_cases hc : EquivClass.isInScope c scope = true
      · simp [hc, mayBe_foldl_union, SortedSet.mem_def]
      · simp [hc]
    rw [List.foldl_cons, ih, hone]
    simp [or_assoc]

theorem mayBe_flatten : (v.flatten scope).MayBe e t ↔
    ∃ c, e ∈ c ∧ EquivClass.isInScope c scope = true ∧ v.map.MayBe c t := by
  rw [flatten, mayBe_foldl_flatten]
  constructor
  · rintro (h | ⟨⟨c, s⟩, hcs, he, hc, ht⟩)
    · exact absurd h SortedMap.not_mayBe_empty
    · exact ⟨c, he, hc, s, SortedMap.mem_entries_iff.1 hcs, ht⟩
  · rintro ⟨c, he, hc, s, hs, ht⟩
    exact .inr ⟨(c, s), SortedMap.mem_entries_iff.2 hs, he, hc, ht⟩

end NodeStates

namespace StatesContext

variable {ctx : StatesContext} {n n' n'' : NodeId} {v w : NodeStates}

/-- A property holds of a value because of one state at most: it holds of all values at the
node, or of all those that have some state which the value has. -/
def Stems (ctx : StatesContext) (n : NodeId) (Q : NodeStates → Prop) (v : NodeStates) : Prop :=
  (∀ w, ctx.Fits n w → Q w) ∨
    ∃ c t, v.map.MayBe c t ∧ ∀ w, ctx.Fits n w → w.map.MayBe c t → Q w

theorem Stems.mono {Q R : NodeStates → Prop} (h : ctx.Stems n Q v)
    (hQR : ∀ w, ctx.Fits n w → Q w → R w) : ctx.Stems n R v := by
  rcases h with hall | ⟨c, t, hc, hall⟩
  · exact .inl fun w hw => hQR w hw (hall w hw)
  · exact .inr ⟨c, t, hc, fun w hw hwc => hQR w hw (hall w hw hwc)⟩

/-- States of expressions that stem from those of classes at a node. Which expressions have
states depends on the node alone. -/
structure ExprThreads (ctx : StatesContext) (n : NodeId) (E : NodeStates → ExprStates) :
    Prop where
  known : ∀ {v w e t}, ctx.Fits n v → ctx.Fits n w → (E v).MayBe e t → ∃ t', (E w).MayBe e t'
  stems : ∀ {v e t}, ctx.Fits n v → (E v).MayBe e t → ctx.Stems n (fun w => (E w).MayBe e t) v

/-- Sets of states that stem from those of classes at a node. -/
structure StateThreads (ctx : StatesContext) (n : NodeId) (S : NodeStates → States) :
    Prop where
  nonempty : ∀ {v}, ctx.Fits n v → ∃ t, t ∈ S v
  stems : ∀ {v t}, ctx.Fits n v → t ∈ S v → ctx.Stems n (fun w => t ∈ S w) v

theorem ExprThreads.congr {E E' : NodeStates → ExprStates} (hE : ctx.ExprThreads n E)
    (h : ∀ v, ctx.Fits n v → E v = E' v) : ctx.ExprThreads n E' where
  known {v w e t} hv hw hvt := by
    rw [← h v hv] at hvt
    rw [← h w hw]
    exact hE.known hv hw hvt
  stems {v e t} hv hvt := by
    rw [← h v hv] at hvt
    exact (hE.stems hv hvt).mono fun w hw hwt => h w hw ▸ hwt

theorem ExprThreads.insertAll {E : NodeStates → ExprStates} {S : NodeStates → States}
    (hE : ctx.ExprThreads n E) (hS : ctx.StateThreads n S) (l : List Expr) :
    ctx.ExprThreads n fun v => l.foldl (fun m e => m.insert e (S v)) (E v) where
  known {v w e t} hv hw h := by
    simp only [SortedMap.mayBe_foldl_insert] at h ⊢
    by_cases he : e ∈ l
    · simpa only [if_pos he] using hS.nonempty hw
    · rw [if_neg he] at h
      simpa only [if_neg he] using hE.known hv hw h
  stems {v e t} hv h := by
    simp only [SortedMap.mayBe_foldl_insert] at h ⊢
    by_cases he : e ∈ l
    · rw [if_pos he] at h
      simpa only [if_pos he] using hS.stems hv h
    · rw [if_neg he] at h
      simpa only [if_neg he] using hE.stems hv h

/-- Values at a node whose states stem from those at another node. -/
structure Threads (ctx : StatesContext) (n n' : NodeId) (T : NodeStates → NodeStates) :
    Prop where
  fits : ∀ {v}, ctx.Fits n v → ctx.Fits n' (T v)
  stems : ∀ {v c t}, ctx.Fits n v → (T v).map.MayBe c t →
    ctx.Stems n (fun w => (T w).map.MayBe c t) v

namespace Threads

theorem comp {T U : NodeStates → NodeStates} (hU : ctx.Threads n' n'' U)
    (hT : ctx.Threads n n' T) : ctx.Threads n n'' fun v => U (T v) where
  fits hv := hU.fits (hT.fits hv)
  stems {v c t} hv h := by
    rcases hU.stems (hT.fits hv) h with hall | ⟨c', t', hc', hall⟩
    · exact .inl fun w hw => hall (T w) (hT.fits hw)
    · exact (hT.stems hv hc').mono fun w hw hwc => hall (T w) (hT.fits hw) hwc

/-- A value with more states leads to one with more states. -/
theorem below {T : NodeStates → NodeStates} (hT : ctx.Threads n n' T) (hv : ctx.Fits n v)
    (hw : ctx.Fits n w) (hvw : v.Below w) : (T v).Below (T w) := by
  intro c t h
  rcases hT.stems hv h with hall | ⟨c', t', hc', hall⟩
  · exact hall w hw
  · exact hall w hw (hvw c' t' hc')

end Threads

section Gather

variable {exprs : ExprStates} {c : EquivClass} {t : State}

theorem mem_foldl_union {l : List Expr} {s : States} :
    t ∈ l.foldl (fun s e => SortedSet.union s ((exprs.get? e).getD ∅)) s ↔
      t ∈ s ∨ ∃ e ∈ l, exprs.MayBe e t := by
  induction l generalizing s with
  | nil => simp
  | cons a l ih =>
    rw [List.foldl_cons, ih, SortedSet.mem_union]
    have ha : t ∈ (exprs.get? a).getD ∅ ↔ exprs.MayBe a t := by
      cases h : exprs.get? a with
      | none => simp [SortedMap.MayBe, h]
      | some s' => simp [SortedMap.MayBe, h]
    simp [ha, or_assoc]

/-- A class has the states of its expressions, or the default one if they have none. -/
theorem mem_gather : t ∈ ctx.gather exprs c ↔
    (∃ e ∈ c, exprs.MayBe e t) ∨
      (∀ e ∈ c, ∀ t', ¬ exprs.MayBe e t') ∧ t = ctx.automaton.default := by
  have hmem : ∀ t, t ∈ c.toList.foldl (fun s e => SortedSet.union s ((exprs.get? e).getD ∅)) ∅ ↔
      ∃ e ∈ c, exprs.MayBe e t := by
    intro t
    rw [mem_foldl_union]
    exact or_iff_right (SortedSet.not_mem_empty t)
  unfold gather
  generalize c.toList.foldl (fun s e => SortedSet.union s ((exprs.get? e).getD ∅)) ∅ = s at hmem ⊢
  by_cases hs : s.isEmpty = true
  · have hnone : ∀ t, t ∉ s := by
      intro t ht
      rw [SortedSet.isEmpty, List.isEmpty_iff] at hs
      rw [SortedSet.mem_def, hs] at ht
      cases ht
    rw [if_pos hs, mem_defaults]
    constructor
    · intro h
      exact .inr ⟨fun e he t' ht' => hnone t' ((hmem t').2 ⟨e, he, ht'⟩), h⟩
    · rintro (h | h)
      · exact absurd ((hmem t).2 h) (hnone t)
      · exact h.2
  · rw [if_neg hs, hmem]
    refine ⟨.inl, fun h => h.resolve_right ?_⟩
    rintro ⟨hnone, -⟩
    obtain ⟨t', ht'⟩ := List.exists_mem_of_ne_nil s.toList (by
      simpa [SortedSet.isEmpty, List.isEmpty_iff] using hs)
    obtain ⟨e, he, h⟩ := (hmem t').1 ht'
    exact hnone e he t' h

theorem exists_mem_gather : ∃ t, t ∈ ctx.gather exprs c := by
  by_cases h : ∃ t, ∃ e ∈ c, exprs.MayBe e t
  · obtain ⟨t, ht⟩ := h
    exact ⟨t, mem_gather.2 (.inl ht)⟩
  · refine ⟨_, mem_gather.2 (.inr ⟨fun e he t' ht' => h ⟨t', e, he, ht'⟩, rfl⟩)⟩

theorem get?_regroup : (ctx.regroup n exprs ∅).map.get? c =
    if c ∈ ctx.classesAt n then some (ctx.gather exprs c) else none := by
  unfold regroup
  rw [SortedMap.get?_merge, SortedMap.get?_tabulate, SortedMap.get?_empty]
  split <;> simp_all

theorem mayBe_regroup : (ctx.regroup n exprs ∅).map.MayBe c t ↔
    c ∈ ctx.classesAt n ∧ t ∈ ctx.gather exprs c := by
  unfold SortedMap.MayBe
  rw [get?_regroup]
  split <;> simp_all

theorem fits_regroup : ctx.Fits n (ctx.regroup n exprs ∅) where
  node := rfl
  keys c := by
    rw [get?_regroup]
    split <;> simp_all
  nonempty {c s} hs := by
    rw [get?_regroup] at hs
    split at hs
    · exact Option.some.inj hs ▸ exists_mem_gather
    · cases hs

end Gather

section Scope

variable {scope : Option FunctionId}

theorem Fits.carried_eq (hv : ctx.Fits n v)
    (hscope : ∀ c ∈ ctx.classesAt n, EquivClass.isInScope c scope = true) :
    v.carried scope = ∅ := by
  refine SortedMap.entries_injective (List.filter_eq_nil_iff.2 fun x hx => ?_)
  have hc := (hv.keys x.1).1 ⟨x.2, SortedMap.mem_entries_iff.1 hx⟩
  simp [hscope x.1 hc]

theorem Fits.mayBe_flatten_of_mem (hreg : ctx.Regular) (hv : ctx.Fits n v)
    (hscope : ∀ c ∈ ctx.classesAt n, EquivClass.isInScope c scope = true) {c : EquivClass}
    (hc : c ∈ ctx.classesAt n) {e : Expr} (he : e ∈ c) {t : State} :
    (v.flatten scope).MayBe e t ↔ v.map.MayBe c t := by
  rw [NodeStates.mayBe_flatten]
  constructor
  · rintro ⟨d, hed, -, hd⟩
    exact hreg.disjoint (hv.mem_of_mayBe hd) hc hed he ▸ hd
  · intro h
    exact ⟨c, he, hscope c hc, h⟩

theorem exprThreads_flatten (ctx : StatesContext) (n : NodeId) (scope : Option FunctionId) :
    ctx.ExprThreads n (·.flatten scope) where
  known {v w e t} hv hw h := by
    obtain ⟨c, he, hc, h⟩ := NodeStates.mayBe_flatten.1 h
    obtain ⟨t', ht'⟩ := hw.exists_mayBe (hv.mem_of_mayBe h)
    exact ⟨t', NodeStates.mayBe_flatten.2 ⟨c, he, hc, ht'⟩⟩
  stems {v e t} hv h := by
    obtain ⟨c, he, hc, h⟩ := NodeStates.mayBe_flatten.1 h
    exact .inr ⟨c, t, h, fun w _ hw => NodeStates.mayBe_flatten.2 ⟨c, he, hc, hw⟩⟩

theorem ExprThreads.regroup {E : NodeStates → ExprStates} (hE : ctx.ExprThreads n E)
    (n' : NodeId) (hscope : ∀ c ∈ ctx.classesAt n, EquivClass.isInScope c scope = true) :
    ctx.Threads n n' fun v => ctx.regroup n' (E v) (v.carried scope) where
  fits {v} hv := by
    rw [hv.carried_eq hscope]
    exact fits_regroup
  stems {v c t} hv h := by
    simp only [hv.carried_eq hscope, mayBe_regroup] at h
    obtain ⟨hc, h⟩ := h
    have hto : ∀ w, ctx.Fits n w → t ∈ ctx.gather (E w) c →
        (ctx.regroup n' (E w) (w.carried scope)).map.MayBe c t := by
      intro w hw ht
      rw [hw.carried_eq hscope]
      exact mayBe_regroup.2 ⟨hc, ht⟩
    rcases mem_gather.1 h with ⟨e, he, h⟩ | ⟨hnone, hdefault⟩
    · exact (hE.stems hv h).mono fun w hw hwe => hto w hw (mem_gather.2 (.inl ⟨e, he, hwe⟩))
    · -- which expressions have states is the same for all values, so a class that gets the
      -- default state here gets it everywhere
      refine .inl fun w hw => hto w hw (mem_gather.2 (.inr ⟨fun e he t' ht' => ?_, hdefault⟩))
      obtain ⟨t'', ht''⟩ := hE.known hw hv ht'
      exact hnone e he t'' ht''

theorem threads_pass (hscope : ∀ c ∈ ctx.classesAt n,
    EquivClass.isInScope c (ctx.program.functionIdOf n') = true) :
    ctx.Threads n n' (ctx.pass · n') :=
  (exprThreads_flatten ctx n _).regroup n' hscope

theorem stateThreads_statesOf (hreg : ctx.Regular) (source : Expr) :
    ctx.StateThreads n fun v => (v.statesOf source).getD ctx.defaults := by
  cases hsource : (ctx.initial n).classOf source with
  | none =>
    have hdefault : ∀ w, ctx.Fits n w → (w.statesOf source).getD ctx.defaults = ctx.defaults := by
      intro w hw
      have hnone := (hw.classOf_congr hreg fits_initial).trans hsource
      rw [NodeStates.classOf, Option.map_eq_none_iff] at hnone
      rw [NodeStates.statesOf, hnone]
      rfl
    constructor
    · intro v hv
      exact ⟨_, hdefault v hv ▸ mem_defaults.2 rfl⟩
    · intro v t hv ht
      left
      intro w hw
      rw [hdefault w hw, ← hdefault v hv]
      exact ht
  | some c =>
    have hstates : ∀ w, ctx.Fits n w → ∀ t,
        t ∈ (w.statesOf source).getD ctx.defaults ↔ w.map.MayBe c t := by
      intro w hw t
      have hc := (hw.classOf_congr hreg fits_initial).trans hsource
      obtain ⟨⟨c', s⟩, hentry, rfl⟩ := Option.map_eq_some_iff.1 hc
      rw [NodeStates.statesOf, hentry]
      exact (SortedMap.mayBe_of_get? ((hw.entryOf_eq_some hreg).1 hentry).2).symm
    constructor
    · intro v hv
      obtain ⟨hc, -⟩ := (fits_initial.classOf_eq_some hreg).1 hsource
      obtain ⟨t, ht⟩ := hv.exists_mayBe hc
      exact ⟨t, (hstates v hv t).2 ht⟩
    · intro v t hv ht
      exact .inr ⟨c, t, (hstates v hv t).1 ht, fun w hw hwc => (hstates w hw t).2 hwc⟩

theorem threads_copied (hreg : ctx.Regular) (hscope : ∀ c ∈ ctx.classesAt n,
    EquivClass.isInScope c (ctx.program.functionIdOf n') = true) (target source : Expr) :
    ctx.Threads n n' (ctx.copied · n' target source) :=
  ((exprThreads_flatten ctx n _).insertAll (stateThreads_statesOf hreg source)
    [target]).regroup n' hscope

end Scope

end StatesContext

end Typestate
