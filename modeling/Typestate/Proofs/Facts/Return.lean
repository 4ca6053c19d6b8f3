import Typestate.Facts.Flow
import Typestate.Proofs.Facts.Renaming

/-!
# Facts at the return site of a call

A call gives its result the returned value and leaves the caller's variables alone. The facts
at the callee's exit hold at the return site, parameters renamed back to arguments, as far as
each parameter still has what its argument is worth there.
-/
namespace Typestate

namespace Facts

/-- The renaming of parameters back to arguments and of the returned value to the result. -/
def exitRenaming (callee : Function) (result : Option Expr) (args : List Expr) : Renaming :=
  (bindResult (argsBack (bindings callee args) (result.map Expr.simplify))
    (result.map Expr.simplify) callee.returned).1

/-- What a call writes by itself, and what its callee may. -/
def writtenBy (result : Option Expr) (args : List Expr) : List Expr :=
  addressTaken args ++ (result.map Expr.simplify).toList

theorem forall_mem_leave {P : Fact → Prop} (hP : ∀ f, f.isTautology = true → P f) {s : Facts}
    {caller : FunctionId} {callee : Function} {result : Option Expr} {args : List Expr} :
    (∀ g ∈ s.leave caller callee result args, P g) ↔
      (∀ g ∈ (bindResult (argsBack (bindings callee args) (result.map Expr.simplify))
        (result.map Expr.simplify) callee.returned).2, P g) ∧
      ∀ f ∈ s.sparing (writtenBy result args), ∀ g,
        rename? (exitRenaming callee result args) callee.id f = some g →
        isVisibleIn caller g = true → P g := by
  refine (forall_mem_addAll hP).trans (and_congr_right fun _ => ?_)
  constructor
  · intro h f hf g hg hvis
    refine h g (List.mem_filterMap.2 ⟨f, hf, ?_⟩)
    exact Option.filter_eq_some_iff.2 ⟨hg, hvis⟩
  · intro h g hg
    obtain ⟨f, hf, hfg⟩ := List.mem_filterMap.1 hg
    obtain ⟨hg, hvis⟩ := Option.filter_eq_some_iff.1 hfg
    exact h f hf g hg hvis

/-- What the returned value says of the result: it is the argument that the returned
parameter is renamed to, or the returned literal. -/
theorem forall_mem_bindResult {P : Fact → Prop} (hP : ∀ f, f.isTautology = true → P f)
    {r : Renaming} {result returned : Option Expr} :
    (∀ g ∈ (bindResult r result returned).2, P g) ↔
      ∀ x y, result = some x → returned = some y → ∀ z,
        (r.get? y = some z ∨ r.get? y = none ∧ y.isLiteral = true ∧ z = y) →
        P (Fact.of x .eq z) := by
  have hempty : ∀ g ∈ empty, P g := fun g hg => absurd hg (SortedSet.not_mem_empty _)
  cases result with
  | none => exact ⟨fun _ => nofun, fun _ => hempty⟩
  | some x =>
    cases returned with
    | none => exact ⟨fun _ _ _ _ => nofun, fun _ => hempty⟩
    | some y =>
      unfold bindResult
      have hstated : ∀ z, (∀ g ∈ empty.add (Fact.of x .eq z), P g) ↔ P (Fact.of x .eq z) :=
        fun z => (forall_mem_add hP).trans (and_iff_right hempty)
      cases hy : r.get? y with
      | some z => simpa [hy, -mem_add] using hstated z
      | none =>
        cases hlit : y.isLiteral with
        | true => simpa [hy, hlit, -mem_add] using hstated y
        | false => simpa [hy, hlit] using hempty

theorem argsBack_spec {l : List (Expr × Expr)} {result : Option Expr} {x e : Expr}
    (h : (argsBack l result).get? x = some e) : (x, e) ∈ l := by
  have fold : ∀ (rest : List (Expr × Expr)) (r : Renaming), (∀ b ∈ rest, b ∈ l) →
      (∀ x e, r.get? x = some e → (x, e) ∈ l) → ∀ x e,
      (rest.foldl (fun r b => if result = some b.2 then r else r.insert b.1 b.2) r).get? x =
        some e → (x, e) ∈ l := by
    intro rest
    induction rest with
    | nil => exact fun _ _ h => h
    | cons b rest ih =>
      intro r hl hr
      refine ih _ (fun b' hb' => hl b' (by simp [hb'])) fun x e hx => ?_
      dsimp only at hx
      split at hx
      · exact hr x e hx
      · rw [SortedMap.get?_insert] at hx
        split at hx
        · rename_i hxb
          obtain rfl := Option.some.inj hx
          subst hxb
          exact hl b (by simp)
        · exact hr x e hx
  exact fold l ∅ (fun _ h => h) (fun x e h => by simp at h) x e h

section

variable {caller : FunctionId} {callee : Function} {result : Option Expr} {args : List Expr}
  {v w : Valuation}

theorem exitRenaming_spec {e a : Expr} (h : (exitRenaming callee result args).get? e = some a) :
    (e, a) ∈ bindings callee args ∨
      callee.returned = some e ∧ e.isLiteral = false ∧ result.map Expr.simplify = some a := by
  unfold exitRenaming at h
  cases hres : result.map Expr.simplify with
  | none => exact .inl (argsBack_spec (by simpa [hres, bindResult] using h))
  | some x =>
    cases hret : callee.returned with
    | none => exact .inl (argsBack_spec (by simpa [hres, hret, bindResult] using h))
    | some y =>
      rw [hres, hret] at h
      simp only [bindResult] at h
      split at h
      · exact .inl (argsBack_spec h)
      · split at h
        · exact .inl (argsBack_spec h)
        · rename_i hlit
          rw [SortedMap.get?_insert] at h
          split at h
          · rename_i he
            exact .inr ⟨congrArg some he.symm, by simpa [he] using hlit, h⟩
          · exact .inl (argsBack_spec h)

theorem exitRenaming_literal (n : Int) :
    (exitRenaming callee result args).get? (.lit n) = none := by
  cases h : (exitRenaming callee result args).get? (.lit n) with
  | none => rfl
  | some a =>
    rcases exitRenaming_spec h with hmem | ⟨-, hlit, -⟩
    · obtain ⟨x, -, hx⟩ := List.mem_map.1 (List.of_mem_zip hmem).1
      cases hx
    · cases hlit

/-- The valuation after the return, by that at the callee's exit: what the caller sees and the
result is not part of keeps its value, the result gets the returned value, and memory is as
it was but for the result. -/
structure Returns (caller : FunctionId) (callee : Function) (result : Option Expr)
    (v w : Valuation) : Prop where
  kept : ∀ e, e.IsCanonical → (∀ x ∈ e.vars, x.owner = none ∨ x.owner = some caller) →
    (∀ x, result = some x → e.mentions x.simplify = false) → w.eval e = v.eval e
  returned : ∀ x y, result = some x → callee.returned = some y → w.eval x = v.eval y
  memory : v.ReadsAs w fun a => result.map Expr.simplify = some a

/-- Whether a new name makes sense at the return site. -/
def SeenOnReturn (caller : FunctionId) (callee : Function) (r : Renaming) (a : Expr) : Prop :=
  inScopeAfter callee.id r a = true ∧ ∀ x ∈ a.vars, x.owner = none ∨ x.owner = some caller

/-- What a call returns may change under its new name: what has one, an address, what an
address points to, and what turns into the result. -/
def ShiftsOnReturn (result : Option Expr) (r : Renaming) (e : Expr) : Prop :=
  (∃ a, r.get? e = some a) ∨ (∃ t, e = .addrOf t) ∨
    (∃ b t, e = .deref b ∧ (b.substitute r.get?).simplify = .addrOf t) ∨
    result.map Expr.simplify = some (e.substitute r.get?).simplify

/-- An expression whose facts travel back to the caller and say there nothing of expressions
that are exempt. -/
structure TravelsBack (exempt : List Expr) (caller : FunctionId) (callee : Function)
    (result : Option Expr) (args : List Expr) (e : Expr) : Prop where
  travels : Travels (exitRenaming callee result args) (writtenBy result args)
    (SeenOnReturn caller callee (exitRenaming callee result args)) e
  exempt : ∀ t ∈ exempt,
    (e.substitute (exitRenaming callee result args).get?).simplify.mentions t = false

/-- Whether what travels back and may change under its new name is worth there what it was
worth at the exit, and so is a returned parameter. -/
structure ReturnAgrees (exempt : List Expr) (caller : FunctionId) (callee : Function)
    (result : Option Expr) (args : List Expr) (v w : Valuation) : Prop where
  returned : ∀ x y z, result.map Expr.simplify = some x → callee.returned = some y →
    (argsBack (bindings callee args) (result.map Expr.simplify)).get? y = some z →
    (∀ t ∈ exempt, (Fact.of x .eq z).mentions t = false) → w.eval z = v.eval y
  carried : ∀ e, TravelsBack exempt caller callee result args e →
    ShiftsOnReturn result (exitRenaming callee result args) e →
    Agrees (exitRenaming callee result args) v w e

theorem agrees_on_return {exempt : List Expr} (hne : caller ≠ callee.id)
    (hvw : Returns caller callee result v w)
    (h : ReturnAgrees exempt caller callee result args v w) {e : Expr}
    (he : TravelsBack exempt caller callee result args e) :
    Agrees (exitRenaming callee result args) v w e := by
  refine agrees_of_atRisk (P := TravelsBack exempt caller callee result args)
    hvw.memory ?_ ?_ he.travels.canonical he
  · intro e he hrisk c hc
    have hchild := substitute_mem_children (get?_of_not_atRisk hrisk) hc
    have hseen : ∀ x ∈ (c.substitute (exitRenaming callee result args).get?).vars,
        x.owner = none ∨ x.owner = some caller :=
      fun x hx => he.travels.seen.2 x (Expr.mem_vars_of_mem_children hchild hx)
    refine ⟨⟨he.travels.canonical.of_mem_children hc, fun x hx =>
      Expr.not_mentions_of_mem_children hc (he.travels.spared x hx), ?_, hseen⟩, fun t ht =>
      Expr.not_mentions_of_mem_children (simplify_substitute_mem_children hrisk hc)
        (he.exempt t ht)⟩
    refine inScopeAfter_iff.2 (.inl (Expr.isScopedTo_eq_false.2 fun x hx howner => ?_))
    rcases hseen x hx with h | h
    · cases h.symm.trans howner
    · exact hne (Option.some.inj (h.symm.trans howner))
  · intro e he hrisk
    cases hrisk with
    | leaf hleaf =>
      cases hget : (exitRenaming callee result args).get? e with
      | some a => exact h.carried e he (.inl ⟨a, hget⟩)
      | none =>
        have hsub := substitute_leaf hget hleaf
        rw [Agrees, hsub]
        apply hvw.kept e he.travels.canonical (hsub ▸ he.travels.seen.2)
        intro x hx
        exact he.travels.spared _ (List.mem_append.2 (.inr (by simp [hx])))
    | renamed ha => exact h.carried e he (.inl ⟨_, ha⟩)
    | address ht => exact h.carried e he (.inr (.inl ⟨_, ht⟩))
    | target hb ht => exact h.carried e he (.inr (.inr (.inl ⟨_, _, hb, ht⟩)))
    | written hw => exact h.carried e he (.inr (.inr (.inr hw)))

theorem isVisibleIn_of {a b : Expr} {op : Comparison} :
    isVisibleIn caller (Fact.of a op b) = true ↔
      (∀ x ∈ a.vars, x.owner = none ∨ x.owner = some caller) ∧
      ∀ x ∈ b.vars, x.owner = none ∨ x.owner = some caller := by
  simp only [isVisibleIn, List.all_eq_true, mem_vars_of, Bool.or_eq_true, beq_iff_eq]
  exact ⟨fun h => ⟨fun x hx => h x (.inl hx), fun x hx => h x (.inr hx)⟩,
    fun h x hx => hx.elim (h.1 x) (h.2 x)⟩

/-- What says nothing of exempt expressions holds after the return. -/
theorem holds_leave_of_agrees {exempt : List Expr} (hne : caller ≠ callee.id)
    (hvw : Returns caller callee result v w)
    (h : ReturnAgrees exempt caller callee result args v w) {s : Facts} (hv : v.Satisfies s) :
    ∀ g ∈ s.leave caller callee result args,
      (∀ t ∈ exempt, g.mentions t = false) → w.Holds g := by
  have hP : ∀ g : Fact, g.isTautology = true →
      (∀ t ∈ exempt, g.mentions t = false) → w.Holds g :=
    fun _ htaut _ => Valuation.holds_of_isTautology htaut
  refine (forall_mem_leave hP).2 ⟨(forall_mem_bindResult hP).2 ?_, ?_⟩
  · intro x y hx hy z hz hexempt
    obtain ⟨x', rfl, rfl⟩ := Option.map_eq_some_iff.1 hx
    rw [Valuation.holds_of, w.eval_simplify]
    apply (hvw.returned x' y rfl hy).trans
    rcases hz with hz | ⟨-, hlit, rfl⟩
    · exact (h.returned _ y z hx hy hz hexempt).symm
    · obtain ⟨n, hn⟩ := Option.isSome_iff_exists.1 hlit
      rw [v.eval_of_literal? hn, w.eval_of_literal? hn]
  · intro f hf g hg hvis hexempt
    obtain ⟨hl, hr, rfl⟩ := rename?_eq_some.1 hg
    obtain ⟨hvl, hvr⟩ := isVisibleIn_of.1 hvis
    obtain ⟨htl, htr⟩ := travels_of_mem_sparing hf
      (SeenOnReturn caller callee (exitRenaming callee result args)) ⟨hl, hvl⟩ ⟨hr, hvr⟩
    have hel : ∀ t ∈ exempt, _ := fun t ht => (mentions_of.1 (hexempt t ht)).1
    have her : ∀ t ∈ exempt, _ := fun t ht => (mentions_of.1 (hexempt t ht)).2
    exact holds_rename (hv f (mem_sparing.1 hf).1) (agrees_on_return hne hvw h ⟨htl, hel⟩)
      (agrees_on_return hne hvw h ⟨htr, her⟩)

theorem returnAgrees_of_holds {exempt : List Expr} (hlit : ∀ n, .lit n ∉ writtenBy result args)
    (hexempt : ∀ n, .lit n ∉ exempt) (hvw : Returns caller callee result v w)
    (h : ∀ s, v.Satisfies s → ∀ g ∈ s.leave caller callee result args,
      (∀ t ∈ exempt, g.mentions t = false) → w.Holds g) :
    ReturnAgrees exempt caller callee result args v w := by
  have hP : ∀ g : Fact, g.isTautology = true →
      (∀ t ∈ exempt, g.mentions t = false) → w.Holds g :=
    fun _ htaut _ => Valuation.holds_of_isTautology htaut
  refine ⟨?_, ?_⟩
  · intro x y z hx hy hz hmention
    have hbind := (forall_mem_bindResult hP).1
      ((forall_mem_leave hP).1 (h ∅ Valuation.satisfies_empty)).1
    have hxz := Valuation.holds_of.1 (hbind x y hx hy z (.inl hz) hmention)
    obtain ⟨x', rfl, rfl⟩ := Option.map_eq_some_iff.1 hx
    rw [w.eval_simplify, hvw.returned x' y rfl hy] at hxz
    exact hxz.symm
  · intro e he _
    cases hl : e.isLiteral with
    | true => exact agrees_of_isLiteral exitRenaming_literal hl
    | false =>
      obtain ⟨hsat, hmem⟩ :=
        valueFact_mem_sparing (v := v) he.travels.canonical hl hlit he.travels.spared
      obtain ⟨hleft, -, hright⟩ := valueFact_eq (v := v) he.travels.canonical hl
      apply agrees_of_valueFact exitRenaming_literal he.travels.canonical hl
      refine ((forall_mem_leave hP).1 (h _ hsat)).2 _ hmem _
        (rename?_eq_some.2 ⟨?_, ?_, rfl⟩) (isVisibleIn_of.2 ⟨?_, ?_⟩) fun t ht =>
          mentions_of.2 ⟨?_, ?_⟩
      · rw [hleft]
        exact he.travels.seen.1
      · rw [hright, substitute_leaf (exitRenaming_literal _) rfl]
        exact inScopeAfter_iff.2 (.inl rfl)
      · rw [hleft]
        exact he.travels.seen.2
      · rw [hright, substitute_leaf (exitRenaming_literal _) rfl]
        exact fun x hx => absurd hx List.not_mem_nil
      · rw [hleft]
        exact he.exempt t ht
      · have htn : t ≠ .lit (v.eval e) := fun heq => hexempt _ (heq ▸ ht)
        rw [hright, substitute_leaf (exitRenaming_literal _) rfl]
        simpa [Expr.simplify, Expr.mentions, Expr.subexprs] using htn

end

end Facts

namespace Program

/-- An edge from a callee's exit to a return site, with the caller and the call. -/
structure LeavesAt (p : Program) (e : EdgeId) (caller : FunctionId) (callee : Function)
    (result : Option Expr) (args : List Expr) : Prop where
  edge : ∃ edge call, p.edges[e]? = some edge ∧ edge.kind = .leave call ∧
    p.functionOf edge.source = some callee ∧ p.functionIdOf call = some caller ∧
    p.callAt call = some (result, args)

variable {p : Program} {e : EdgeId} {caller : FunctionId} {callee : Function}
  {result : Option Expr} {args : List Expr} {v w : Valuation}

theorem LeavesAt.factsAfter (h : p.LeavesAt e caller callee result args) (s : Facts) :
    p.factsAfter s e = some (s.leave caller callee result args) := by
  obtain ⟨edge, call, hedge, hkind, hcallee, hcaller, hcall⟩ := h.edge
  simp [Program.factsAfter, hedge, hkind, hcallee, hcaller, hcall]

/-- What holds at a callee's exit and says nothing of what an argument is the address of holds
at the return site exactly when parameters, addresses and what turns into the result are worth
the same under their new names. Then, if none of it is exempt, the edge is possible. -/
theorem leave_sound_iff (he : p.LeavesAt e caller callee result args) (hne : caller ≠ callee.id)
    (hvw : Facts.Returns caller callee result v w) :
    (Facts.ReturnAgrees (Facts.addressTaken args) caller callee result args v w →
      ∀ s, v.Satisfies s → ∃ t, p.factsAfter s e = some t ∧
        ∀ f ∈ t, (∀ x ∈ Facts.addressTaken args, f.mentions x = false) → w.Holds f) ∧
    ((∀ n, .lit n ∉ Facts.writtenBy result args) →
      (∀ s, v.Satisfies s → ∃ t, p.factsAfter s e = some t ∧
        ∀ f ∈ t, (∀ x ∈ Facts.addressTaken args, f.mentions x = false) → w.Holds f) →
      Facts.ReturnAgrees (Facts.addressTaken args) caller callee result args v w) ∧
    (Facts.ReturnAgrees [] caller callee result args v w →
      ∀ s, v.Satisfies s → ∃ t, (p.factsFlow s e).1 = some t ∧ w.Satisfies t) := by
  refine ⟨fun h s hs => ⟨_, he.factsAfter s, Facts.holds_leave_of_agrees hne hvw h hs⟩, ?_, ?_⟩
  · intro hlit hsound
    refine Facts.returnAgrees_of_holds hlit (fun n hn => hlit n (List.mem_append.2 (.inl hn)))
      hvw fun s hs => ?_
    obtain ⟨t, ht, hw⟩ := hsound s hs
    obtain rfl : s.leave caller callee result args = t :=
      Option.some.inj ((he.factsAfter s).symm.trans ht)
    exact hw
  · intro h s hs
    have hw : w.Satisfies (s.leave caller callee result args) := fun g hg =>
      Facts.holds_leave_of_agrees hne hvw h hs g hg fun _ ht => absurd ht List.not_mem_nil
    exact ⟨_, factsFlow_eq_some.2 ⟨he.factsAfter s, Facts.isPossible_of_satisfies hw⟩, hw⟩

section Reassigned

def reassigned : Variable := ⟨"a", some 1, .param, .integer⟩

def passed : Variable := ⟨"x", some 0, .localVar, .integer⟩

def reassigningFunction : Function := ⟨1, "f", [reassigned], [], 3, 4, none, none, none⟩

/-- A function `main` that calls `f(x)`, which sets its parameter to 5. -/
def reassigning : Program :=
  { nodes := #[⟨none, .root, none, none⟩, ⟨some 0, .entry, none, none⟩,
      ⟨some 0, .exit, none, none⟩, ⟨some 1, .entry, none, none⟩, ⟨some 1, .exit, none, none⟩,
      ⟨some 1, .statement, some (.assign (.var reassigned) (.use (.lit 5))), none⟩,
      ⟨some 0, .call, some (.call none "f" [.var passed]), none⟩,
      ⟨some 0, .returnSite, none, none⟩]
    edges := #[⟨3, 5, .flow .always⟩, ⟨5, 4, .flow .always⟩, ⟨6, 3, .enter⟩,
      ⟨6, 7, .callToReturn⟩, ⟨4, 7, .leave 6⟩, ⟨1, 6, .flow .always⟩, ⟨7, 2, .flow .always⟩,
      ⟨0, 1, .root⟩]
    functions := #[⟨0, "main", [], [passed], 1, 2, none, none, none⟩, reassigningFunction]
    globals := [] }

theorem leavesAt_reassigning :
    reassigning.LeavesAt 4 0 reassigningFunction none [.var passed] :=
  ⟨⟨_, 6, rfl, rfl, rfl, rfl, rfl⟩⟩

def atExit (a x : Int) : Valuation := .table [(.var reassigned, a), (.var passed, x)]

def afterReturn (x : Int) : Valuation := .table [(.var passed, x)]

theorem returns_reassigning (a x : Int) :
    Facts.Returns 0 reassigningFunction none (atExit a x) (afterReturn x) where
  kept e hc he _ := by
    have hne : (e == .var reassigned) = false := by
      apply beq_eq_false_iff_ne.2
      rintro rfl
      simpa [reassigned] using he reassigned
        (by simp [Expr.vars, Expr.subexprs, Expr.asVariable])
    simp [atExit, afterReturn, Valuation.eval, Valuation.table,
      Expr.simplify_of_isCanonical hc, List.lookup_cons, hne]
  returned x y hx _ := by cases hx
  memory := Valuation.readsAs_table (by simp) (by simp) _

theorem exitRenaming_reassigning {e a : Expr}
    (h : (Facts.exitRenaming reassigningFunction none [.var passed]).get? e = some a) :
    e = .var reassigned ∧ a = .var passed := by
  rcases Facts.exitRenaming_spec h with hmem | ⟨hret, -⟩
  · simpa [Facts.bindings, reassigningFunction, Function.paramExprs, Expr.simplify] using hmem
  · cases hret

/-- If `f` is passed what it sets its parameter to, the return is sound. -/
theorem leave_sound_reassigning :
    ∃ t, (reassigning.factsFlow (.ofList [.of (.var reassigned) .eq (.lit 5)]) 4).1 = some t ∧
      (afterReturn 5).Satisfies t := by
  have hagree : Facts.ReturnAgrees [] 0 reassigningFunction none [.var passed]
      (atExit 5 5) (afterReturn 5) := by
    refine ⟨(fun _ _ _ hx => nomatch hx), fun e he hshift => ?_⟩
    have hvar : ∀ e a, (Facts.exitRenaming reassigningFunction none [.var passed]).get? e =
        some a → ∃ x, a = .var x := fun e a h => ⟨passed, (exitRenaming_reassigning h).2⟩
    have hc := he.travels.canonical
    rcases hshift with ⟨a, ha⟩ | ⟨t, rfl⟩ | ⟨b, t, rfl, ht⟩ | hres
    · obtain ⟨rfl, rfl⟩ := exitRenaming_reassigning ha
      rw [Facts.Agrees, Facts.substitute_of_get? ha]
      rfl
    · apply Facts.agrees_table_addrOf (by simp) (by simp) hvar hc
      cases h : (Facts.exitRenaming reassigningFunction none [.var passed]).get? (.addrOf t) with
      | none => rfl
      | some a => cases (exitRenaming_reassigning h).1
    · obtain ⟨hcb, haddr, -⟩ := Facts.isCanonical_substitute hvar hc.1
      rw [Expr.simplify_of_isCanonical hcb] at ht
      obtain ⟨u, rfl⟩ := haddr t ht
      exact absurd rfl (hc.2 u)
    · cases hres
  exact (leave_sound_iff leavesAt_reassigning (by decide) (returns_reassigning 5 5)).2.2 hagree
    _ (Valuation.satisfies_empty.addAll (by decide))

/-- If `f` is passed another number, what it knows of its parameter contradicts what is known
of the argument, and the return is found impossible. -/
theorem leave_reassigning_unsound :
    ∃ (v w : Valuation) (s : Facts),
      Facts.Returns 0 reassigningFunction none v w ∧ v.Satisfies s ∧
      (reassigning.factsFlow s 4).1 = none := by
  exact ⟨atExit 5 7, afterReturn 7,
    .ofList [.of (.var reassigned) .eq (.lit 5), .of (.var passed) .eq (.lit 7)],
    returns_reassigning 5 7, Valuation.satisfies_empty.addAll (by decide), by decide +kernel⟩

end Reassigned

end Program

end Typestate
