import Typestate.Facts.Flow
import Typestate.Proofs.Facts.Renaming

/-!
# Facts at the entry of a callee
-/
namespace Typestate

namespace Facts

/-- What binding some parameters to arguments has made: an argument is renamed to a parameter
that gets it, and each fact says what a parameter gets. -/
structure Binds (l : List (Expr × Expr)) (acc : Renaming × Facts) : Prop where
  renamed : ∀ e x, acc.1.get? e = some x → (x, e) ∈ l ∧ e.isLiteral = false
  stated : ∀ f ∈ acc.2, ∃ x e y, (x, e) ∈ l ∧ f = Fact.of x .eq y ∧
    (y = e ∧ e.isLiteral = true ∨ (y, e) ∈ l)

theorem Binds.bindArg {l : List (Expr × Expr)} {acc : Renaming × Facts} (h : Binds l acc)
    {b : Expr × Expr} (hb : b ∈ l) : Binds l (bindArg acc b) := by
  unfold Facts.bindArg
  split
  · rename_i hlit
    refine ⟨h.renamed, fun f hf => ?_⟩
    rcases mem_add.1 hf with ⟨rfl, -⟩ | hf
    · exact ⟨b.1, b.2, b.2, hb, rfl, .inl ⟨rfl, hlit⟩⟩
    · exact h.stated f hf
  · rename_i hlit
    split
    · rename_i first hfirst
      refine ⟨h.renamed, fun f hf => ?_⟩
      rcases mem_add.1 hf with ⟨rfl, -⟩ | hf
      · exact ⟨b.1, b.2, first, hb, rfl, .inr (h.renamed _ _ hfirst).1⟩
      · exact h.stated f hf
    · refine ⟨fun e x hx => ?_, h.stated⟩
      rw [SortedMap.get?_insert] at hx
      split at hx
      · rename_i he
        obtain rfl := Option.some.inj hx
        subst he
        exact ⟨hb, by simpa using hlit⟩
      · exact h.renamed e x hx

theorem binds_bindArgs (l : List (Expr × Expr)) : Binds l (bindArgs l) := by
  have fold : ∀ (rest : List (Expr × Expr)) (acc : Renaming × Facts), (∀ b ∈ rest, b ∈ l) →
      Binds l acc → Binds l (rest.foldl Facts.bindArg acc) := by
    intro rest
    induction rest with
    | nil => exact fun _ _ h => h
    | cons b rest ih =>
      intro acc hl h
      exact ih _ (fun b' hb' => hl b' (by simp [hb'])) (h.bindArg (hl b (by simp)))
  exact fold l (∅, empty) (fun _ h => h)
    ⟨fun e x h => by simp at h, fun f hf => absurd hf (SortedSet.not_mem_empty _)⟩

/-- The renaming of arguments to parameters. -/
def entryRenaming (callee : Function) (args : List Expr) : Renaming :=
  (bindArgs (bindings callee args)).1

theorem forall_mem_carryIn {P : Fact → Prop} (hP : ∀ f, f.isTautology = true → P f)
    {r : Renaming} {caller : FunctionId} {callee : Function} {out : Facts} {f : Fact} :
    (∀ g ∈ carryIn r caller callee out f, P g) ↔
      (∀ g ∈ out, P g) ∧ (∀ g, rename? r caller f = some g → P g) ∧
        (caller ≠ callee.id ∧ isOwnedBy caller f = true → P f) := by
  have hadd : (∀ g ∈ out.addAll (rename? r caller f).toList, P g) ↔
      (∀ g ∈ out, P g) ∧ ∀ g, rename? r caller f = some g → P g := by
    refine (forall_mem_addAll hP).trans (and_congr_right fun _ => ?_)
    simp only [Option.mem_toList]
  unfold carryIn
  split
  · rename_i howned
    rw [forall_mem_add hP, hadd, and_assoc]
    simp [howned]
  · rename_i howned
    rw [hadd]
    simp [howned]

theorem forall_mem_enter {P : Fact → Prop} (hP : ∀ f, f.isTautology = true → P f) {s : Facts}
    {caller : FunctionId} {callee : Function} {args : List Expr} :
    (∀ g ∈ s.enter caller callee args, P g) ↔
      (∀ g ∈ (bindArgs (bindings callee args)).2, P g) ∧
      ∀ f ∈ s.sparing (addressTaken args),
        (∀ g, rename? (entryRenaming callee args) caller f = some g → P g) ∧
        (caller ≠ callee.id ∧ isOwnedBy caller f = true → P f) := by
  have fold : ∀ (l : List Fact) (out : Facts),
      (∀ g ∈ l.foldl (carryIn (entryRenaming callee args) caller callee) out, P g) ↔
      (∀ g ∈ out, P g) ∧ ∀ f ∈ l,
        (∀ g, rename? (entryRenaming callee args) caller f = some g → P g) ∧
        (caller ≠ callee.id ∧ isOwnedBy caller f = true → P f) := by
    intro l
    induction l with
    | nil => simp
    | cons f l ih =>
      intro out
      rw [List.foldl_cons, ih, forall_mem_carryIn hP, List.forall_mem_cons, and_assoc]
  exact fold _ _

/-- The valuation at the entry of a callee, where parameters are worth their arguments, other
expressions without variables of the callee what they were, and memory is as it was. -/
structure Enters (callee : Function) (args : List Expr) (v w : Valuation) : Prop where
  params : ∀ x e, (x, e) ∈ bindings callee args → w.eval x = v.eval e
  others : ∀ e, e.IsCanonical → e.isScopedTo callee.id = false → w.eval e = v.eval e
  memory : v.ReadsAs w fun _ => False

/-- Without a new name an address, or a variable that the callee has too, may mean something
else in the callee. -/
def ShiftsOnEntry (callee : Function) (r : Renaming) (e : Expr) : Prop :=
  r.get? e = none ∧
    ((∃ t, e = .addrOf t) ∨ e.children = [] ∧ e.isScopedTo callee.id = true)

/-- Whether each travelling expression that may shift on entry is worth the same in the
callee. -/
def EntryAgrees (caller : FunctionId) (callee : Function) (args : List Expr) (v w : Valuation) :
    Prop :=
  ∀ e, Travels (entryRenaming callee args) (addressTaken args)
      (fun a => inScopeAfter caller (entryRenaming callee args) a = true) e →
    ShiftsOnEntry callee (entryRenaming callee args) e → Agrees (entryRenaming callee args) v w e

section

variable {caller : FunctionId} {callee : Function} {args : List Expr} {v w : Valuation}

theorem entryRenaming_spec {e a : Expr} (h : (entryRenaming callee args).get? e = some a) :
    (∃ x, a = .var x) ∧ (a, e) ∈ bindings callee args ∧ e.isLiteral = false := by
  obtain ⟨hmem, hlit⟩ := (binds_bindArgs (bindings callee args)).renamed e a h
  obtain ⟨x, -, rfl⟩ := List.mem_map.1 (List.of_mem_zip hmem).1
  exact ⟨⟨x, rfl⟩, hmem, hlit⟩

/-- Every travelling expression is worth the same in the callee if those that may shift are. -/
theorem agrees_on_entry (hvw : Enters callee args v w) (h : EntryAgrees caller callee args v w)
    {e : Expr} (he : Travels (entryRenaming callee args) (addressTaken args)
      (fun a => inScopeAfter caller (entryRenaming callee args) a = true) e) :
    Agrees (entryRenaming callee args) v w e := by
  refine agrees_of_atRisk (P := Travels (entryRenaming callee args) (addressTaken args) _)
    hvw.memory ?_ ?_ he.canonical he
  · intro e he hrisk c hc
    have hchild := substitute_mem_children (get?_of_not_atRisk hrisk) hc
    refine ⟨he.canonical.of_mem_children hc,
      fun x hx => Expr.not_mentions_of_mem_children hc (he.spared x hx), ?_⟩
    rcases inScopeAfter_iff.1 he.seen with hscope | ⟨k, hk⟩
    · refine inScopeAfter_iff.2 (.inl (Expr.isScopedTo_eq_false.2 fun x hx => ?_))
      exact Expr.isScopedTo_eq_false.1 hscope x (Expr.mem_vars_of_mem_children hchild hx)
    · obtain ⟨⟨x, hx⟩, -⟩ := entryRenaming_spec hk
      rw [hx] at hchild
      cases hchild
  · intro e he hrisk
    cases hget : (entryRenaming callee args).get? e with
    | some a =>
      rw [Agrees, substitute_of_get? hget]
      exact hvw.params a e (entryRenaming_spec hget).2.1
    | none =>
      cases hrisk with
      | leaf hleaf =>
        cases hscope : e.isScopedTo callee.id with
        | true => exact h e he ⟨hget, .inr ⟨hleaf, hscope⟩⟩
        | false =>
          rw [Agrees, substitute_leaf hget hleaf]
          exact hvw.others e he.canonical hscope
      | renamed hk =>
        rw [hget] at hk
        cases hk
      | address ht => exact h e he ⟨hget, .inl ⟨_, ht⟩⟩
      | target hb ht =>
        subst hb
        have hc := he.canonical
        obtain ⟨hcb, haddr, -⟩ :=
          isCanonical_substitute (fun _ _ hk => (entryRenaming_spec hk).1) hc.1
        rw [Expr.simplify_of_isCanonical hcb] at ht
        obtain ⟨u, rfl⟩ := haddr _ ht
        exact absurd rfl (hc.2 u)
      | written hw => exact absurd hw id

theorem satisfies_bindArgs (hvw : Enters callee args v w) :
    w.Satisfies (bindArgs (bindings callee args)).2 := by
  intro f hf
  obtain ⟨x, e, y, hx, rfl, hy⟩ := (binds_bindArgs _).stated f hf
  refine Valuation.holds_of.2 ((hvw.params x e hx).trans ?_)
  rcases hy with ⟨rfl, hlit⟩ | hy
  · obtain ⟨n, hn⟩ := Option.isSome_iff_exists.1 hlit
    rw [v.eval_of_literal? hn, w.eval_of_literal? hn]
  · exact (hvw.params y e hy).symm

theorem holds_of_isOwnedBy (hvw : Enters callee args v w) {f : Fact} (hf : v.Holds f)
    (hne : caller ≠ callee.id) (howned : isOwnedBy caller f = true) : w.Holds f := by
  have howner : ∀ x ∈ f.vars, x.owner = some caller := by
    have := (Bool.and_eq_true _ _ ▸ howned : _ ∧ _).2
    simpa using this
  have hscope : ∀ e : Expr, (∀ x ∈ e.vars, x ∈ f.vars) → e.isScopedTo callee.id = false := by
    refine fun e he => Expr.isScopedTo_eq_false.2 fun x hx => ?_
    rw [howner x (he x hx)]
    exact fun h => hne (Option.some.inj h)
  have hl := hscope f.left fun x hx => List.mem_append.2 (.inl hx)
  have hr := hscope f.right fun x hx => List.mem_append.2 (.inr hx)
  rw [Valuation.Holds, hvw.others _ f.left_canonical hl, hvw.others _ f.right_canonical hr]
  exact hf

theorem satisfies_enter_of_agrees (hvw : Enters callee args v w)
    (h : EntryAgrees caller callee args v w) {s : Facts} (hv : v.Satisfies s) :
    w.Satisfies (s.enter caller callee args) := by
  refine (forall_mem_enter fun _ => Valuation.holds_of_isTautology).2
    ⟨satisfies_bindArgs hvw, fun f hf => ?_⟩
  have hfv := hv f (mem_sparing.1 hf).1
  refine ⟨fun g hg => ?_, fun howned => holds_of_isOwnedBy hvw hfv howned.1 howned.2⟩
  obtain ⟨hl, hr, rfl⟩ := rename?_eq_some.1 hg
  obtain ⟨htl, htr⟩ := travels_of_mem_sparing hf
    (fun a => inScopeAfter caller (entryRenaming callee args) a = true) hl hr
  exact holds_rename hfv (agrees_on_entry hvw h htl) (agrees_on_entry hvw h htr)

theorem entryAgrees_of_satisfies (hlit : ∀ n, .lit n ∉ addressTaken args)
    (h : ∀ s, v.Satisfies s → w.Satisfies (s.enter caller callee args)) :
    EntryAgrees caller callee args v w := by
  have hkeys : ∀ n, (entryRenaming callee args).get? (.lit n) = none := by
    intro n
    cases hk : (entryRenaming callee args).get? (.lit n) with
    | none => rfl
    | some a => cases (entryRenaming_spec hk).2.2
  intro e he _
  cases hl : e.isLiteral with
  | true => exact agrees_of_isLiteral hkeys hl
  | false =>
    obtain ⟨hsat, hmem⟩ := valueFact_mem_sparing (v := v) he.canonical hl hlit he.spared
    obtain ⟨hleft, -, hright⟩ := valueFact_eq (v := v) he.canonical hl
    apply agrees_of_valueFact hkeys he.canonical hl
    have hfacts := (forall_mem_enter fun _ => Valuation.holds_of_isTautology).1 (h _ hsat)
    refine (hfacts.2 _ hmem).1 _ (rename?_eq_some.2 ⟨?_, ?_, rfl⟩)
    · rw [hleft]
      exact he.seen
    · rw [hright, substitute_leaf (hkeys _) rfl]
      exact inScopeAfter_iff.2 (.inl rfl)

end

end Facts

namespace Program

/-- An edge into a callee, with the caller and the arguments of the call. -/
structure EntersAt (p : Program) (e : EdgeId) (caller : FunctionId) (callee : Function)
    (args : List Expr) : Prop where
  edge : ∃ edge result, p.edges[e]? = some edge ∧ edge.kind = .enter ∧
    p.functionOf edge.target = some callee ∧ p.functionIdOf edge.source = some caller ∧
    p.callAt edge.source = some (result, args)

variable {p : Program} {e : EdgeId} {caller : FunctionId} {callee : Function}
  {args : List Expr} {v w : Valuation}

theorem EntersAt.factsAfter (h : p.EntersAt e caller callee args) (s : Facts) :
    p.factsAfter s e = some (s.enter caller callee args) := by
  obtain ⟨edge, result, hedge, hkind, hcallee, hcaller, hcall⟩ := h.edge
  simp [Program.factsAfter, hedge, hkind, hcallee, hcaller, hcall]

/-- Whatever holds at a call holds at the entry of the callee, and the edge is possible,
exactly when addresses and variables of the callee that travel keep what they are worth. -/
theorem enter_sound_iff (he : p.EntersAt e caller callee args)
    (hvw : Facts.Enters callee args v w) :
    (Facts.EntryAgrees caller callee args v w →
      ∀ s, v.Satisfies s → ∃ t, (p.factsFlow s e).1 = some t ∧ w.Satisfies t) ∧
    ((∀ n, .lit n ∉ Facts.addressTaken args) →
      (∀ s, v.Satisfies s → ∃ t, (p.factsFlow s e).1 = some t ∧ w.Satisfies t) →
      Facts.EntryAgrees caller callee args v w) := by
  constructor
  · intro hagree s hs
    have hw := Facts.satisfies_enter_of_agrees hvw hagree hs
    exact ⟨_, factsFlow_eq_some.2 ⟨he.factsAfter s, Facts.isPossible_of_satisfies hw⟩, hw⟩
  · intro hlit hsound
    apply Facts.entryAgrees_of_satisfies hlit
    intro s hs
    obtain ⟨t, ht, hw⟩ := hsound s hs
    obtain rfl : s.enter caller callee args = t :=
      Option.some.inj ((he.factsAfter s).symm.trans (factsFlow_eq_some.1 ht).1)
    exact hw

section Recursion

def firstParam : Variable := ⟨"a", some 0, .param, .integer⟩

def secondParam : Variable := ⟨"b", some 0, .param, .integer⟩

def recursingFunction : Function :=
  ⟨0, "f", [firstParam, secondParam], [], 1, 2, none, none, none⟩

/-- A function `f(a, b)` that calls itself with some arguments. -/
def recursing (args : List Expr) : Program :=
  { nodes := #[⟨none, .root, none, none⟩, ⟨some 0, .entry, none, none⟩,
      ⟨some 0, .exit, none, none⟩, ⟨some 0, .call, some (.call none "f" args), none⟩,
      ⟨some 0, .returnSite, none, none⟩]
    edges := #[⟨3, 1, .enter⟩, ⟨3, 4, .callToReturn⟩, ⟨2, 4, .leave 3⟩, ⟨1, 3, .flow .always⟩,
      ⟨4, 2, .flow .always⟩, ⟨0, 1, .root⟩]
    functions := #[recursingFunction]
    globals := [] }

theorem entersAt_recursing (args : List Expr) :
    (recursing args).EntersAt 0 0 recursingFunction args :=
  ⟨⟨_, none, rfl, rfl, rfl, rfl, rfl⟩⟩

def activation (a b : Int) : Valuation :=
  .table [(.var firstParam, a), (.var secondParam, b)]

theorem variables_activation (a b : Int) :
    ∀ x ∈ [(Expr.var firstParam, a), (.var secondParam, b)], ∃ y, x.1 = .var y := by
  simp

/-- A new activation gives the parameters what the arguments are worth in the old one. -/
theorem enters_activation {args : List Expr} {a b a' b' : Int}
    (hparams : ∀ x ∈ Facts.bindings recursingFunction args,
      (activation a' b').eval x.1 = (activation a b).eval x.2) :
    Facts.Enters recursingFunction args (activation a b) (activation a' b') where
  params x e hx := hparams (x, e) hx
  others e hc he := by
    have hne : ∀ y : Variable, y.owner = some 0 → (e == .var y) = false := by
      intro y hy
      apply beq_eq_false_iff_ne.2
      intro h
      rw [h] at he
      exact Expr.isScopedTo_eq_false.1 he y (by simp [Expr.vars, Expr.subexprs, Expr.asVariable]) hy
    simp [activation, Valuation.eval, Valuation.table, Expr.simplify_of_isCanonical hc,
      List.lookup_cons, hne firstParam rfl, hne secondParam rfl]
  memory := Valuation.readsAs_table (variables_activation a b) (variables_activation a' b') _

/-- In `f(a, a)` the old value of `b` does not travel, and the new one is that of `a`. -/
theorem enter_sound_recursing :
    ∃ t, ((recursing [.var firstParam, .var firstParam]).factsFlow
        (.ofList [.of (.var firstParam) .eq (.lit 3), .of (.var secondParam) .eq (.lit 9)]) 0).1 =
          some t ∧
      (activation 3 3).Satisfies t := by
  let args : List Expr := [.var firstParam, .var firstParam]
  have hfirst : (Facts.entryRenaming recursingFunction args).get? (.var firstParam) =
      some (.var firstParam) := by decide
  refine (enter_sound_iff (entersAt_recursing args)
    (enters_activation (a := 3) (b := 9) (by decide))).1 ?_ _
    (Valuation.satisfies_empty.addAll (by decide))
  rintro e he ⟨hget, ⟨t, rfl⟩ | ⟨hleaf, hscope⟩⟩
  · exact Facts.agrees_table_addrOf (variables_activation 3 9) (variables_activation 3 3)
      (fun _ _ h => (Facts.entryRenaming_spec h).1) he.canonical hget
  · rcases Facts.inScopeAfter_iff.1 he.seen with h | ⟨k, hk⟩
    · rw [Facts.substitute_leaf hget hleaf] at h
      cases h.symm.trans hscope
    · rw [Facts.substitute_leaf hget hleaf] at hk
      obtain rfl : k = .var firstParam := by
        have hmem := (List.of_mem_zip (Facts.entryRenaming_spec hk).2.1).2
        simpa [args, Expr.simplify] using hmem
      obtain rfl := Option.some.inj (hk.symm.trans hfirst)
      cases hget.symm.trans hfirst

/-- In `f(b, 5)` the old value of `a` contradicts the new one, and the call is found
impossible. -/
theorem enter_recursing_unsound :
    ∃ (v w : Valuation) (s : Facts),
      Facts.Enters recursingFunction [.var secondParam, .lit 5] v w ∧ v.Satisfies s ∧
      ((recursing [.var secondParam, .lit 5]).factsFlow s 0).1 = none := by
  refine ⟨activation 1 2, activation 2 5,
    .ofList [.of (.var firstParam) .eq (.lit 1), .of (.var secondParam) .eq (.lit 2)],
    enters_activation (by decide), Valuation.satisfies_empty.addAll (by decide),
    by decide +kernel⟩

end Recursion

end Program

end Typestate
