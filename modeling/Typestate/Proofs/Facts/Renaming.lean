import Typestate.Facts.Call
import Typestate.Proofs.Valuation

/-!
# Renamed facts

Where control passes between functions, facts are renamed. A renamed fact holds in the new
valuation if each of its sides is worth there what it was worth under its old name. This is
so of every side if it is of the few that renaming can break: leaves, renamed expressions
and addresses, for the rest is read from memory that both valuations share.
-/
namespace Typestate

/-- Memory is the same in the second valuation as in the first: what is read through equal
values is equal, but for an expression that was written. -/
structure Valuation.ReadsAs (v w : Valuation) (written : Expr → Prop) : Prop where
  deref : ∀ a b, w.eval a = v.eval b → (∀ t, a.simplify ≠ .addrOf t) →
    (∀ t, b.simplify ≠ .addrOf t) → ¬ written (Expr.deref a).simplify →
    w.eval (.deref a) = v.eval (.deref b)
  field : ∀ a b f t, w.eval a = v.eval b → ¬ written (Expr.field a f t).simplify →
    w.eval (.field a f t) = v.eval (.field b f t)
  index : ∀ a b i j t, w.eval a = v.eval b → w.eval i = v.eval j →
    ¬ written (Expr.index a i t).simplify → w.eval (.index a i t) = v.eval (.index b j t)

theorem Valuation.readsAs_table {l m : List (Expr × Int)} (hl : ∀ x ∈ l, ∃ y, x.1 = .var y)
    (hm : ∀ x ∈ m, ∃ y, x.1 = .var y) (written : Expr → Prop) :
    (table l).ReadsAs (table m) written where
  deref a b _ ha hb _ := by
    have ha := Expr.simplify_deref ha
    have hb := Expr.simplify_deref hb
    rw [eval_table hm (by rw [ha]; rfl) (by rw [ha]; rfl),
      eval_table hl (by rw [hb]; rfl) (by rw [hb]; rfl)]
  field a b f t _ _ := by rw [eval_table hm rfl rfl, eval_table hl rfl rfl]
  index a b i j t _ _ _ := by rw [eval_table hm rfl rfl, eval_table hl rfl rfl]

namespace Facts

/-- An expression whose facts travel from one function to another: it mentions nothing that
is written, and its new name makes sense where the facts go. -/
structure Travels (r : Renaming) (written : List Expr) (seen : Expr → Prop) (e : Expr) :
    Prop where
  canonical : e.IsCanonical
  spared : ∀ x ∈ written, e.mentions x = false
  seen : seen (e.substitute r.get?)

/-- An expression that a renaming may break. -/
inductive AtRisk (r : Renaming) (written : Expr → Prop) (e : Expr) : Prop
  | leaf : e.children = [] → AtRisk r written e
  | renamed {a} : r.get? e = some a → AtRisk r written e
  | address {t} : e = .addrOf t → AtRisk r written e
  /-- What was an expression behind a pointer becomes the target of an address. -/
  | target {b t} : e = .deref b → (b.substitute r.get?).simplify = .addrOf t → AtRisk r written e
  | written : written (e.substitute r.get?).simplify → AtRisk r written e

/-- An expression is worth the same under its new name. -/
def Agrees (r : Renaming) (v w : Valuation) (e : Expr) : Prop :=
  w.eval (e.substitute r.get?) = v.eval e

variable {r : Renaming} {v w : Valuation} {written : Expr → Prop}

theorem substitute_of_get? {e a : Expr} (h : r.get? e = some a) : e.substitute r.get? = a := by
  cases e <;> simp [Expr.substitute, h]

theorem substitute_mem_children {e c : Expr} (h : r.get? e = none) (hc : c ∈ e.children) :
    c.substitute r.get? ∈ (e.substitute r.get?).children := by
  cases e with
  | var x | ssa x n | lit n | text s => cases hc
  | addrOf e | deref e | field e f t =>
    obtain rfl := List.mem_singleton.1 hc
    simp [Expr.substitute, h, Expr.children]
  | index b i t =>
    rw [Expr.substitute, h, Option.getD_none]
    rcases List.mem_cons.1 hc with rfl | hc
    · simp [Expr.children]
    · obtain rfl := List.mem_singleton.1 hc
      simp [Expr.children]

theorem substitute_leaf {e : Expr} (h : r.get? e = none) (hc : e.children = []) :
    e.substitute r.get? = e := by
  cases e <;> simp [Expr.children] at hc <;> simp [Expr.substitute, h]

theorem get?_of_not_atRisk {e : Expr} (hr : ¬ AtRisk r written e) : r.get? e = none := by
  cases h : r.get? e with
  | none => rfl
  | some a => exact absurd (.renamed h) hr

theorem simplify_substitute_mem_children {e c : Expr} (hr : ¬ AtRisk r written e)
    (hc : c ∈ e.children) :
    (c.substitute r.get?).simplify ∈ (e.substitute r.get?).simplify.children := by
  have hnone := get?_of_not_atRisk hr
  cases e with
  | var x | ssa x n | lit n | text s => cases hc
  | addrOf e => exact absurd (.address rfl) hr
  | deref e =>
    obtain rfl := List.mem_singleton.1 hc
    rw [Expr.substitute, hnone, Option.getD_none,
      Expr.simplify_deref fun t ht => hr (.target rfl ht)]
    simp [Expr.children]
  | field e f t =>
    obtain rfl := List.mem_singleton.1 hc
    rw [Expr.substitute, hnone, Option.getD_none]
    simp [Expr.simplify, Expr.children]
  | index b i t =>
    rw [Expr.substitute, hnone, Option.getD_none]
    rcases List.mem_cons.1 hc with rfl | hc
    · simp [Expr.simplify, Expr.children]
    · obtain rfl := List.mem_singleton.1 hc
      simp [Expr.simplify, Expr.children]

/-- An expression that is not at risk agrees if its parts do. -/
theorem agrees_of_children (hread : v.ReadsAs w written) {e : Expr} (hc : e.IsCanonical)
    (hr : ¬ AtRisk r written e) (ih : ∀ c ∈ e.children, Agrees r v w c) : Agrees r v w e := by
  have hnone := get?_of_not_atRisk hr
  have hwritten : ¬ written (e.substitute r.get?).simplify := fun h => hr (.written h)
  cases e with
  | var x | ssa x n | lit n | text s => exact absurd (.leaf rfl) hr
  | addrOf e => exact absurd (.address rfl) hr
  | deref e =>
    rw [Expr.substitute, hnone, Option.getD_none] at hwritten
    rw [Agrees, Expr.substitute, hnone, Option.getD_none]
    refine hread.deref _ _ (ih e (by simp [Expr.children])) ?_ ?_ hwritten
    · exact fun t ht => hr (.target rfl ht)
    · rw [Expr.simplify_of_isCanonical hc.1]
      exact hc.2
  | field e f t =>
    rw [Expr.substitute, hnone, Option.getD_none] at hwritten
    rw [Agrees, Expr.substitute, hnone, Option.getD_none]
    exact hread.field _ _ f t (ih e (by simp [Expr.children])) hwritten
  | index b i t =>
    rw [Expr.substitute, hnone, Option.getD_none] at hwritten
    rw [Agrees, Expr.substitute, hnone, Option.getD_none]
    exact hread.index _ _ _ _ t (ih b (by simp [Expr.children]))
      (ih i (by simp [Expr.children])) hwritten

/-- If every member at risk of a set of expressions agrees, every member does. -/
theorem agrees_of_atRisk {P : Expr → Prop} (hread : v.ReadsAs w written)
    (hdown : ∀ e, P e → ¬ AtRisk r written e → ∀ c ∈ e.children, P c)
    (hrisk : ∀ e, P e → AtRisk r written e → Agrees r v w e) {e : Expr} (hc : e.IsCanonical)
    (he : P e) : Agrees r v w e := by
  have step : ∀ e : Expr, e.IsCanonical → P e →
      (∀ c ∈ e.children, c.IsCanonical → P c → Agrees r v w c) → Agrees r v w e := by
    intro e hc he ih
    by_cases hr : AtRisk r written e
    · exact hrisk e he hr
    · apply agrees_of_children hread hc hr
      intro c hce
      exact ih c hce (hc.of_mem_children hce) (hdown e he hr c hce)
  induction e with
  | var x | ssa x n | lit n | text s => exact step _ hc he fun c hc => absurd hc List.not_mem_nil
  | addrOf e ih | deref e ih | field e f t ih =>
    exact step _ hc he fun c hce hcc hPc => by
      obtain rfl := List.mem_singleton.1 hce
      exact ih hcc hPc
  | index b i t ihb ihi =>
    apply step _ hc he
    intro c hce hcc hPc
    rcases List.mem_cons.1 hce with rfl | hce
    · exact ihb hcc hPc
    · obtain rfl := List.mem_singleton.1 hce
      exact ihi hcc hPc

/-- New names that are variables leave an expression canonical, and make no address or
dereference of another expression. -/
theorem isCanonical_substitute (hvar : ∀ e a, r.get? e = some a → ∃ x, a = .var x) {e : Expr}
    (hc : e.IsCanonical) :
    (e.substitute r.get?).IsCanonical ∧
      (∀ t, e.substitute r.get? = .addrOf t → ∃ u, e = .addrOf u) ∧
      (∀ t, e.substitute r.get? = .deref t → ∃ u, e = .deref u) := by
  have renamed : ∀ e a, r.get? e = some a → (e.substitute r.get?).IsCanonical ∧
      (∀ t, e.substitute r.get? = .addrOf t → ∃ u, e = .addrOf u) ∧
      (∀ t, e.substitute r.get? = .deref t → ∃ u, e = .deref u) := by
    intro e a h
    obtain ⟨x, rfl⟩ := hvar e a h
    rw [substitute_of_get? h]
    exact ⟨trivial, nofun, nofun⟩
  induction e with
  | var x | ssa x n | lit n | text s =>
    cases h : r.get? _ with
    | some a => exact renamed _ a h
    | none =>
      rw [substitute_leaf h rfl]
      exact ⟨hc, nofun, nofun⟩
  | addrOf e ih =>
    cases h : r.get? (.addrOf e) with
    | some a => exact renamed _ a h
    | none =>
      obtain ⟨hce, -, hderef⟩ := ih hc.1
      rw [Expr.substitute, h, Option.getD_none]
      refine ⟨⟨hce, fun t ht => ?_⟩, fun _ _ => ⟨e, rfl⟩, nofun⟩
      obtain ⟨u, rfl⟩ := hderef t ht
      exact hc.2 u rfl
  | deref e ih =>
    cases h : r.get? (.deref e) with
    | some a => exact renamed _ a h
    | none =>
      obtain ⟨hce, haddr, -⟩ := ih hc.1
      rw [Expr.substitute, h, Option.getD_none]
      refine ⟨⟨hce, fun t ht => ?_⟩, nofun, fun _ _ => ⟨e, rfl⟩⟩
      obtain ⟨u, rfl⟩ := haddr t ht
      exact hc.2 u rfl
  | field e f t ih =>
    cases h : r.get? (.field e f t) with
    | some a => exact renamed _ a h
    | none =>
      rw [Expr.substitute, h, Option.getD_none]
      exact ⟨(ih hc).1, nofun, nofun⟩
  | index b i t ihb ihi =>
    cases h : r.get? (.index b i t) with
    | some a => exact renamed _ a h
    | none =>
      rw [Expr.substitute, h, Option.getD_none]
      exact ⟨⟨(ihb hc.1).1, (ihi hc.2).1⟩, nofun, nofun⟩

theorem mem_values {a : Expr} : a ∈ r.values ↔ ∃ e, r.get? e = some a := by
  simp only [SortedMap.values, List.mem_map, Prod.exists, SortedMap.mem_entries_iff,
    exists_eq_right]

theorem inScopeAfter_iff {leaving : FunctionId} {a : Expr} :
    inScopeAfter leaving r a = true ↔
      a.isScopedTo leaving = false ∨ ∃ e, r.get? e = some a := by
  simp [inScopeAfter, mem_values]

theorem rename?_eq_some {leaving : FunctionId} {f g : Fact} :
    rename? r leaving f = some g ↔
      inScopeAfter leaving r (f.left.substitute r.get?) = true ∧
      inScopeAfter leaving r (f.right.substitute r.get?) = true ∧
      Fact.of (f.left.substitute r.get?) f.op (f.right.substitute r.get?) = g := by
  simp [rename?, and_assoc]

theorem mem_sparing {s : Facts} {l : List Expr} {f : Fact} :
    f ∈ s.sparing l ↔ f ∈ s ∧ ∀ x ∈ l, f.mentions x = false := by
  simp [sparing, mem_toList]

theorem travels_of_mem_sparing {r : Renaming} {s : Facts} {l : List Expr} {f : Fact}
    (hf : f ∈ s.sparing l) (seen : Expr → Prop) (hl : seen (f.left.substitute r.get?))
    (hr : seen (f.right.substitute r.get?)) :
    Travels r l seen f.left ∧ Travels r l seen f.right := by
  have hspared : ∀ x ∈ l, f.left.mentions x = false ∧ f.right.mentions x = false := by
    intro x hx
    simpa [Fact.mentions] using (mem_sparing.1 hf).2 x hx
  exact ⟨⟨f.left_canonical, fun x hx => (hspared x hx).1, hl⟩,
    f.right_canonical, fun x hx => (hspared x hx).2, hr⟩

theorem mem_vars_of {a b : Expr} {op : Comparison} {x : Variable} :
    x ∈ (Fact.of a op b).vars ↔ x ∈ a.vars ∨ x ∈ b.vars := by
  unfold Fact.of
  split <;> simp [Fact.vars, or_comm]

theorem mentions_of {a b : Expr} {op : Comparison} {x : Expr} :
    (Fact.of a op b).mentions x = false ↔
      a.simplify.mentions x = false ∧ b.simplify.mentions x = false := by
  unfold Fact.of
  split <;> simp [Fact.mentions, and_comm]

theorem holds_rename {f : Fact} (hf : v.Holds f) (hl : Agrees r v w f.left)
    (hr : Agrees r v w f.right) :
    w.Holds (Fact.of (f.left.substitute r.get?) f.op (f.right.substitute r.get?)) := by
  rw [Valuation.holds_of, hl, hr]
  exact hf

def valueFact (v : Valuation) (e : Expr) : Fact := Fact.of e .eq (.lit (v.eval e))

theorem valueFact_eq {e : Expr} (hc : e.IsCanonical) (hl : e.isLiteral = false) :
    (valueFact v e).left = e ∧ (valueFact v e).op = .eq ∧
      (valueFact v e).right = .lit (v.eval e) := by
  have hs := Expr.simplify_of_isCanonical hc
  unfold valueFact Fact.of
  split
  · rename_i h
    rw [hs, hl] at h
    cases h.1
  · exact ⟨hs, rfl, rfl⟩

/-- What is known of the value of an expression is lost where the expression is written. -/
theorem valueFact_mem_sparing {e : Expr} (hc : e.IsCanonical) (hl : e.isLiteral = false)
    {l : List Expr} (hlit : ∀ n, .lit n ∉ l) (he : ∀ x ∈ l, e.mentions x = false) :
    v.Satisfies (empty.add (valueFact v e)) ∧
      valueFact v e ∈ (empty.add (valueFact v e)).sparing l := by
  obtain ⟨hleft, -, hright⟩ := valueFact_eq (v := v) hc hl
  have hholds : v.Holds (valueFact v e) := Valuation.holds_of.2 (v.eval_lit _).symm
  refine ⟨Valuation.satisfies_empty.add hholds, mem_sparing.2 ⟨mem_add.2 (.inl ⟨rfl, ?_⟩), ?_⟩⟩
  · have hne : (valueFact v e).left ≠ (valueFact v e).right := by
      rw [hleft, hright]
      intro h
      rw [congrArg Expr.isLiteral h] at hl
      cases hl
    simp [Fact.isTautology, hne]
  · intro x hx
    have hxn : x ≠ .lit (v.eval e) := fun h => hlit _ (h ▸ hx)
    rw [Fact.mentions, hleft, hright, he x hx]
    simp [Expr.mentions, Expr.subexprs, hxn]

/-- If the renamed fact that an expression has its value holds, the expression agrees. -/
theorem agrees_of_valueFact (hr : ∀ n, r.get? (.lit n) = none) {e : Expr}
    (hc : e.IsCanonical) (hl : e.isLiteral = false)
    (h : w.Holds (Fact.of ((valueFact v e).left.substitute r.get?) (valueFact v e).op
      ((valueFact v e).right.substitute r.get?))) : Agrees r v w e := by
  obtain ⟨hleft, hop, hright⟩ := valueFact_eq (v := v) hc hl
  rw [hleft, hop, hright, Valuation.holds_of, substitute_leaf (hr _) rfl, w.eval_lit] at h
  exact h

theorem agrees_of_isLiteral (hr : ∀ n, r.get? (.lit n) = none) {e : Expr}
    (hl : e.isLiteral = true) : Agrees r v w e := by
  obtain ⟨n, hn⟩ := Option.isSome_iff_exists.1 hl
  obtain rfl := Expr.literal?_eq_some.1 hn
  rw [Agrees, substitute_leaf (hr n) rfl, v.eval_lit, w.eval_lit]

/-- An address has no number in a table for variables, whatever the variables in it are
renamed to. -/
theorem agrees_table_addrOf {l m : List (Expr × Int)} (hl : ∀ x ∈ l, ∃ y, x.1 = .var y)
    (hm : ∀ x ∈ m, ∃ y, x.1 = .var y) (hvar : ∀ e a, r.get? e = some a → ∃ x, a = .var x)
    {t : Expr} (hc : (Expr.addrOf t).IsCanonical) (hnone : r.get? (.addrOf t) = none) :
    Agrees r (.table l) (.table m) (.addrOf t) := by
  have hs := Expr.simplify_of_isCanonical (isCanonical_substitute hvar hc).1
  have ht := Expr.simplify_of_isCanonical hc
  rw [Expr.substitute, hnone, Option.getD_none] at hs
  rw [Agrees, Expr.substitute, hnone, Option.getD_none,
    Valuation.eval_table hm (by rw [hs]; rfl) (by rw [hs]; rfl),
    Valuation.eval_table hl (by rw [ht]; rfl) (by rw [ht]; rfl)]

end Facts

end Typestate
