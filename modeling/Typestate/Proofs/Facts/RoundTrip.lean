import Typestate.Proofs.Facts.Survival

/-!
# Facts that enter a callee and come back

On the way into a callee arguments become parameters, and on the way out parameters become
arguments again. Between two functions that share no variables, and with parameters that are told
apart, the second renaming undoes the first, so what a callee that changes nothing hands back is
what it was handed. It is not handed every fact of the caller: one that ties a variable of the
caller to a global, say, is neither the caller's alone nor free of the caller's variables.
-/
namespace Typestate

theorem Fact.of_eq {a b : Expr} {op : Comparison} (ha : a.IsCanonical) (hb : b.IsCanonical)
    (hlit : a.isLiteral = true → b.isLiteral = true) :
    (of a op b).left = a ∧ (of a op b).op = op ∧ (of a op b).right = b := by
  have hsa := Expr.simplify_of_isCanonical ha
  have hsb := Expr.simplify_of_isCanonical hb
  unfold of
  split
  · rename_i h
    rw [hsa, hsb, hlit (hsa ▸ h.1)] at h
    cases h.2
  · exact ⟨hsa, rfl, hsb⟩

theorem Fact.isTautology_of_eq (e : Expr) : (of e .eq e).isTautology = true := by
  unfold of
  split <;> simp [isTautology, Comparison.flip]

namespace Facts

/-- A call of another function, with distinct parameters, that passes and assigns nothing of the
callee. -/
structure Apart (caller : FunctionId) (callee : Function) (result : Option Expr)
    (args : List Expr) : Prop where
  other : caller ≠ callee.id
  params : ∀ x ∈ callee.params, x.owner = some callee.id
  distinct : callee.params.Nodup
  args : ∀ a ∈ args, a.isScopedTo callee.id = false
  result : ∀ z, result = some z → z.isScopedTo callee.id = false

/-- A returned expression that takes the name of the result where the call returns: it is
neither a literal nor a parameter, which the result is said to equal instead. -/
structure TurnsInto (callee : Function) (result : Option Expr) (y z : Expr) : Prop where
  returned : callee.returned = some y
  literal : y.isLiteral = false
  param : y ∉ callee.paramExprs
  result : result.map Expr.simplify = some z

variable {caller : FunctionId} {callee : Function} {result : Option Expr} {args : List Expr}

theorem argsBack_get? {l : List (Expr × Expr)} (hl : l.Pairwise fun b b' => b.1 ≠ b'.1)
    {x e : Expr} (hx : (x, e) ∈ l) (z : Option Expr) :
    (argsBack l z).get? x = if z = some e then none else some e := by
  have skip : ∀ (l : List (Expr × Expr)) (r : Renaming), (∀ b ∈ l, x ≠ b.1) →
      (l.foldl (fun r b => if z = some b.2 then r else r.insert b.1 b.2) r).get? x =
        r.get? x := by
    intro l
    induction l with
    | nil => exact fun _ _ => rfl
    | cons b l ih =>
      intro r hne
      rw [List.foldl_cons, ih _ fun b' hb' => hne b' (by simp [hb'])]
      split
      · rfl
      · rw [SortedMap.get?_insert, if_neg (hne b (by simp))]
  have fold : ∀ (l : List (Expr × Expr)) (r : Renaming), l.Pairwise (fun b b' => b.1 ≠ b'.1) →
      (x, e) ∈ l → r.get? x = none →
      (l.foldl (fun r b => if z = some b.2 then r else r.insert b.1 b.2) r).get? x =
        if z = some e then none else some e := by
    intro l
    induction l with
    | nil => exact fun _ _ hx => absurd hx List.not_mem_nil
    | cons b l ih =>
      intro r hl hx hr
      obtain ⟨hb, hl⟩ := List.pairwise_cons.1 hl
      rw [List.foldl_cons]
      rcases List.mem_cons.1 hx with rfl | hx
      · rw [skip l _ hb]
        split
        · exact hr
        · simp
      · refine ih _ hl hx ?_
        split
        · exact hr
        · rw [SortedMap.get?_insert, if_neg (hb _ hx).symm, hr]
  exact fold l ∅ hl hx (by simp)

namespace Apart

theorem of_mem_bindings (h : Apart caller callee result args) {x e : Expr}
    (hx : (x, e) ∈ bindings callee args) :
    (∃ v, x = .var v ∧ v.owner = some callee.id) ∧ e.isScopedTo callee.id = false := by
  obtain ⟨hparam, harg⟩ := List.of_mem_zip hx
  obtain ⟨v, hv, rfl⟩ := List.mem_map.1 hparam
  obtain ⟨a, ha, rfl⟩ := List.mem_map.1 harg
  exact ⟨⟨v, rfl, h.params v hv⟩, by rw [Expr.isScopedTo_simplify, h.args a ha]⟩

theorem pairwise_bindings (h : Apart caller callee result args) :
    (bindings callee args).Pairwise fun b b' => b.1 ≠ b'.1 := by
  have hnodup : callee.paramExprs.Nodup :=
    List.pairwise_map.2 (h.distinct.imp fun hne heq => hne (Expr.var.inj heq))
  have zip : ∀ (l m : List Expr), l.Nodup → (l.zip m).Pairwise fun b b' => b.1 ≠ b'.1 := by
    intro l
    induction l with
    | nil => simp
    | cons a l ih =>
      intro m hl
      obtain ⟨ha, hl⟩ := List.nodup_cons.1 hl
      cases m with
      | nil => simp
      | cons b m =>
        refine List.pairwise_cons.2 ⟨fun c hc heq => ha ?_, ih m hl⟩
        obtain rfl : a = c.1 := heq
        exact (List.of_mem_zip hc).1
  exact zip _ _ hnodup

theorem get?_param (h : Apart caller callee result args) {x e : Expr}
    (hx : (x, e) ∈ bindings callee args) :
    (exitRenaming callee result args).get? x = some e ∨
      (exitRenaming callee result args).get? x = none ∧ result.map Expr.simplify = some e := by
  have hback := argsBack_get? h.pairwise_bindings hx (result.map Expr.simplify)
  have hcases : (argsBack (bindings callee args) (result.map Expr.simplify)).get? x = some e ∨
      (argsBack (bindings callee args) (result.map Expr.simplify)).get? x = none ∧
        result.map Expr.simplify = some e := by
    split at hback
    · rename_i hres
      exact .inr ⟨hback, hres⟩
    · exact .inl hback
  unfold exitRenaming bindResult
  split
  · rename_i z y hz hy
    rw [hz] at hcases ⊢
    split
    · exact hcases
    · rename_i hnone
      split
      · exact hcases
      · rw [SortedMap.get?_insert]
        split
        · rename_i hxy
          rcases hcases with hsome | ⟨-, hres⟩
          · rw [hxy, hnone] at hsome
            cases hsome
          · exact .inl hres
        · exact hcases
  · exact hcases

/-- What has a new name at the return is a variable of the callee or turns into the result. -/
theorem key_cases (h : Apart caller callee result args) {k a : Expr}
    (hk : (exitRenaming callee result args).get? k = some a) :
    (∃ v, k = .var v ∧ v.owner = some callee.id) ∨ TurnsInto callee result k a := by
  rcases exitRenaming_spec hk with hmem | ⟨hret, hlit, hres⟩
  · exact .inl (h.of_mem_bindings hmem).1
  · by_cases hparam : k ∈ callee.paramExprs
    · obtain ⟨v, hv, rfl⟩ := List.mem_map.1 hparam
      exact .inl ⟨v, rfl, h.params v hv⟩
    · exact .inr ⟨hret, hlit, hparam, hres⟩

theorem get?_eq_none (h : Apart caller callee result args) {k : Expr}
    (hvar : ∀ v, k = .var v → v.owner ≠ some callee.id)
    (hfree : ∀ y z, TurnsInto callee result y z → k.mentions y = false) :
    (exitRenaming callee result args).get? k = none := by
  cases hk : (exitRenaming callee result args).get? k with
  | none => rfl
  | some a =>
    rcases h.key_cases hk with ⟨v, rfl, hv⟩ | hturns
    · exact absurd hv (hvar v rfl)
    · have hself := hfree k a hturns
      rw [Expr.mentions_self] at hself
      cases hself

theorem isScopedTo_value (h : Apart caller callee result args) {k a : Expr}
    (hk : (exitRenaming callee result args).get? k = some a) :
    a.isScopedTo callee.id = false := by
  rcases exitRenaming_spec hk with hmem | ⟨-, -, hres⟩
  · exact (h.of_mem_bindings hmem).2
  · obtain ⟨z, hz, rfl⟩ := Option.map_eq_some_iff.1 hres
    rw [Expr.isScopedTo_simplify, h.result z hz]

theorem isScopedTo_of_inScope (h : Apart caller callee result args) {a : Expr}
    (ha : inScopeAfter callee.id (exitRenaming callee result args) a = true) :
    a.isScopedTo callee.id = false := by
  rcases inScopeAfter_iff.1 ha with hscope | ⟨k, hk⟩
  · exact hscope
  · exact h.isScopedTo_value hk

end Apart

/-- What an expression of the caller is called in the callee. -/
def inward (callee : Function) (args : List Expr) (e : Expr) : Expr :=
  e.substitute (entryRenaming callee args).get?

/-- What an expression of the callee is called in the caller. -/
def outward (callee : Function) (result : Option Expr) (args : List Expr) (e : Expr) : Expr :=
  e.substitute (exitRenaming callee result args).get?

/-- An expression mentions nothing that turns into the result. -/
def Free (callee : Function) (result : Option Expr) (e : Expr) : Prop :=
  ∀ y z, TurnsInto callee result y z → e.mentions y = false

/-- Nothing in an expression is the address of what turns into an expression behind a pointer,
or is behind what turns into an address. -/
def Uncancelled (y z e : Expr) : Prop :=
  (∀ q, z = .deref q → e.mentions (.addrOf y) = false) ∧
    ∀ q, z = .addrOf q → e.mentions (.deref y) = false

theorem Uncancelled.of_mem_children {y z e c : Expr} (h : Uncancelled y z e)
    (hc : c ∈ e.children) : Uncancelled y z c :=
  ⟨fun q hq => Expr.not_mentions_of_mem_children hc (h.1 q hq),
    fun q hq => Expr.not_mentions_of_mem_children hc (h.2 q hq)⟩

/-- What is no argument keeps its form in the callee, and its parts get their names. -/
theorem inward_eq {e : Expr} (h : (entryRenaming callee args).get? e = none) :
    inward callee args e = e.mapChildren (inward callee args) := by
  rw [inward, Expr.substitute_eq, h, Option.getD_none]
  rfl

theorem outward_eq {e : Expr} (h : (exitRenaming callee result args).get? e = none) :
    outward callee result args e = e.mapChildren (outward callee result args) := by
  rw [outward, Expr.substitute_eq, h, Option.getD_none]
  rfl

namespace Apart

theorem isScopedTo_inward (h : Apart caller callee result args) {e a : Expr}
    (ha : (entryRenaming callee args).get? e = some a) :
    (inward callee args e).isScopedTo callee.id = true := by
  obtain ⟨-, hmem, -⟩ := entryRenaming_spec ha
  obtain ⟨⟨v, rfl, hv⟩, -⟩ := h.of_mem_bindings hmem
  rw [inward, substitute_of_get? ha]
  exact Expr.isScopedTo_var.2 hv

theorem inward_eq_self (h : Apart caller callee result args) (e : Expr)
    (he : (inward callee args e).isScopedTo callee.id = false) : inward callee args e = e := by
  induction e using Expr.induction_on_children with
  | h e ih =>
    cases hr : (entryRenaming callee args).get? e with
    | some a =>
      rw [h.isScopedTo_inward hr] at he
      cases he
    | none =>
      rw [inward_eq hr] at he ⊢
      refine Expr.mapChildren_eq_self fun c hc => ih c hc ?_
      exact Expr.not_isScopedTo_of_mem_children (by simpa using ⟨c, hc, rfl⟩) he

/-- What an expression of the caller mentions in the callee, other than variables of the
callee, it mentions in the caller. -/
theorem mentions_of_inward (h : Apart caller callee result args) {x : Expr}
    (hx : x.isScopedTo callee.id = false) (e : Expr)
    (he : (inward callee args e).mentions x = true) : e.mentions x = true := by
  rw [Expr.mentions, decide_eq_true_eq] at he ⊢
  induction e using Expr.induction_on_children with
  | h e ih =>
    have hself : x = inward callee args e → x ∈ e.subexprs := by
      rintro rfl
      rw [h.inward_eq_self e hx]
      exact e.mem_subexprs_self
    cases hr : (entryRenaming callee args).get? e with
    | some a =>
      obtain ⟨⟨v, rfl⟩, -⟩ := entryRenaming_spec hr
      rw [inward, substitute_of_get? hr] at he
      obtain rfl := List.mem_singleton.1 he
      exact hself (substitute_of_get? hr).symm
    | none =>
      rcases Expr.mem_subexprs_iff.1 he with heq | ⟨d, hd, hxd⟩
      · exact hself heq
      · rw [inward_eq hr, Expr.children_mapChildren, List.mem_map] at hd
        obtain ⟨c, hc, rfl⟩ := hd
        exact Expr.mem_subexprs_of_mem_children hc (ih c hc hxd)

/-- Renaming arguments to parameters and parameters back gives back an expression of the caller's
side, unless it mentions the result, and then something of the callee is left in it. -/
theorem outward_inward (h : Apart caller callee result args) (e : Expr)
    (he : e.isScopedTo callee.id = false) (hfree : Free callee result (inward callee args e)) :
    outward callee result args (inward callee args e) = e ∨
      (outward callee result args (inward callee args e)).isScopedTo callee.id = true ∧
        ∃ z, result.map Expr.simplify = some z ∧ e.mentions z = true := by
  induction e using Expr.induction_on_children with
  | h e ih =>
    cases hr : (entryRenaming callee args).get? e with
    | some a =>
      obtain ⟨⟨v, rfl⟩, hmem, -⟩ := entryRenaming_spec hr
      obtain ⟨⟨w, hw, howner⟩, -⟩ := h.of_mem_bindings hmem
      obtain rfl := Expr.var.inj hw
      rw [inward, substitute_of_get? hr]
      rcases h.get?_param hmem with hback | ⟨hnone, hres⟩
      · exact .inl (substitute_of_get? hback)
      · refine .inr ⟨?_, e, hres, e.mentions_self⟩
        rw [outward, substitute_leaf hnone rfl]
        exact Expr.isScopedTo_var.2 howner
    | none =>
      have hnone : (exitRenaming callee result args).get? (inward callee args e) = none := by
        refine h.get?_eq_none (fun v hv howner => ?_) hfree
        rw [inward_eq hr] at hv
        rw [Expr.mapChildren_eq_var hv, Expr.isScopedTo_var.2 howner] at he
        cases he
      have hparts : outward callee result args (inward callee args e) =
          e.mapChildren fun c => outward callee result args (inward callee args c) := by
        rw [outward_eq hnone, inward_eq hr, Expr.mapChildren_mapChildren]
      rw [hparts]
      by_cases hall : ∀ c ∈ e.children, outward callee result args (inward callee args c) = c
      · exact .inl (Expr.mapChildren_eq_self hall)
      · obtain ⟨c, hall⟩ := Classical.not_forall.1 hall
        obtain ⟨hc, hne⟩ := Classical.not_imp.1 hall
        have hfreec : Free callee result (inward callee args c) := by
          intro y z hyz
          refine Expr.not_mentions_of_mem_children ?_ (hfree y z hyz)
          rw [inward_eq hr, Expr.children_mapChildren]
          exact List.mem_map_of_mem hc
        obtain ⟨hscope, z, hz, hcz⟩ :=
          (ih c hc (Expr.not_isScopedTo_of_mem_children hc he) hfreec).resolve_left hne
        refine .inr ⟨Expr.isScopedTo_of_mem_children ?_ hscope, z, hz,
          Expr.mentions_of_mem_children hc hcz⟩
        rw [Expr.children_mapChildren]
        exact List.mem_map_of_mem hc

theorem get?_of_turnsInto {y z : Expr} (hyz : TurnsInto callee result y z) :
    (exitRenaming callee result args).get? y = some z := by
  have hback : (argsBack (bindings callee args) (result.map Expr.simplify)).get? y = none := by
    cases hy : (argsBack (bindings callee args) (result.map Expr.simplify)).get? y with
    | none => rfl
    | some a => exact absurd (List.of_mem_zip (argsBack_spec hy)).1 hyz.param
  rw [hyz.result] at hback
  simp [exitRenaming, bindResult, hyz.result, hyz.returned, hback, hyz.literal]

theorem simplify_outward_of_turnsInto {y z : Expr} (hyz : TurnsInto callee result y z) :
    (outward callee result args y).simplify = z := by
  obtain ⟨x, -, rfl⟩ := Option.map_eq_some_iff.1 hyz.result
  rw [outward, substitute_of_get? (get?_of_turnsInto hyz),
    Expr.simplify_of_isCanonical x.isCanonical_simplify]

/-- Under its new name an expression mentions the result if it mentions what turns into it and
that does not cancel with what is around it. Then what is around it keeps its form. -/
theorem mentions_outward (h : Apart caller callee result args) {y z : Expr}
    (hyz : TurnsInto callee result y z) (e : Expr) (hc : e.IsCanonical)
    (hcancel : Uncancelled y z e) (hy : e.mentions y = true) :
    (outward callee result args e).simplify.mentions z = true ∧
      (e = y ∨ (outward callee result args e).simplify.rank = e.rank) := by
  induction e using Expr.induction_on_children with
  | h e ih =>
    by_cases hey : e = y
    · rw [hey, simplify_outward_of_turnsInto hyz]
      exact ⟨z.mentions_self, .inl rfl⟩
    · obtain ⟨c, hce, hyc⟩ :=
        (Expr.mem_subexprs_iff.1 (of_decide_eq_true hy)).resolve_left (Ne.symm hey)
      have hnone : (exitRenaming callee result args).get? e = none := by
        cases hk : (exitRenaming callee result args).get? e with
        | none => rfl
        | some a =>
          rcases h.key_cases hk with ⟨v, rfl, -⟩ | hturns
          · cases hce
          · exact absurd (Option.some.inj (hturns.returned.symm.trans hyz.returned)) hey
      obtain ⟨hz, hrank⟩ := ih c hce (hc.of_mem_children hce) (hcancel.of_mem_children hce)
        (decide_eq_true hyc)
      have hform : ∀ w, (outward callee result args c).simplify = w →
          c = y ∧ z = w ∨ w.rank = c.rank := by
        rintro w rfl
        refine hrank.imp (fun hcy => ⟨hcy, ?_⟩) id
        rw [hcy, simplify_outward_of_turnsInto hyz]
      rw [outward_eq hnone]
      cases e with
      | var v | ssa v n | lit n | text s => cases hce
      | addrOf d =>
        obtain rfl := List.mem_singleton.1 hce
        have hne : ∀ t, (outward callee result args c).simplify ≠ .deref t := by
          intro t ht
          rcases hform _ ht with ⟨rfl, hz⟩ | hrank
          · exact Bool.false_ne_true ((hcancel.1 t hz).symm.trans (Expr.mentions_self _))
          · cases c <;> simp [Expr.rank] at hrank
            exact hc.2 _ rfl
        rw [Expr.mapChildren, Expr.simplify_addrOf hne]
        exact ⟨Expr.mentions_of_mem_children (by simp [Expr.children]) hz, .inr rfl⟩
      | deref d =>
        obtain rfl := List.mem_singleton.1 hce
        have hne : ∀ t, (outward callee result args c).simplify ≠ .addrOf t := by
          intro t ht
          rcases hform _ ht with ⟨rfl, hz⟩ | hrank
          · exact Bool.false_ne_true ((hcancel.2 t hz).symm.trans (Expr.mentions_self _))
          · cases c <;> simp [Expr.rank] at hrank
            exact hc.2 _ rfl
        rw [Expr.mapChildren, Expr.simplify_deref hne]
        exact ⟨Expr.mentions_of_mem_children (by simp [Expr.children]) hz, .inr rfl⟩
      | field d f t =>
        obtain rfl := List.mem_singleton.1 hce
        refine ⟨Expr.mentions_of_mem_children ?_ hz, .inr rfl⟩
        simp [Expr.mapChildren, Expr.simplify, Expr.children]
      | index b i t =>
        refine ⟨Expr.mentions_of_mem_children ?_ hz, .inr rfl⟩
        rcases List.mem_cons.1 hce with rfl | hce
        · simp [Expr.mapChildren, Expr.simplify, Expr.children]
        · obtain rfl := List.mem_singleton.1 hce
          simp [Expr.mapChildren, Expr.simplify, Expr.children]

/-- What the callee is told of its parameters says nothing once they are arguments again. -/
theorem isTautology_of_binding (h : Apart caller callee result args) {x e y : Expr}
    (hx : (x, e) ∈ bindings callee args)
    (hy : y = e ∧ e.isLiteral = true ∨ (y, e) ∈ bindings callee args) {φ : Fact}
    (hφ : rename? (exitRenaming callee result args) callee.id (Fact.of x .eq y) = some φ) :
    φ.isTautology = true := by
  have hparam : ∀ x, (x, e) ∈ bindings callee args →
      (outward callee result args x).isScopedTo callee.id = false →
      outward callee result args x = e := by
    intro x hx hscope
    obtain ⟨⟨v, rfl, hv⟩, -⟩ := h.of_mem_bindings hx
    rcases h.get?_param hx with hback | ⟨hnone, -⟩
    · exact substitute_of_get? hback
    · rw [outward, substitute_leaf hnone rfl, Expr.isScopedTo_var.2 hv] at hscope
      cases hscope
  have hcanonical : y.IsCanonical := by
    rcases hy with ⟨rfl, hlit⟩ | hy
    · obtain ⟨n, hn⟩ := Option.isSome_iff_exists.1 hlit
      rw [Expr.literal?_eq_some.1 hn]
      trivial
    · obtain ⟨⟨v, rfl, -⟩, -⟩ := h.of_mem_bindings hy
      trivial
  obtain ⟨⟨v, rfl, -⟩, -⟩ := h.of_mem_bindings hx
  have hvar : (Expr.var v).IsCanonical := trivial
  obtain ⟨hleft, hop, hright⟩ : (Fact.of (.var v) .eq y).left = .var v ∧
      (Fact.of (.var v) .eq y).op = .eq ∧ (Fact.of (.var v) .eq y).right = y :=
    Fact.of_eq hvar hcanonical nofun
  obtain ⟨hl, hr, rfl⟩ := rename?_eq_some.1 hφ
  rw [hleft] at hl
  rw [hright] at hr
  rw [hleft, hop, hright, ← outward, ← outward, hparam _ hx (h.isScopedTo_of_inScope hl)]
  rcases hy with ⟨rfl, hlit⟩ | hy
  · obtain ⟨n, hn⟩ := Option.isSome_iff_exists.1 hlit
    obtain rfl := Expr.literal?_eq_some.1 hn
    rw [outward, substitute_leaf (exitRenaming_literal n) rfl]
    exact Fact.isTautology_of_eq _
  · rw [hparam y hy (h.isScopedTo_of_inScope hr)]
    exact Fact.isTautology_of_eq _

end Apart

theorem rename?_entryRenaming {φ χ : Fact}
    (h : rename? (entryRenaming callee args) caller φ = some χ) :
    χ.left = inward callee args φ.left ∧ χ.op = φ.op ∧ χ.right = inward callee args φ.right := by
  have hcanonical : ∀ e : Expr, e.IsCanonical → (inward callee args e).IsCanonical :=
    fun e he => (isCanonical_substitute (fun _ _ hk => (entryRenaming_spec hk).1) he).1
  have hliteral : ∀ e : Expr, (inward callee args e).isLiteral = e.isLiteral := by
    intro e
    cases hr : (entryRenaming callee args).get? e with
    | some a =>
      obtain ⟨⟨v, rfl⟩, -, hlit⟩ := entryRenaming_spec hr
      rw [inward, substitute_of_get? hr, hlit]
      rfl
    | none =>
      rw [inward_eq hr]
      cases e <;> rfl
  obtain ⟨-, -, rfl⟩ := rename?_eq_some.1 h
  refine Fact.of_eq (hcanonical _ φ.left_canonical) (hcanonical _ φ.right_canonical) fun hl => ?_
  rw [← inward, hliteral] at hl ⊢
  exact φ.literal_right hl

/-- A fact of the caller and what the callee is told of it: the fact itself, if it is of the
caller alone, or the fact with arguments renamed to parameters, if that leaves nothing of the
caller in it. -/
inductive ToldAs (caller : FunctionId) (callee : Function) (args : List Expr) (φ : Fact) :
    Fact → Prop
  | own : isOwnedBy caller φ = true → ToldAs caller callee args φ φ
  | renamed {χ} : χ.left = inward callee args φ.left → χ.op = φ.op →
      χ.right = inward callee args φ.right → χ.left.isScopedTo caller = false →
      χ.right.isScopedTo caller = false → ToldAs caller callee args φ χ

/-- What is known at the entry of a callee: what the parameters are bound to, and what the
callee is told of the facts before. -/
theorem Apart.mem_enter_cases (h : Apart caller callee result args) {s : Facts} {χ : Fact}
    (hχ : χ ∈ s.enter caller callee args) :
    (∃ x e y, (x, e) ∈ bindings callee args ∧ χ = Fact.of x .eq y ∧
      (y = e ∧ e.isLiteral = true ∨ (y, e) ∈ bindings callee args)) ∨
    ∃ φ ∈ s.sparing (addressTaken args), ToldAs caller callee args φ χ := by
  have hscope : ∀ a : Expr, inScopeAfter caller (entryRenaming callee args) a = true →
      a.isScopedTo caller = false := by
    intro a ha
    rcases inScopeAfter_iff.1 ha with hscope | ⟨k, hk⟩
    · exact hscope
    · obtain ⟨⟨v, rfl⟩, hmem, -⟩ := entryRenaming_spec hk
      obtain ⟨⟨w, hw, howner⟩, -⟩ := h.of_mem_bindings hmem
      obtain rfl := Expr.var.inj hw
      rw [Bool.eq_false_iff, ne_eq, Expr.isScopedTo_var, howner]
      exact fun heq => h.other (Option.some.inj heq).symm
  apply Classical.byContradiction
  intro hnot
  have hall : ∀ g ∈ s.enter caller callee args, g ≠ χ := by
    refine (forall_mem_enter (ne_of_isTautology hχ)).2 ⟨fun g hg heq => ?_, fun φ hφ => ⟨?_, ?_⟩⟩
    · exact hnot (.inl (heq ▸ (binds_bindArgs _).stated g hg))
    · rintro g hg rfl
      obtain ⟨hleft, hop, hright⟩ := rename?_entryRenaming hg
      obtain ⟨hl, hr, -⟩ := rename?_eq_some.1 hg
      refine hnot (.inr ⟨φ, hφ, .renamed hleft hop hright ?_ ?_⟩)
      · exact hleft ▸ hscope _ hl
      · exact hright ▸ hscope _ hr
    · rintro ⟨-, howned⟩ rfl
      exact hnot (.inr ⟨φ, hφ, .own howned⟩)
  exact hall χ hχ rfl

namespace Apart

theorem not_isScopedTo_of_isVisibleIn (h : Apart caller callee result args) {φ : Fact}
    (hφ : isVisibleIn caller φ = true) :
    φ.left.isScopedTo callee.id = false ∧ φ.right.isScopedTo callee.id = false := by
  have howner : ∀ v ∈ φ.vars, v.owner ≠ some callee.id := by
    intro v hv hcallee
    have hvis : v.owner = none ∨ v.owner = some caller := by
      simpa using List.all_eq_true.1 hφ v hv
    rcases hvis with hnone | hcaller
    · rw [hnone] at hcallee
      cases hcallee
    · exact h.other (Option.some.inj (hcaller.symm.trans hcallee))
  exact ⟨Expr.isScopedTo_eq_false.2 fun v hv => howner v (List.mem_append.2 (.inl hv)),
    Expr.isScopedTo_eq_false.2 fun v hv => howner v (List.mem_append.2 (.inr hv))⟩

/-- A fact without anything that turns into the result keeps its name at the return if it is of
the caller's side. -/
theorem rename?_exit_self (h : Apart caller callee result args) {φ : Fact}
    (hφ : isVisibleIn caller φ = true)
    (hfree : ∀ y z, TurnsInto callee result y z → φ.mentions y = false) :
    rename? (exitRenaming callee result args) callee.id φ = some φ := by
  obtain ⟨hl, hr⟩ := h.not_isScopedTo_of_isVisibleIn hφ
  have hvars : ∀ v ∈ φ.vars, v.owner ≠ some callee.id := by
    intro v hv
    rcases List.mem_append.1 hv with hv | hv
    · exact Expr.isScopedTo_eq_false.1 hl v hv
    · exact Expr.isScopedTo_eq_false.1 hr v hv
  refine rename?_self (fun k a hk => ?_) hvars
  rcases h.key_cases hk with ⟨v, rfl, hv⟩ | hturns
  · refine not_mentions_of_vars (x := v) (by simp [Expr.vars, Expr.subexprs, Expr.asVariable]) ?_
    exact fun hmem => hvars v hmem hv
  · exact hfree k a hturns

/-- Renaming back what the callee is told of a fact gives back the fact. -/
theorem eq_of_toldAs (h : Apart caller callee result args) {φ χ ψ : Fact}
    (hφ : isVisibleIn caller φ = true) (htold : ToldAs caller callee args φ χ)
    (hfree : ∀ y z, TurnsInto callee result y z → χ.mentions y = false)
    (hψ : rename? (exitRenaming callee result args) callee.id χ = some ψ) : ψ = φ := by
  cases htold with
  | own howned =>
    rw [h.rename?_exit_self hφ hfree] at hψ
    exact (Option.some.inj hψ).symm
  | renamed hleft hop hright =>
    obtain ⟨hcl, hcr⟩ := h.not_isScopedTo_of_isVisibleIn hφ
    obtain ⟨hl, hr, rfl⟩ := rename?_eq_some.1 hψ
    simp only [Fact.mentions, hleft, hright, Bool.or_eq_false_iff] at hfree
    have hsame : ∀ e : Expr, e.isScopedTo callee.id = false →
        Free callee result (inward callee args e) →
        inScopeAfter callee.id (exitRenaming callee result args)
          (outward callee result args (inward callee args e)) = true →
        outward callee result args (inward callee args e) = e := by
      intro e he hfree hscope
      refine (h.outward_inward e he hfree).resolve_right fun hleft => ?_
      rw [h.isScopedTo_of_inScope hscope] at hleft
      cases hleft.1
    rw [hleft, ← outward] at hl
    rw [hright, ← outward] at hr
    rw [hleft, hop, hright, ← outward, ← outward, hsame _ hcl (fun y z hyz => (hfree y z hyz).1) hl,
      hsame _ hcr (fun y z hyz => (hfree y z hyz).2) hr, φ.of_self]

/-- What the callee is told of a fact that does not mention the result comes back as the fact. -/
theorem rename?_of_toldAs (h : Apart caller callee result args) {φ χ : Fact}
    (hφ : isVisibleIn caller φ = true) (htold : ToldAs caller callee args φ χ)
    (hfree : ∀ y z, TurnsInto callee result y z → χ.mentions y = false)
    (hresult : ∀ z, result.map Expr.simplify = some z → φ.mentions z = false) :
    rename? (exitRenaming callee result args) callee.id χ = some φ ∧
      (χ.isTautology = true → φ.isTautology = true) := by
  cases htold with
  | own howned => exact ⟨h.rename?_exit_self hφ hfree, id⟩
  | renamed hleft hop hright =>
    obtain ⟨hcl, hcr⟩ := h.not_isScopedTo_of_isVisibleIn hφ
    simp only [Fact.mentions, hleft, hright, Bool.or_eq_false_iff] at hfree hresult
    have hsame : ∀ e : Expr, e.isScopedTo callee.id = false →
        Free callee result (inward callee args e) →
        (∀ z, result.map Expr.simplify = some z → e.mentions z = false) →
        outward callee result args (inward callee args e) = e := by
      intro e he hfree hresult
      refine (h.outward_inward e he hfree).resolve_right ?_
      rintro ⟨-, z, hz, hmention⟩
      rw [hresult z hz] at hmention
      cases hmention
    have hl := hsame _ hcl (fun y z hyz => (hfree y z hyz).1) fun z hz => (hresult z hz).1
    have hr := hsame _ hcr (fun y z hyz => (hfree y z hyz).2) fun z hz => (hresult z hz).2
    refine ⟨rename?_eq_some.2 ?_, fun htaut => ?_⟩
    · rw [hleft, hop, hright, ← outward, ← outward, hl, hr]
      exact ⟨inScopeAfter_iff.2 (.inl hcl), inScopeAfter_iff.2 (.inl hcr), φ.of_self⟩
    · rw [Fact.isTautology, hleft, hop, hright, Bool.and_eq_true, decide_eq_true_eq] at htaut
      rw [Fact.isTautology, Bool.and_eq_true, decide_eq_true_eq]
      exact ⟨by rw [← hl, htaut.1, hr], htaut.2⟩

theorem not_isScopedTo_of_mem_writtenBy (h : Apart caller callee result args) {x : Expr}
    (hx : x ∈ writtenBy result args) : x.isScopedTo callee.id = false := by
  rcases List.mem_append.1 hx with hx | hx
  · obtain ⟨a, ha, hax⟩ := mem_addressTaken.1 hx
    have hscope := h.args a ha
    rw [← Expr.isScopedTo_simplify, hax] at hscope
    exact hscope
  · obtain ⟨z, hz, rfl⟩ := Option.map_eq_some_iff.1 (Option.mem_toList.1 hx)
    rw [Expr.isScopedTo_simplify, h.result z hz]

/-- What the callee is told of a fact mentions nothing that the call writes if the fact does
not. -/
theorem spared_of_toldAs (h : Apart caller callee result args) {φ χ : Fact}
    (htold : ToldAs caller callee args φ χ)
    (hspared : ∀ x ∈ writtenBy result args, φ.mentions x = false) :
    ∀ x ∈ writtenBy result args, χ.mentions x = false := by
  intro x hx
  have hφx := hspared x hx
  cases htold with
  | own => exact hφx
  | renamed hleft hop hright =>
    have hscope := h.not_isScopedTo_of_mem_writtenBy hx
    have hinward : ∀ e : Expr, e.mentions x = false →
        (inward callee args e).mentions x = false := by
      intro e he
      cases hm : (inward callee args e).mentions x with
      | false => rfl
      | true =>
        rw [h.mentions_of_inward hscope e hm] at he
        cases he
    rw [Fact.mentions, Bool.or_eq_false_iff] at hφx ⊢
    exact ⟨hleft ▸ hinward _ hφx.1, hright ▸ hinward _ hφx.2⟩

theorem mem_enter_of_toldAs (h : Apart caller callee result args) {s : Facts} {φ χ : Fact}
    (hφ : φ ∈ s.sparing (addressTaken args)) (htold : ToldAs caller callee args φ χ)
    (hχ : χ.isTautology = false) : χ ∈ s.enter caller callee args := by
  refine mem_of_forall_ne fun hall => ?_
  have htaut : ∀ ψ : Fact, ψ.isTautology = true → ψ ≠ χ := by
    rintro ψ hψ rfl
    rw [hχ] at hψ
    cases hψ
  obtain ⟨hrename, hown⟩ := ((forall_mem_enter htaut).1 hall).2 φ hφ
  cases htold with
  | own howned => exact hown ⟨h.other, howned⟩ rfl
  | renamed hleft hop hright hl hr =>
    rw [hleft] at hl
    rw [hright] at hr
    have hsome :=
      rename?_eq_some.2 ⟨inScopeAfter_iff.2 (.inl hl), inScopeAfter_iff.2 (.inl hr), rfl⟩
    obtain ⟨hl', hop', hr'⟩ := rename?_entryRenaming hsome
    exact hrename _ hsome (Fact.ext (hl'.trans hleft.symm) (hop'.trans hop.symm)
      (hr'.trans hright.symm))

/-- A fact that the call writes nothing of comes back if the callee is told of it without
anything that turns into the result. -/
theorem mem_leave_enter (h : Apart caller callee result args) {s : Facts} {φ χ : Fact}
    (hs : φ ∈ s) (hφ : isVisibleIn caller φ = true)
    (hspared : ∀ x ∈ writtenBy result args, φ.mentions x = false)
    (htold : ToldAs caller callee args φ χ)
    (hfree : ∀ y z, TurnsInto callee result y z → χ.mentions y = false) :
    φ ∈ (s.enter caller callee args).leave caller callee result args := by
  have hresult : ∀ z, result.map Expr.simplify = some z → φ.mentions z = false :=
    fun z hz => hspared z (List.mem_append.2 (.inr (by simp [hz])))
  obtain ⟨hback, htaut⟩ := h.rename?_of_toldAs hφ htold hfree hresult
  have hχ : χ.isTautology = false := by
    cases hc : χ.isTautology with
    | false => rfl
    | true => exact absurd (htaut hc) (by simp [s.informative φ hs])
  have henter := h.mem_enter_of_toldAs (mem_sparing.2 ⟨hs, fun x hx =>
    hspared x (List.mem_append.2 (.inl hx))⟩) htold hχ
  refine mem_of_forall_ne fun hall => ?_
  exact ((forall_mem_leave (ne_of_isTautology hs)).1 hall).2 χ
    (mem_sparing.2 ⟨henter, h.spared_of_toldAs htold hspared⟩) φ hback hφ rfl

theorem free_of_rename? (h : Apart caller callee result args) {χ ψ : Fact}
    (hcancel : ∀ y z, TurnsInto callee result y z →
      Uncancelled y z χ.left ∧ Uncancelled y z χ.right)
    (hψ : rename? (exitRenaming callee result args) callee.id χ = some ψ)
    (hresult : ∀ z, result.map Expr.simplify = some z → ψ.mentions z = false) :
    ∀ y z, TurnsInto callee result y z → χ.mentions y = false := by
  intro y z hyz
  obtain ⟨-, -, rfl⟩ := rename?_eq_some.1 hψ
  obtain ⟨hl, hr⟩ := mentions_of.1 (hresult z hyz.result)
  obtain ⟨hcl, hcr⟩ := hcancel y z hyz
  have hside : ∀ e : Expr, e.IsCanonical → Uncancelled y z e →
      (outward callee result args e).simplify.mentions z = false → e.mentions y = false := by
    intro e he hce hz
    cases hy : e.mentions y with
    | false => rfl
    | true =>
      rw [(h.mentions_outward hyz e he hce hy).1] at hz
      cases hz
  rw [Fact.mentions, hside _ χ.left_canonical hcl hl, hside _ χ.right_canonical hcr hr]
  rfl

/-- Nothing comes back but facts that the call writes nothing of and the callee is told of. -/
theorem of_mem_leave_enter (h : Apart caller callee result args) {s : Facts}
    (hs : ∀ φ ∈ s, isVisibleIn caller φ = true)
    (hcancel : ∀ y z, TurnsInto callee result y z → ∀ χ ∈ s.enter caller callee args,
      Uncancelled y z χ.left ∧ Uncancelled y z χ.right) {ψ : Fact}
    (hψ : ψ ∈ (s.enter caller callee args).leave caller callee result args)
    (hresult : ∀ z, result.map Expr.simplify = some z → ψ.mentions z = false) :
    ψ ∈ s ∧ (∀ x ∈ writtenBy result args, ψ.mentions x = false) ∧
      ∃ χ, ToldAs caller callee args ψ χ := by
  apply Classical.byContradiction
  intro hnot
  have hall : ∀ g ∈ (s.enter caller callee args).leave caller callee result args, g ≠ ψ := by
    have htaut := ne_of_isTautology hψ
    refine (forall_mem_leave htaut).2 ⟨(forall_mem_bindResult htaut).2 ?_, ?_⟩
    · rintro x y hx - z - rfl
      obtain ⟨x', -, rfl⟩ := Option.map_eq_some_iff.1 hx
      have hself := (mentions_of.1 (hresult _ hx)).1
      rw [Expr.simplify_of_isCanonical x'.isCanonical_simplify, Expr.mentions_self] at hself
      cases hself
    · rintro χ hχ g hg - rfl
      have hmem := (mem_sparing.1 hχ).1
      rcases h.mem_enter_cases hmem with ⟨x, e, y, hx, rfl, hy⟩ | ⟨φ, hφ, htold⟩
      · exact htaut _ (h.isTautology_of_binding hx hy hg) rfl
      · obtain ⟨hφs, hφw⟩ := mem_sparing.1 hφ
        have hfree := h.free_of_rename? (fun y z hyz => hcancel y z hyz χ hmem) hg hresult
        obtain rfl := h.eq_of_toldAs (hs φ hφs) htold hfree hg
        refine hnot ⟨hφs, fun x hx => ?_, χ, htold⟩
        rcases List.mem_append.1 hx with hx | hx
        · exact hφw x hx
        · exact hresult x (Option.mem_toList.1 hx)
  exact hall ψ hψ rfl

end Apart

end Facts

namespace Program

/-- The edges of one call into its callee and back, with the caller and the call's result and
arguments. -/
structure CallEdges (p : Program) (c : NodeId) (into back : EdgeId) (caller : FunctionId)
    (callee : Function) (result : Option Expr) (args : List Expr) : Prop where
  enters : ∃ n, p.edges[into]? = some ⟨c, n, .enter⟩ ∧ p.functionOf n = some callee
  leaves : ∃ x n, p.edges[back]? = some ⟨x, n, .leave c⟩ ∧ p.functionOf x = some callee
  caller : p.functionIdOf c = some caller
  call : p.callAt c = some (result, args)

variable {p : Program} {c : NodeId} {into back : EdgeId} {caller : FunctionId} {callee : Function}
  {result : Option Expr} {args : List Expr} {s : Facts}

theorem CallEdges.entersAt (h : p.CallEdges c into back caller callee result args) :
    p.EntersAt into caller callee args := by
  obtain ⟨n, hedge, hcallee⟩ := h.enters
  exact ⟨⟨_, result, hedge, rfl, hcallee, h.caller, h.call⟩⟩

theorem CallEdges.leavesAt (h : p.CallEdges c into back caller callee result args) :
    p.LeavesAt back caller callee result args := by
  obtain ⟨x, n, hedge, hcallee⟩ := h.leaves
  exact ⟨⟨_, c, hedge, rfl, hcallee, h.caller, h.call⟩⟩

/-- In a well-formed program a call between two functions, with distinct parameters and with
nothing of another function in its result and arguments, keeps them apart. -/
theorem CallEdges.apart (h : p.CallEdges c into back caller callee result args)
    (hwf : p.WellFormed) (hne : caller ≠ callee.id) (hdistinct : callee.params.Nodup)
    (hwithin : ∀ e ∈ result.toList ++ args, e.IsWithin (some caller)) :
    Facts.Apart caller callee result args := by
  obtain ⟨n, -, hcallee⟩ := h.enters
  obtain ⟨i, -, hi⟩ := Option.bind_eq_some_iff.1 hcallee
  obtain ⟨rfl, howned⟩ := hwf.functions i callee hi
  have hscope : ∀ e ∈ result.toList ++ args, e.isScopedTo callee.id = false := by
    intro e he
    refine Expr.isScopedTo_eq_false.2 fun v hv howner => ?_
    rcases hwithin e he v hv with hnone | hcaller
    · rw [hnone] at howner
      cases howner
    · exact hne (Option.some.inj (hcaller.symm.trans howner))
  exact {
    other := hne
    params := fun x hx => howned x (List.mem_append.2 (.inl hx))
    distinct := hdistinct
    args := fun a ha => hscope a (List.mem_append.2 (.inr ha))
    result := fun z hz => hscope z (List.mem_append.2 (.inl (by simp [hz]))) }

/-- Facts of the caller that are taken into a callee and straight out again: nothing else comes
back, unless what the callee returns cancels under the name of the result, and of what the call
writes nothing of, all comes back that the callee is told of without what it returns. -/
theorem factsAfter_roundTrip (hwf : p.WellFormed)
    (hcall : p.CallEdges c into back caller callee result args) (hne : caller ≠ callee.id)
    (hdistinct : callee.params.Nodup)
    (hwithin : ∀ e ∈ result.toList ++ args, e.IsWithin (some caller))
    (hs : ∀ φ ∈ s, ∀ v ∈ φ.vars, v.owner = none ∨ v.owner = some caller) :
    ∃ t u, p.factsAfter s into = some t ∧ p.factsAfter t back = some u ∧
      ((∀ y z, Facts.TurnsInto callee result y z → ∀ χ ∈ t,
          Facts.Uncancelled y z χ.left ∧ Facts.Uncancelled y z χ.right) →
        ∀ φ ∈ u, (∀ z ∈ result, φ.mentions z.simplify = false) →
          φ ∈ s ∧ (∀ x ∈ Facts.writtenBy result args, φ.mentions x = false) ∧
            ∃ χ, Facts.ToldAs caller callee args φ χ) ∧
      ∀ φ ∈ s, (∀ x ∈ Facts.writtenBy result args, φ.mentions x = false) →
        ∀ χ, Facts.ToldAs caller callee args φ χ →
          (∀ y z, Facts.TurnsInto callee result y z → χ.mentions y = false) → φ ∈ u := by
  have hapart := hcall.apart hwf hne hdistinct hwithin
  have hvisible : ∀ φ ∈ s, Facts.isVisibleIn caller φ = true := by
    intro φ hφ
    simpa [Facts.isVisibleIn] using hs φ hφ
  refine ⟨_, _, hcall.entersAt.factsAfter s, hcall.leavesAt.factsAfter _, ?_, ?_⟩
  · intro hcancel φ hφ hresult
    refine hapart.of_mem_leave_enter hvisible hcancel hφ fun z hz => ?_
    obtain ⟨x, hx, rfl⟩ := Option.map_eq_some_iff.1 hz
    exact hresult x hx
  · intro φ hφ hspared χ htold hfree
    exact hapart.mem_leave_enter hφ (hvisible φ hφ) hspared htold hfree

section Handing

def mainVar (name : String) : Variable := ⟨name, some 0, .localVar, .integer⟩

def handingParam (name : String) : Variable := ⟨name, some 1, .param, .integer⟩

def handingGlobal (name : String) : Variable := ⟨name, none, .global, .integer⟩

def handingFunction (params : List String) : Function :=
  ⟨1, "f", params.map handingParam, [], 3, 4, some (.var (handingGlobal "h")), none, none⟩

/-- A function `main` that calls `f` if `z == g`. -/
def handing (params : List String) (result : Option Expr) (args : List Expr) : Program :=
  { nodes := #[⟨none, .root, none, none⟩, ⟨some 0, .entry, none, none⟩,
      ⟨some 0, .exit, none, none⟩, ⟨some 1, .entry, none, none⟩, ⟨some 1, .exit, none, none⟩,
      ⟨some 0, .statement, some (.cond (.var (mainVar "z")) .eq (.var (handingGlobal "g"))), none⟩,
      ⟨some 0, .call, some (.call result "f" args), none⟩, ⟨some 0, .returnSite, none, none⟩,
      ⟨some 1, .statement, some (.ret (some (.var (handingGlobal "h")))), none⟩]
    edges := #[⟨6, 3, .enter⟩, ⟨6, 7, .callToReturn⟩, ⟨4, 7, .leave 6⟩, ⟨1, 5, .flow .always⟩,
      ⟨5, 6, .flow (.branch true)⟩, ⟨5, 2, .flow (.branch false)⟩, ⟨7, 2, .flow .always⟩,
      ⟨3, 8, .flow .always⟩, ⟨8, 4, .flow .always⟩, ⟨0, 1, .root⟩]
    functions := #[⟨0, "main", [], ["x", "y", "z", "p"].map mainVar, 1, 2, none, none, none⟩,
      handingFunction params]
    globals := ["g", "h"].map handingGlobal }

theorem callEdges_handing (params : List String) (result : Option Expr) (args : List Expr) :
    (handing params result args).CallEdges 6 0 2 0 (handingFunction params) result args :=
  ⟨⟨3, rfl, rfl⟩, ⟨4, 7, rfl, rfl⟩, rfl, rfl⟩

def equalsGlobal (e : Expr) : Fact := .of e .eq (.var (handingGlobal "g"))

def handingParams : List String := ["a", "b", "c"]

/-- The result and the arguments of `y = f(x, 7, p->n)`. -/
def handingResult : Option Expr := some (.var (mainVar "y"))

@[inherit_doc handingResult]
def handingArgs : List Expr :=
  [.var (mainVar "x"), .lit 7, .field (.deref (.var (mainVar "p"))) "n" .integer]

/-- What `main` knows before `y = f(x, 7, p->n)`. -/
def handingFacts : Facts :=
  .ofList (.of (.var (mainVar "y")) .eq (.lit 3) :: .of (.var (mainVar "z")) .eq (.lit 5) ::
    equalsGlobal (.var (mainVar "z")) :: handingArgs.map equalsGlobal)

/-- In `y = f(x, 7, p->n)` the callee is told `a == g` and `c == g`, and they come back as
`x == g` and `p->n == g`. It is told `z == 5` too, but not `z == g`. -/
theorem factsAfter_roundTrip_handing :
    ∃ t u, (handing handingParams handingResult handingArgs).factsAfter handingFacts 0 = some t ∧
      (handing handingParams handingResult handingArgs).factsAfter t 2 = some u ∧
      (∀ e ∈ handingArgs, equalsGlobal e ∈ u) ∧
      Fact.of (.var (mainVar "z")) .eq (.lit 5) ∈ u ∧ equalsGlobal (.var (mainVar "z")) ∉ u := by
  obtain ⟨t, u, ht, hu, hback, hcome⟩ := factsAfter_roundTrip
    (p := handing handingParams handingResult handingArgs) (s := handingFacts) (by decide)
    (callEdges_handing _ _ _) (by decide) (by decide) (by decide) (by decide)
  have hturns : ∀ y z, Facts.TurnsInto (handingFunction handingParams) handingResult y z →
      y = .var (handingGlobal "h") ∧ z = .var (mainVar "y") := by
    intro y z h
    exact ⟨(Option.some.inj h.returned).symm, (Option.some.inj h.result).symm⟩
  have hcomes : ∀ φ ∈ handingFacts, ∀ χ,
      Facts.ToldAs 0 (handingFunction handingParams) handingArgs φ χ →
      (∀ x ∈ Facts.writtenBy handingResult handingArgs, φ.mentions x = false) →
      χ.mentions (.var (handingGlobal "h")) = false → φ ∈ u := by
    intro φ hφ χ htold hspared hfree
    refine hcome φ hφ hspared χ htold fun y z h => ?_
    rw [(hturns y z h).1]
    exact hfree
  have hrenamed : ∀ e a, equalsGlobal e ∈ handingFacts →
      (equalsGlobal a).left =
          Facts.inward (handingFunction handingParams) handingArgs (equalsGlobal e).left ∧
        (equalsGlobal a).op = (equalsGlobal e).op ∧
        (equalsGlobal a).right =
          Facts.inward (handingFunction handingParams) handingArgs (equalsGlobal e).right →
      (equalsGlobal a).left.isScopedTo 0 = false ∧ (equalsGlobal a).right.isScopedTo 0 = false →
      (∀ x ∈ Facts.writtenBy handingResult handingArgs, (equalsGlobal e).mentions x = false) →
      (equalsGlobal a).mentions (.var (handingGlobal "h")) = false → equalsGlobal e ∈ u :=
    fun e a he hname hscope hspared hfree =>
      hcomes _ he _ (.renamed hname.1 hname.2.1 hname.2.2 hscope.1 hscope.2) hspared hfree
  refine ⟨t, u, ht, hu, ?_, ?_, ?_⟩
  · intro e he
    rcases List.mem_cons.1 he with rfl | he
    · exact hrenamed _ (.var (handingParam "a")) (by decide) (by decide) (by decide) (by decide)
        (by decide)
    rcases List.mem_cons.1 he with rfl | he
    · exact hrenamed _ (.lit 7) (by decide) (by decide) (by decide) (by decide) (by decide)
    · obtain rfl := List.mem_singleton.1 he
      exact hrenamed _ (.var (handingParam "c")) (by decide) (by decide) (by decide) (by decide)
        (by decide)
  · exact hcomes _ (by decide) _ (.own (by decide)) (by decide) (by decide)
  · intro hmem
    have hcancel : ∀ y z, Facts.TurnsInto (handingFunction handingParams) handingResult y z →
        ∀ χ ∈ t, Facts.Uncancelled y z χ.left ∧ Facts.Uncancelled y z χ.right := by
      intro y z h χ _
      rw [(hturns y z h).2]
      exact ⟨⟨nofun, nofun⟩, nofun, nofun⟩
    obtain ⟨-, -, χ, htold⟩ := hback hcancel _ hmem (by decide)
    cases htold with
    | own howned => exact absurd howned (by decide)
    | renamed hleft hop hright hl hr =>
      rw [hleft] at hl
      exact absurd hl (by decide)

/-- Whether `main` loses the fact that `e == g` in a call of `f`, although the call does not write
to what the fact is about, and `f` changes nothing. -/
def HandingLoses (params : List String) (result : Option Expr) (args : List Expr)
    (e : Expr) : Prop :=
  (handing params result args).WellFormed ∧
    (handing params result args).CallEdges 6 0 2 0 (handingFunction params) result args ∧
    (∀ v ∈ (equalsGlobal e).vars, v.owner = none ∨ v.owner = some 0) ∧
    (∀ x ∈ Facts.writtenBy result args, (equalsGlobal e).mentions x = false) ∧
    ∃ s t u, (handing params result args).factsAfter s 0 = some t ∧
      (handing params result args).factsAfter t 2 = some u ∧ s = .ofList [equalsGlobal e] ∧
      equalsGlobal e ∈ s ∧ equalsGlobal e ∉ u

/-- What ties a variable of `main` to the global is lost in a call of `f` that does not hand it
over. If it is handed over, it is lost where two parameters of `f` have the same name, or where the
result of the call goes to the parameter itself. -/
theorem factsAfter_handing_loses :
    HandingLoses handingParams none [] (.var (mainVar "z")) ∧
    HandingLoses ["a", "a"] none [.var (mainVar "x"), .lit 5] (.var (mainVar "x")) ∧
    HandingLoses ["a"] (some (.var (handingParam "a"))) [.var (mainVar "x")]
      (.var (mainVar "x")) := by
  refine ⟨?_, ?_, ?_⟩ <;>
    refine ⟨by decide, callEdges_handing _ _ _, by decide, by decide, _, _, _,
      (callEdges_handing _ _ _).entersAt.factsAfter _,
      (callEdges_handing _ _ _).leavesAt.factsAfter _, rfl, ?_, ?_⟩ <;>
    decide +kernel

end Handing

end Program

end Typestate
