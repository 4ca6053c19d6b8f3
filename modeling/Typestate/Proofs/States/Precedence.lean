import Typestate.Proofs.Match.Possible
import Typestate.Proofs.States.Distribution

/-!
# Which rules have the last word

Rules with the same targets form a group. Groups are applied in the order of their targets, and
each gives its states to all of them, so the last group that has an expression among its targets
decides in which states the expression is. The rules for what a call writes have it as their only
target. They lose out to rules for other members of its class if it is the first member, since then
the class comes after the expression alone.
-/
namespace Typestate

namespace SortedSet

variable {α : Type} [Ord α] [Std.TransOrd α] [Std.LawfulEqOrd α]

/-- An element alone comes before a larger set that it is in exactly if it is the first there. -/
theorem compare_singleton_eq_lt_iff {x : α} {s : SortedSet α} (hx : x ∈ s)
    (hne : s ≠ singleton x) : compare (singleton x) s = .lt ↔ s.toList.head? = some x := by
  obtain ⟨l, hasc⟩ := s
  change List.compareLex compare [x] l = .lt ↔ l.head? = some x
  cases l with
  | nil => cases hx
  | cons y l =>
    rw [List.compareLex_cons_cons, then_eq_lt_iff, List.head?_cons, Option.some.injEq]
    rcases List.mem_cons.1 hx with rfl | hxl
    · cases l with
      | nil => exact absurd (toList_injective rfl) hne
      | cons z l => simp [List.compareLex]
    · have hyx := (List.pairwise_cons.1 hasc).1 x hxl
      have hgt : compare x y = .gt := by rw [Std.OrientedOrd.eq_swap, hyx]; rfl
      rw [hgt]
      constructor
      · rintro (h | ⟨h, -⟩) <;> cases h
      · rintro rfl
        rw [Std.compare_self] at hyx
        cases hyx

end SortedSet

namespace NodeStates

variable {v : NodeStates} {l : List PossibleMatch} {c c' d d' : EquivClass} {e : Expr}
  {m : PossibleMatch}

/-- What a rule changes, if its expression has a class. -/
def targetsOf (v : NodeStates) (m : PossibleMatch) : Option EquivClass :=
  (v.classOf m.expr).map (targets · m)

theorem targetsOf_eq_some : v.targetsOf m = some d ↔
    ∃ c, v.classOf m.expr = some c ∧ targets c m = d := Option.map_eq_some_iff

/-- The rules of a list with certain targets. -/
def rulesOn (v : NodeStates) (l : List PossibleMatch) (d : EquivClass) : List PossibleMatch :=
  l.filter fun m => v.targetsOf m = some d

theorem mem_rulesOn : m ∈ v.rulesOn l d ↔ m ∈ l ∧ v.targetsOf m = some d := by
  simp [rulesOn]

/-- The rules of a list with certain targets have the last word on one of them. They look at a
class. -/
structure Decides (v : NodeStates) (l : List PossibleMatch) (e : Expr) (d c : EquivClass) :
    Prop where
  mem : e ∈ d
  rule : ∃ m ∈ l, v.classOf m.expr = some c ∧ targets c m = d
  last : ∀ m ∈ l, ∀ d', v.targetsOf m = some d' → e ∈ d' → compare d d' ≠ .lt

theorem Decides.unique (h : v.Decides l e d c) (h' : v.Decides l e d' c') : d = d' ∧ c = c' := by
  obtain ⟨m, hm, hc, hd⟩ := h.rule
  obtain ⟨m', hm', hc', hd'⟩ := h'.rule
  have hle := h.last m' hm' d' (targetsOf_eq_some.2 ⟨c', hc', hd'⟩) h'.mem
  have hge := h'.last m hm d (targetsOf_eq_some.2 ⟨c, hc, hd⟩) h.mem
  have heq : d = d' := by
    refine Std.LawfulEqOrd.eq_of_compare ?_
    cases hcompare : compare d d' with
    | eq => rfl
    | lt => exact absurd hcompare hle
    | gt =>
      rw [Std.OrientedOrd.eq_swap, hcompare] at hge
      exact absurd rfl hge
  exact ⟨heq, cls_eq_of_targets hc hc' (hd.trans (heq.trans hd'.symm))⟩

theorem Decides.not_forall_not_mem (h : v.Decides l e d c) :
    ¬ ∀ m ∈ l, ∀ d, v.targetsOf m = some d → e ∉ d := by
  intro hnone
  obtain ⟨m, hm, hc, hd⟩ := h.rule
  exact hnone m hm d (targetsOf_eq_some.2 ⟨c, hc, hd⟩) h.mem

/-- The group of certain targets has the rules with these, and looks at their class. -/
theorem mem_rules_iff {g : RuleGroup} (hg : (v.groupRules l).get? d = some g) :
    m ∈ g.rules ↔ m ∈ v.rulesOn l d := by
  have hsorts := v.sorts_groupRules l
  rw [mem_rulesOn, targetsOf_eq_some]
  constructor
  · intro hm
    obtain ⟨hl, hc, hd⟩ := hsorts.sound hg hm
    exact ⟨hl, g.cls, hc, hd⟩
  · rintro ⟨hl, c, hc, rfl⟩
    obtain ⟨g', hg', hm⟩ := hsorts.complete hl hc
    exact Option.some.inj (hg.symm.trans hg') ▸ hm

end NodeStates

namespace StatesContext

open NodeStates

variable {ctx : StatesContext} {n : NodeId} {v : NodeStates} {l l' : List PossibleMatch}
  {c d : EquivClass} {e : Expr} {t : State} {g : RuleGroup}

/-- What rules leave of a class: in each of its states those that apply fire, and if none does the
state stays. -/
def Leaves (ctx : StatesContext) (n : NodeId) (v : NodeStates) (l : List PossibleMatch)
    (c : EquivClass) (t : State) : Prop :=
  ∃ s, v.map.MayBe c s ∧
    ((∃ m ∈ l, m.appliesTo s = true ∧ t ∈ (ctx.fire n c s m).states) ∨
      (∀ m ∈ l, m.appliesTo s = false) ∧ t = s)

theorem leaves_congr (h : ∀ m, m ∈ l ↔ m ∈ l') : ctx.Leaves n v l c t ↔ ctx.Leaves n v l' c t := by
  simp only [Leaves, h]

theorem leaves_nil : ctx.Leaves n v [] c t ↔ v.map.MayBe c t := by
  simp [Leaves]

theorem mem_fireGroup_iff_leaves {current : States} (h : v.map.get? g.cls = some current) :
    t ∈ (ctx.fireGroup n g current).states ↔ ctx.Leaves n v g.rules g.cls t := by
  simp only [mem_fireGroup, mem_states_fireIn, Leaves, SortedMap.mayBe_of_get? h]

instance : Decidable (ctx.Leaves n v l c t) :=
  decidable_of_iff (∃ current ∈ v.map.get? c, t ∈ (ctx.fireGroup n ⟨c, l⟩ current).states) <| by
    constructor
    · rintro ⟨current, hcurrent, ht⟩
      exact (mem_fireGroup_iff_leaves (g := ⟨c, l⟩) hcurrent).1 ht
    · rintro h
      obtain ⟨-, ⟨current, hcurrent, -⟩, -⟩ := id h
      exact ⟨current, hcurrent, (mem_fireGroup_iff_leaves (g := ⟨c, l⟩) hcurrent).2 h⟩

theorem exists_leaves (h : ∃ s, v.map.MayBe c s) : ∃ t, ctx.Leaves n v l c t := by
  obtain ⟨s, hs⟩ := h
  obtain ⟨t, ht⟩ := exists_mem_fireIn ctx n ⟨c, l⟩ s
  exact ⟨t, s, hs, mem_states_fireIn.1 ht⟩

/-- After groups of rules an expression has the states that the last group with it among the
targets leaves, or those that it had before. -/
theorem foldl_applyGroup_cases (e : Expr) (r : Applied) (groups : List (EquivClass × RuleGroup))
    (hstates : ∀ x ∈ groups, ∃ current, v.map.get? x.2.cls = some current) :
    (∀ x ∈ groups, e ∉ x.1) ∧
        (∀ t, (groups.foldl (ctx.applyGroup n v) r).exprs.MayBe e t ↔ r.exprs.MayBe e t) ∨
      ∃ before x after, groups = before ++ x :: after ∧ e ∈ x.1 ∧ (∀ y ∈ after, e ∉ y.1) ∧
        ∀ t, (groups.foldl (ctx.applyGroup n v) r).exprs.MayBe e t ↔
          ctx.Leaves n v x.2.rules x.2.cls t := by
  induction groups using List.reverseRecOn with
  | nil => exact .inl ⟨nofun, fun _ => Iff.rfl⟩
  | append_singleton groups x ih =>
    obtain ⟨current, hcurrent⟩ := hstates x (by simp)
    have hstep : ∀ t, ((groups ++ [x]).foldl (ctx.applyGroup n v) r).exprs.MayBe e t ↔
        if e ∈ x.1 then ctx.Leaves n v x.2.rules x.2.cls t
        else (groups.foldl (ctx.applyGroup n v) r).exprs.MayBe e t := by
      intro t
      rw [List.foldl_append, List.foldl_cons, List.foldl_nil, applyGroup, hcurrent]
      simp only [SortedMap.mayBe_foldl_insert, mem_fireGroup_iff_leaves hcurrent]
      rfl
    by_cases he : e ∈ x.1
    · refine .inr ⟨groups, x, [], rfl, he, nofun, fun t => ?_⟩
      rw [hstep, if_pos he]
    · simp only [hstep, if_neg he]
      rcases ih (fun y hy => hstates y (by simp [hy])) with ⟨hnone, hsame⟩ | hlast
      · refine .inl ⟨fun y hy => ?_, hsame⟩
        rcases List.mem_append.1 hy with hy | hy
        · exact hnone y hy
        · exact List.mem_singleton.1 hy ▸ he
      · obtain ⟨before, y, after, rfl, hy, hafter, hleaves⟩ := hlast
        refine .inr ⟨before, y, after ++ [x], by simp, hy, fun z hz => ?_, hleaves⟩
        rcases List.mem_append.1 hz with hz | hz
        · exact hafter z hz
        · exact List.mem_singleton.1 hz ▸ he

/-- The rules with the last word on an expression decide in which states it is; if there are none,
it stays in those that it was in. -/
theorem applyRules_cases (n : NodeId) (v : NodeStates) (l : List PossibleMatch)
    (exprs : ExprStates) (e : Expr) :
    (∀ m ∈ l, ∀ d, v.targetsOf m = some d → e ∉ d) ∧
        (∀ t, (ctx.applyRules n v l exprs).exprs.MayBe e t ↔ exprs.MayBe e t) ∨
      ∃ d c, v.Decides l e d c ∧
        ∀ t, (ctx.applyRules n v l exprs).exprs.MayBe e t ↔ ctx.Leaves n v (v.rulesOn l d) c t := by
  have hsorts := v.sorts_groupRules l
  have hgroup : ∀ m ∈ l, ∀ d, v.targetsOf m = some d →
      ∃ g, (d, g) ∈ (v.groupRules l).entries := by
    intro m hm d hd
    obtain ⟨c, hc, rfl⟩ := targetsOf_eq_some.1 hd
    obtain ⟨g, hg, -⟩ := hsorts.complete hm hc
    exact ⟨g, SortedMap.mem_entries_iff.2 hg⟩
  have hstates : ∀ x ∈ (v.groupRules l).entries,
      ∃ current, v.map.get? x.2.cls = some current := by
    intro x hx
    obtain ⟨m, -, hc, -⟩ := exists_rule_of_mem_groupRules hx
    exact (mem_of_classOf hc).2
  rcases foldl_applyGroup_cases e ⟨exprs, [], []⟩ _ hstates with
    ⟨hnone, hsame⟩ | ⟨before, ⟨d, g⟩, after, hentries, he, hafter, hleaves⟩
  · refine .inl ⟨fun m hm d hd => ?_, hsame⟩
    obtain ⟨g, hg⟩ := hgroup m hm d hd
    exact hnone _ hg
  · have hmem : (d, g) ∈ (v.groupRules l).entries := by simp [hentries]
    have hg := SortedMap.mem_entries_iff.1 hmem
    obtain ⟨m, hm⟩ := hsorts.nonempty hg
    obtain ⟨hl, hc, hd⟩ := hsorts.sound hg hm
    refine .inr ⟨d, g.cls, ⟨he, ⟨m, hl, hc, hd⟩, fun m' hm' d' hd' he' => ?_⟩, fun t => ?_⟩
    · obtain ⟨g', hg'⟩ := hgroup m' hm' d' hd'
      have hasc := (v.groupRules l).ascending
      rw [hentries] at hasc hg'
      rcases List.mem_append.1 hg' with hbefore | hrest
      · exact not_lt_of_lt _ _ ((List.pairwise_append.1 hasc).2.2 _ hbefore _ List.mem_cons_self)
      · rcases List.mem_cons.1 hrest with heq | hrest
        · obtain rfl : d' = d := congrArg Prod.fst heq
          simp [Std.compare_self]
        · exact absurd he' (hafter _ hrest)
    · exact (hleaves t).trans (leaves_congr fun m => mem_rules_iff hg)

theorem mayBe_applyRules_of_decides (h : v.Decides l e d c) {exprs : ExprStates} :
    (ctx.applyRules n v l exprs).exprs.MayBe e t ↔ ctx.Leaves n v (v.rulesOn l d) c t := by
  rcases ctx.applyRules_cases n v l exprs e with ⟨hnone, -⟩ | ⟨d', c', h', hleaves⟩
  · exact absurd hnone h.not_forall_not_mem
  · obtain ⟨rfl, rfl⟩ := h.unique h'
    exact hleaves t

end StatesContext

namespace NodeStates

variable {v : NodeStates} {l : List PossibleMatch} {c d d' : EquivClass} {x e : Expr}
  {m : PossibleMatch}

/-- The rules of a list for members of a class that are not written. -/
def othersOn (v : NodeStates) (l : List PossibleMatch) (d : EquivClass) : List PossibleMatch :=
  l.filter fun m => !m.assigns && decide (v.classOf m.expr = some d)

theorem mem_othersOn : m ∈ v.othersOn l d ↔
    m ∈ l ∧ m.assigns = false ∧ v.classOf m.expr = some d := by
  simp [othersOn]

/-- Whether a class with a rule for another member comes after the written expression alone. -/
def Overrules (v : NodeStates) (l : List PossibleMatch) (x : Expr) (d : EquivClass) : Prop :=
  d.toList.head? = some x ∧ ∃ m, m ∈ v.othersOn l d

/-- The rules of a list act on canonical expressions, and on one of them as what is written. -/
def Writes (l : List PossibleMatch) (x : Expr) : Prop :=
  ∀ m ∈ l, m.expr.IsCanonical ∧ (m.assigns = true ↔ m.expr = x)

theorem targetsOf_of_not_assigns (hassigns : m.assigns = false) :
    v.targetsOf m = v.classOf m.expr := by
  simp [targetsOf, targets, hassigns]

section Writes

variable (hl : Writes l x)
include hl

theorem targets_of_assigns (hm : m ∈ l) (hassigns : m.assigns = true) :
    targets c m = .singleton x := by
  obtain ⟨hcanonical, hexpr⟩ := hl m hm
  rw [targets, if_pos hassigns, Expr.simplify_of_isCanonical hcanonical, hexpr.1 hassigns]

/-- A class with a rule for another member has more members than the one that is written. -/
theorem ne_singleton_of_mem_othersOn (hm : m ∈ v.othersOn l d) : d ≠ .singleton x := by
  rintro rfl
  obtain ⟨hml, hassigns, hc⟩ := mem_othersOn.1 hm
  obtain ⟨hcanonical, hexpr⟩ := hl m hml
  have hmem := (mem_of_classOf hc).1
  rw [SortedSet.mem_singleton, Expr.simplify_of_isCanonical hcanonical] at hmem
  rw [hexpr.2 hmem] at hassigns
  cases hassigns

theorem mem_rulesOn_singleton (hc : v.classOf x = some c) :
    m ∈ v.rulesOn l (.singleton x) ↔ m ∈ l.filter (·.assigns) := by
  rw [mem_rulesOn, List.mem_filter]
  refine and_congr_right fun hm => ?_
  constructor
  · intro htargets
    by_contra hassigns
    have hassigns := Bool.not_eq_true _ ▸ hassigns
    rw [targetsOf_of_not_assigns hassigns] at htargets
    exact ne_singleton_of_mem_othersOn hl (mem_othersOn.2 ⟨hm, hassigns, htargets⟩) rfl
  · intro hassigns
    exact targetsOf_eq_some.2
      ⟨c, ((hl m hm).2.1 hassigns).symm ▸ hc, targets_of_assigns hl hm hassigns⟩

theorem mem_rulesOn_of_ne (hd : d ≠ .singleton x) : m ∈ v.rulesOn l d ↔ m ∈ v.othersOn l d := by
  rw [mem_rulesOn, mem_othersOn]
  refine and_congr_right fun hm => ?_
  cases hassigns : m.assigns with
  | true =>
    simp only [Bool.true_eq_false, false_and, iff_false]
    intro htargets
    obtain ⟨c, -, heq⟩ := targetsOf_eq_some.1 htargets
    exact hd (heq.symm.trans (targets_of_assigns hl hm hassigns))
  | false => rw [targetsOf_of_not_assigns hassigns, and_iff_right rfl]

/-- A set of targets is the written expression alone, or a class with a rule for another member. -/
theorem eq_singleton_or_of_targetsOf (hm : m ∈ l) (htargets : v.targetsOf m = some d) :
    d = .singleton x ∨ m ∈ v.othersOn l d ∧ v.classOf m.expr = some d := by
  cases hassigns : m.assigns with
  | true =>
    obtain ⟨c, -, rfl⟩ := targetsOf_eq_some.1 htargets
    exact .inl (targets_of_assigns hl hm hassigns)
  | false =>
    rw [targetsOf_of_not_assigns hassigns] at htargets
    exact .inr ⟨mem_othersOn.2 ⟨hm, hassigns, htargets⟩, htargets⟩

/-- A class with a rule for another member that holds the written expression overrules exactly if it
comes after the expression alone. -/
theorem overrules_iff (hm : m ∈ v.othersOn l d) (hx : x ∈ d) :
    v.Overrules l x d ↔ compare (.singleton x) d = .lt := by
  rw [SortedSet.compare_singleton_eq_lt_iff hx (ne_singleton_of_mem_othersOn hl hm), Overrules,
    and_iff_left ⟨m, hm⟩]

/-- What is written keeps the last word if no class overrules it. -/
theorem decides_singleton (hc : v.classOf x = some c) (hassigns : ∃ m ∈ l, m.assigns = true)
    (h : ∀ d, ¬ v.Overrules l x d) : v.Decides l x (.singleton x) c := by
  obtain ⟨m, hm, hassigns⟩ := hassigns
  refine ⟨SortedSet.mem_singleton.2 rfl, ⟨m, hm, ((hl m hm).2.1 hassigns).symm ▸ hc,
    targets_of_assigns hl hm hassigns⟩, fun m' hm' d htargets hx => ?_⟩
  rcases eq_singleton_or_of_targetsOf hl hm' htargets with rfl | ⟨hother, -⟩
  · simp [Std.compare_self]
  · exact fun hlt => h d ((overrules_iff hl hother hx).2 hlt)

/-- The last of the classes that overrule what is written has the last word. -/
theorem decides_of_overrules (h : v.Overrules l x d)
    (hlast : ∀ d', v.Overrules l x d' → compare d d' ≠ .lt) : v.Decides l x d d := by
  obtain ⟨hhead, m, hm⟩ := h
  have hx : x ∈ d := List.mem_of_mem_head? hhead
  obtain ⟨hml, hassigns, hc⟩ := mem_othersOn.1 hm
  have hlt := (overrules_iff hl hm hx).1 ⟨hhead, m, hm⟩
  refine ⟨hx, ⟨m, hml, hc, by simp [targets, hassigns]⟩, fun m' hm' d' htargets hx' => ?_⟩
  rcases eq_singleton_or_of_targetsOf hl hm' htargets with rfl | ⟨hother, -⟩
  · exact not_lt_of_lt _ _ hlt
  · by_cases hover : v.Overrules l x d'
    · exact hlast d' hover
    · exact fun hdd' => hover ((overrules_iff hl hother hx').2 (Std.TransCmp.lt_trans hlt hdd'))

end Writes

end NodeStates

namespace StatesContext

open NodeStates

variable {ctx : StatesContext} {n n' : NodeId} {v u : NodeStates} {l : List PossibleMatch}
  {c d : EquivClass} {x y : Expr} {t : State}

/-- Another expression than what is written, and which is in one class only, is in the states that
the rules for other members leave of its class. -/
theorem mayBe_applyRules_other (hl : Writes l x) (hy : y ≠ x) (hyc : y ∈ c)
    (honly : ∀ d s, v.map.get? d = some s → y ∈ d → d = c) {exprs : ExprStates}
    (hexprs : ∀ t, exprs.MayBe y t ↔ v.map.MayBe c t) :
    (ctx.applyRules n v l exprs).exprs.MayBe y t ↔ ctx.Leaves n v (v.othersOn l c) c t := by
  have hc : c ≠ .singleton x := by
    rintro rfl
    exact hy (SortedSet.mem_singleton.1 hyc)
  rcases ctx.applyRules_cases n v l exprs y with ⟨hnone, hsame⟩ | ⟨d, d', hdecides, hleaves⟩
  · have hempty : v.othersOn l c = [] := by
      refine List.eq_nil_iff_forall_not_mem.2 fun m hm => ?_
      obtain ⟨hml, hassigns, hmc⟩ := mem_othersOn.1 hm
      exact hnone m hml c ((targetsOf_of_not_assigns hassigns).trans hmc) hyc
    rw [hsame, hexprs, hempty, leaves_nil]
  · obtain ⟨m, hm, hmd, htargets⟩ := hdecides.rule
    have hyd : y ∈ d' := mem_of_mem_targets hmd (htargets ▸ hdecides.mem)
    obtain ⟨s, hs⟩ := (mem_of_classOf hmd).2
    obtain rfl := honly d' s hs hyd
    have hd : d = d' := by
      unfold targets at htargets
      split at htargets
      · rename_i hassigns
        have hsingle := targets_of_assigns (c := d') hl hm hassigns
        rw [targets, if_pos hassigns] at hsingle
        rw [← htargets, hsingle] at hdecides
        exact absurd (SortedSet.mem_singleton.1 hdecides.mem) hy
      · exact htargets.symm
    rw [hleaves, hd]
    exact leaves_congr fun m => mem_rulesOn_of_ne hl hc

theorem mem_gather_of_forall {exprs : ExprStates} {P : State → Prop} (hne : ∃ y, y ∈ d)
    (hP : ∃ t, P t) (h : ∀ y ∈ d, ∀ t, exprs.MayBe y t ↔ P t) : t ∈ ctx.gather exprs d ↔ P t := by
  obtain ⟨y, hy⟩ := hne
  obtain ⟨t', ht'⟩ := hP
  rw [mem_gather]
  constructor
  · rintro (⟨z, hz, ht⟩ | ⟨hnone, -⟩)
    · exact (h z hz t).1 ht
    · exact absurd ((h y hy t').2 ht') (hnone y hy t')
  · exact fun ht => .inl ⟨y, hy, (h y hy t).2 ht⟩

/-- The rules along an edge act on canonical expressions, and assign to what its call writes. -/
theorem writes_possibleAt {p : Program} {a : Automaton} {facts : FactsSolution} {e : EdgeId}
    {edge : Edge} (he : p.edges[e]? = some edge) {r : Expr} {callee : String} {args : List Expr}
    (hstmt : p.stmtAt edge.source = some (.call (some r) callee args)) :
    Writes ((StatesContext.of p a facts).possibleAt e) r.simplify :=
  fun _ hm => Automaton.assigns_iff_of_mem_possibleAt (mem_possibleAt_of hm) he hstmt rfl

/-- What a call inside a function writes is afterwards in the states that the rules for it leave,
unless its old class has it as the first member and a rule for another one: then the last of these
classes has the last word, and its rules decide. The other members are in the states that the rules
for them leave, in any case. -/
theorem transfer_written_iff {p : Program} {a : Automaton} {facts : FactsSolution} {e : EdgeId}
    {edge : Edge} {guard : Guard} {r : Expr} {callee : String} {args : List Expr}
    (he : p.edges[e]? = some edge) (hk : edge.kind = .flow guard)
    (hstmt : p.stmtAt edge.source = some (.call (some r) callee args))
    (hassigns : ∃ m ∈ (StatesContext.of p a facts).possibleAt e, m.assigns = true)
    (hv : v.map.Filled) (hc : v.classOf r = some c)
    (hx : .singleton r.simplify ∈ (StatesContext.of p a facts).classesAt edge.target)
    (hu : ((StatesContext.of p a facts).transfer v e).result = some u) :
    let ctx := StatesContext.of p a facts
    let l := ctx.possibleAt e
    let carried := v.carried (p.functionIdOf edge.target)
    ((∀ d, ¬ v.Overrules l r.simplify d) → ∀ t, u.map.MayBe (.singleton r.simplify) t ↔
      ctx.Leaves edge.source v (l.filter (·.assigns)) c t ∨
        carried.MayBe (.singleton r.simplify) t) ∧
    (∀ d, v.Overrules l r.simplify d →
      (∀ d', v.Overrules l r.simplify d' → compare d d' ≠ .lt) →
      ∀ t, u.map.MayBe (.singleton r.simplify) t ↔
        ctx.Leaves edge.source v (v.othersOn l d) d t ∨
          carried.MayBe (.singleton r.simplify) t) ∧
    ∀ d ∈ ctx.classesAt edge.target,
      EquivClass.isInScope c (p.functionIdOf edge.target) = true →
      (∀ y ∈ d, y ≠ r.simplify ∧ y ∈ c ∧ ∀ d' s, v.map.get? d' = some s → y ∈ d' → d' = c) →
      ∀ t, u.map.MayBe d t ↔
        ctx.Leaves edge.source v (v.othersOn l c) c t ∨ carried.MayBe d t := by
  intro ctx l carried
  have hl : Writes l r.simplify := writes_possibleAt he hstmt
  have hxc : v.classOf r.simplify = some c := by
    rw [← hc]
    exact classOf_congr (Expr.simplify_of_isCanonical r.isCanonical_simplify)
  have hmay : ∀ {d}, (∃ s, v.map.get? d = some s) → ∃ s, v.map.MayBe d s := by
    rintro d ⟨s, hs⟩
    exact hv.exists_mayBe_iff.2 ⟨s, hs⟩
  have hresult : ∀ d t, u.map.MayBe d t ↔ d ∈ ctx.classesAt edge.target ∧
      t ∈ ctx.gather (ctx.applyRules edge.source v l
        (v.flatten (p.functionIdOf edge.target))).exprs d ∨ carried.MayBe d t := by
    intro d t
    have hcopy : (ctx.program.stmtAt edge.source).bind Statement.copy? = none := by
      rw [show ctx.program.stmtAt edge.source = _ from hstmt]
      rfl
    rw [transfer_flow he (isFeasible_of_result hu) hk, flow_of_copy_eq_none hcopy] at hu
    obtain rfl := Option.some.inj hu
    exact mayBe_regroup_iff
  have hwritten : ∀ {d d'} {l'}, v.Decides l r.simplify d d' →
      (∀ m, m ∈ v.rulesOn l d ↔ m ∈ l') → ∀ t, u.map.MayBe (.singleton r.simplify) t ↔
        ctx.Leaves edge.source v l' d' t ∨ carried.MayBe (.singleton r.simplify) t := by
    intro d d' l' hdecides hrules t
    obtain ⟨m, -, hmd, -⟩ := hdecides.rule
    rw [hresult, and_iff_right hx]
    refine or_congr (mem_gather_of_forall ⟨_, SortedSet.mem_singleton.2 rfl⟩
      (exists_leaves (hmay (mem_of_classOf hmd).2)) fun y hy t => ?_) Iff.rfl
    rw [SortedSet.mem_singleton.1 hy, mayBe_applyRules_of_decides hdecides]
    exact leaves_congr hrules
  refine ⟨fun hno => ?_, fun d hover hlast => ?_, fun d hd hscope hmembers t => ?_⟩
  · exact hwritten (decides_singleton hl hxc hassigns hno) fun m => mem_rulesOn_singleton hl hxc
  · obtain ⟨m, hm⟩ := hover.2
    exact hwritten (decides_of_overrules hl hover hlast) fun m' =>
      mem_rulesOn_of_ne hl (ne_singleton_of_mem_othersOn hl hm)
  · rw [hresult, and_iff_right hd]
    refine or_congr (mem_gather_of_forall (partitioned_of.nonempty hd)
      (exists_leaves (hmay (mem_of_classOf hc).2)) fun y hy t => ?_) Iff.rfl
    obtain ⟨hne, hyc, honly⟩ := hmembers y hy
    refine mayBe_applyRules_other hl hne hyc honly fun t => ?_
    rw [mayBe_flatten]
    constructor
    · rintro ⟨d', hyd', -, s, hs, ht⟩
      exact honly d' s hs hyd' ▸ ⟨s, hs, ht⟩
    · exact fun ht => ⟨c, hyc, hscope, ht⟩

end StatesContext

namespace Analysis

theorem filled_of_solve {p : Program} {m : Automaton} {limit : Nat} {a : Analysis} {n : NodeId}
    {v : NodeStates} (hwf : p.WellFormed) (ha : solve p m limit = .ok a)
    (hv : a.states.value n = some v) : v.map.Filled := by
  obtain ⟨facts, -, hctx, hsolve⟩ := solve_eq_ok ha
  rw [hctx] at hsolve
  exact fun _ _ hs => ((StatesContext.preserves_covers hwf).solve hsolve hv).nonempty hs

def resized (name : String) : Expr := .var ⟨name, some 0, .param, .pointer⟩

/-- The program `x = malloc(8); y = x; x = realloc(y, 16); ;` with parameters of the given names for
`x` and `y`. -/
def resizing (written other : String) : Program :=
  let node (kind : NodeKind) (stmt : Option Statement) : Node := ⟨some 0, kind, stmt, none⟩
  { nodes := #[⟨none, .root, none, none⟩, node .entry none, node .exit none,
      node .statement (some (.call (some (resized written)) "malloc" [.lit 8])),
      node .statement (some (.assign (resized other) (.use (resized written)))),
      node .statement (some (.call (some (resized written)) "realloc" [resized other, .lit 16])),
      node .statement (some .nop)]
    edges := #[⟨1, 3, .flow .always⟩, ⟨3, 4, .flow .always⟩, ⟨4, 5, .flow .always⟩,
      ⟨5, 6, .flow .always⟩, ⟨6, 2, .flow .always⟩, ⟨0, 1, .root⟩]
    functions := #[⟨0, "f", [⟨"p", some 0, .param, .pointer⟩, ⟨"q", some 0, .param, .pointer⟩], [],
      1, 2, none, none, none⟩]
    globals := [] }

/-- The machine that knows of `realloc` that it frees its argument. -/
def resizes : Automaton :=
  let ptr : Decl := ⟨"ptr", .anyPointer, true, none⟩
  let rule (shape : Shape) (target : String) : Rule := ⟨.shape shape, [.goto (.named target)], none⟩
  let machine : Machine :=
    { name := "resizes"
      clauses := [.decl ptr,
        .states ⟨["ptr.start"], [rule (.callResult (.decl "ptr") "malloc") "ptr.unknown"], none⟩,
        .states ⟨["ptr.*"], [rule (.callResult (.decl "ptr") "realloc") "ptr.unknown"], none⟩,
        .states ⟨["ptr.unknown"], [rule (.callArgs "realloc" [.decl "ptr"]) "ptr.freed"], none⟩] }
  machine.automaton ptr

/-- If what is written has the second name, it is in the states that the rule for it leaves. -/
theorem transfer_written_iff_resizing : ∃ a v u c, solve (resizing "q" "p") resizes 100 = .ok a ∧
    a.states.value 5 = some v ∧ (a.context.transfer v 3).result = some u ∧
    v.classOf (resized "q") = some c ∧ resized "p" ∈ c ∧
    (∃ m ∈ v.othersOn (a.context.possibleAt 3) c, m.appliesTo (.named "ptr.unknown") = true) ∧
    ∀ t, u.map.MayBe (.singleton (resized "q")) t ↔
      a.context.Leaves 5 v ((a.context.possibleAt 3).filter (·.assigns)) c t := by
  obtain ⟨a, ha, htest⟩ := exists_eq_ok_of_any (solve (resizing "q" "p") resizes 100)
    (fun a => (a.states.value 5).any fun v => (a.context.transfer v 3).result.isSome &&
      ((a.context.possibleAt 3).any (·.assigns) &&
        decide (SortedSet.singleton (resized "q") ∈ a.context.classesAt 6) &&
        ((a.context.possibleAt 3).all fun m =>
          (v.classOf m.expr).all fun d : EquivClass =>
            decide (d.toList.head? ≠ some (resized "q"))) &&
        (v.classOf (resized "q")).any fun c => decide (resized "p" ∈ c) &&
          (v.othersOn (a.context.possibleAt 3) c).any (·.appliesTo (.named "ptr.unknown"))))
    (by decide +kernel)
  obtain ⟨v, hv, htest⟩ := (Option.any_eq_true _ _).1 htest
  simp only [Bool.and_eq_true, decide_eq_true_eq, List.any_eq_true, List.all_eq_true] at htest
  obtain ⟨hresult, ⟨⟨hassigns, hclass⟩, hfirst⟩, htest⟩ := htest
  obtain ⟨c, hc, htest⟩ := (Option.any_eq_true _ _).1 htest
  simp only [Bool.and_eq_true, decide_eq_true_eq, List.any_eq_true] at htest
  obtain ⟨u, hu⟩ := Option.isSome_iff_exists.1 hresult
  refine ⟨a, v, u, c, ha, hv, hu, hc, htest.1, htest.2, ?_⟩
  have hfilled := filled_of_solve (by decide) ha hv
  obtain ⟨facts, -, hctx, -⟩ := solve_eq_ok ha
  rw [hctx] at hu hassigns hclass hfirst ⊢
  have hmain := (StatesContext.transfer_written_iff (p := resizing "q" "p") rfl rfl rfl hassigns
    hfilled hc hclass hu).1
  have hno : ∀ d, ¬ v.Overrules ((StatesContext.of (resizing "q" "p") resizes facts).possibleAt 3)
      (resized "q") d := by
    rintro d ⟨hhead, m, hm⟩
    obtain ⟨hml, -, hmc⟩ := NodeStates.mem_othersOn.1 hm
    simpa [hmc, hhead] using hfirst m hml
  intro t
  refine (hmain hno t).trans (or_iff_left ?_)
  rintro ⟨s, hs, -⟩
  rw [NodeStates.get?_carried, if_pos (by decide)] at hs
  cases hs

/-- If it has the first name, then the rule for the argument has the last word: what is written is
freed, which the rule for it does not leave. -/
theorem resizing_frees_written : ∃ a v u c t, (resizing "p" "q").WellFormed ∧
    solve (resizing "p" "q") resizes 100 = .ok a ∧ a.states.value 5 = some v ∧
    (a.context.transfer v 3).result = some u ∧ v.classOf (resized "p") = some c ∧
    (∃ m ∈ a.context.possibleAt 3, m.assigns = true) ∧
    .singleton (resized "p") ∈ a.context.classesAt 6 ∧
    u.map.MayBe (.singleton (resized "p")) t ∧
    ¬ a.context.Leaves 5 v ((a.context.possibleAt 3).filter (·.assigns)) c t := by
  obtain ⟨a, ha, htest⟩ := exists_eq_ok_of_any (solve (resizing "p" "q") resizes 100)
    (fun a => (a.states.value 5).any fun v => (a.context.transfer v 3).result.any fun u =>
      (v.classOf (resized "p")).any fun c => (a.context.possibleAt 3).any (·.assigns) &&
        decide (SortedSet.singleton (resized "p") ∈ a.context.classesAt 6) &&
        ((u.map.get? (.singleton (resized "p"))).any fun s => s.toList.any fun t =>
          decide ¬ a.context.Leaves 5 v ((a.context.possibleAt 3).filter (·.assigns)) c t))
    (by decide +kernel)
  simp only [Option.any_eq_true, Bool.and_eq_true, decide_eq_true_eq, List.any_eq_true] at htest
  obtain ⟨v, hv, u, hu, c, hc, ⟨hassigns, hclass⟩, s, hs, t, ht, hnot⟩ := htest
  exact ⟨a, v, u, c, t, by decide, ha, hv, hu, hc, hassigns, hclass, ⟨s, hs, ht⟩, hnot⟩

end Analysis

end Typestate
