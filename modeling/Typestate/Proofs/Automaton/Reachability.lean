import Mathlib.Logic.Basic
import Typestate.Automaton

/-!
# Names that clauses can lead to

What a machine can come to is the least set of state names that has the name of the default
state and, with a name that some clause accepts, each name that the clause enters. A machine is
not checked for this but for less: each listed name is the default one or is entered by some
clause, whatever it takes to come there. The two differ by clauses that only lead to one another.
-/
namespace Typestate

theorem bind_eq_ok_iff {ε α β : Type} {x : Except ε α} {f : α → Except ε β} {b : β} :
    x >>= f = .ok b ↔ ∃ a, x = .ok a ∧ f a = .ok b := by
  cases x <;> simp [bind, Except.bind]

theorem forM_eq_ok_iff {ε α : Type} {l : List α} {f : α → Except ε Unit} :
    l.forM f = .ok () ↔ ∀ x ∈ l, f x = .ok () := by
  induction l with
  | nil => simp [pure, Except.pure]
  | cons x l ih =>
    rw [List.forall_mem_cons, ← ih]
    refine bind_eq_ok_iff.trans ?_
    exact ⟨fun ⟨_, hx, hl⟩ => ⟨hx, hl⟩, fun ⟨hx, hl⟩ => ⟨(), hx, hl⟩⟩

/-- The names of the states that the rules of a clause are known to enter. -/
def StateClause.entered (c : StateClause) : List String :=
  c.rules.flatMap fun r => r.outcomes.flatMap Outcome.entered

namespace Automaton

/-- A clause lists a name, which neither begins nor ends with a star. -/
def Lists (a : Automaton) (name : String) : Prop :=
  State.isWildcard name = false ∧ ∃ c ∈ a.clauses, name ∈ c.states

/-- What clauses lead to from the default state. -/
inductive Reaches (a : Automaton) : String → Prop
  | start : a.Reaches a.default.name
  | enter {c : StateClause} {name entered : String} : c ∈ a.clauses → a.Reaches name →
      listAccepts c.states name = true → entered ∈ c.entered → a.Reaches entered

/-- Clauses that do not apply in the default state, and are led to by one another only. -/
structure CutOff (a : Automaton) (G : StateClause → Prop) : Prop where
  start : ∀ c ∈ a.clauses, G c → listAccepts c.states a.default.name = false
  closed : ∀ c ∈ a.clauses, G c → ∀ d ∈ a.clauses, ∀ name ∈ d.entered,
    listAccepts c.states name = true → G d

variable {a : Automaton} {name : String}

/-- Clauses that are cut off apply to no name that is come to. -/
theorem CutOff.not_accepts {G : StateClause → Prop} (hG : a.CutOff G) (h : a.Reaches name) :
    ∀ c ∈ a.clauses, G c → listAccepts c.states name = false := by
  induction h with
  | start => exact hG.start
  | @enter d before entered hd _ hbefore hentered ih =>
    intro c hc hGc
    -- if `c` applied, `d` would be a member too, and yet applies to the name before
    rw [← Bool.not_eq_true]
    intro haccepts
    rw [ih d hd (hG.closed c hc hGc d hd entered hentered haccepts)] at hbefore
    cases hbefore

/-- The clauses that apply to no name that is come to are cut off. -/
theorem cutOff_unreached (a : Automaton) :
    a.CutOff fun c => ∀ name, a.Reaches name → listAccepts c.states name = false where
  start _ _ hc := hc _ .start
  closed c hc hGc d hd entered hentered haccepts before hbefore := by
    rw [← Bool.not_eq_true]
    intro hd'
    rw [hGc entered (.enter hd hbefore hd' hentered)] at haccepts
    cases haccepts

theorem reaches_iff : a.Reaches name ↔ name = a.default.name ∨
    ∀ G, a.CutOff G → ∃ c ∈ a.clauses, ¬ G c ∧ name ∈ c.entered := by
  constructor
  · intro h
    cases h with
    | start => exact .inl rfl
    | @enter c before _ hc hbefore haccepts hentered =>
      refine .inr fun G hG => ⟨c, hc, fun hGc => ?_, hentered⟩
      rw [hG.not_accepts hbefore c hc hGc] at haccepts
      cases haccepts
  · rintro (rfl | h)
    · exact .start
    · obtain ⟨c, hc, hnot, hentered⟩ := h _ a.cutOff_unreached
      simp only [not_forall, Bool.not_eq_false] at hnot
      obtain ⟨before, hbefore, haccepts⟩ := hnot
      exact .enter hc hbefore haccepts hentered

theorem checkRule_eq_ok_iff {r : Rule × Option Location} : a.checkRule r = .ok () ↔
    a.checkPattern r.2 [] r.1.pattern = .ok () ∧ a.bindsState r.1.pattern = true := by
  rw [checkRule, bind_eq_ok_iff]
  split
  · rename_i hbinds
    constructor
    · exact fun ⟨_, hpattern, _⟩ => ⟨hpattern, hbinds⟩
    · exact fun h => ⟨(), h.1, rfl⟩
  · rename_i hbinds
    constructor
    · rintro ⟨_, _, h⟩
      cases h
    · exact fun h => absurd h.2 hbinds

theorem mem_reachable : name ∈ a.reachable ↔
    name = a.default.name ∨ ∃ c ∈ a.clauses, name ∈ c.entered := by
  rw [reachable, SortedSet.mem_ofList, List.mem_cons]
  refine or_congr_right ?_
  simp only [outcomes, rules, StateClause.entered, List.mem_flatMap, List.mem_map]
  constructor
  · rintro ⟨o, ⟨_, ⟨c, hc, r, hr, rfl⟩, ho⟩, hname⟩
    exact ⟨c, hc, r, hr, o, ho, hname⟩
  · rintro ⟨c, hc, r, hr, o, ho, hname⟩
    exact ⟨o, ⟨_, ⟨c, hc, r, hr, rfl⟩, ho⟩, hname⟩

theorem dead?_eq_none_iff : a.dead? = none ↔ ∀ name, a.Lists name → name ∈ a.reachable := by
  simp only [dead?, List.find?_eq_none, List.mem_flatMap, List.mem_map, Lists, Bool.and_eq_true,
    Bool.not_eq_true', decide_eq_true_eq, not_and, not_not]
  constructor
  · rintro h name ⟨hplain, c, hc, hname⟩
    exact h _ ⟨c, hc, name, hname, rfl⟩ hplain
  · rintro h _ ⟨c, hc, name, hname, rfl⟩ hplain
    exact h name ⟨hplain, c, hc, hname⟩

theorem checkStates_eq_ok_iff : a.checkStates = .ok () ↔
    (a.isDynamic = false → ∀ name, a.Lists name → name ∈ a.reachable) := by
  rw [← dead?_eq_none_iff, checkStates]
  cases a.isDynamic <;> cases a.dead? <;> simp

end Automaton

namespace Machine

variable {m : Machine} {a : Automaton} {name : String}

/-- A machine is compiled into the automaton of its first stateful declaration, if its named
patterns, its rules and its state lists pass. -/
theorem compile_eq_ok_iff : m.compile = .ok a ↔
    ∃ d, m.decls.find? (·.isStateful) = some d ∧ a = m.automaton d ∧
      (m.namedPatterns.forM fun p => a.checkPattern p.location [p.name] p.pattern) = .ok () ∧
      a.rules.forM a.checkRule = .ok () ∧ a.checkStates = .ok () := by
  unfold compile
  cases m.decls.find? (·.isStateful) with
  | none => simp
  | some d =>
    simp only [bind_eq_ok_iff, pure, Except.pure, Except.ok.injEq, Option.some.injEq]
    constructor
    · rintro ⟨_, hnamed, _, hrules, _, hstates, rfl⟩
      exact ⟨d, rfl, rfl, hnamed, hrules, hstates⟩
    · rintro ⟨_, rfl, rfl, hnamed, hrules, hstates⟩
      exact ⟨(), hnamed, (), hrules, (), hstates, rfl⟩

def moved : Decl := ⟨"ptr", .anyPointer, true, none⟩

/-- A machine of pointers with a rule for each shape, which moves what is matched to a state. -/
def moving (clauses : List (List String × List (Shape × String))) : Machine :=
  { name := "moving"
    clauses := .decl moved :: clauses.map fun c =>
      .states ⟨c.1, c.2.map fun r => ⟨.shape r.1, [.goto (.named r.2)], none⟩, none⟩ }

theorem compile_moving {clauses : List (List String × List (Shape × String))}
    (hshapes : ∀ c ∈ clauses, ∀ r ∈ c.2, r.1.defect? = none ∧
      ((moving clauses).automaton moved).unknownDecl? r.1 = none ∧ r.1.mentions "ptr" = true)
    (hdead : ((moving clauses).automaton moved).dead? = none) :
    (moving clauses).compile = .ok ((moving clauses).automaton moved) := by
  have hclauses : (moving clauses).stateClauses = clauses.map fun c =>
      ⟨c.1, c.2.map fun r => ⟨.shape r.1, [.goto (.named r.2)], none⟩, none⟩ := by
    simp only [stateClauses, moving, List.filterMap_cons_none, List.filterMap_map,
      Function.comp_def, List.filterMap_eq_map']
  have hnamed : (moving clauses).namedPatterns = [] := by
    simp [namedPatterns, moving, List.filterMap_map]
  refine compile_eq_ok_iff.2 ⟨moved, rfl, rfl, ?_, forM_eq_ok_iff.2 fun r hr => ?_, ?_⟩
  · rw [hnamed]
    rfl
  · simp only [Automaton.rules, automaton, hclauses, List.flatMap_map, List.map_map,
      List.mem_flatMap, List.mem_map] at hr
    obtain ⟨c, hc, r, hr, rfl⟩ := hr
    obtain ⟨hdefect, hdecl, hbinds⟩ := hshapes c hc r hr
    refine Automaton.checkRule_eq_ok_iff.2 ⟨?_, ?_⟩
    · change ((moving clauses).automaton moved).checkPattern none [] (.shape r.1) = _
      rw [Vocabulary.checkPattern, Vocabulary.checkShape, hdefect, hdecl]
    · exact (Bool.and_true _).trans hbinds
  · rw [Automaton.checkStates_eq_ok_iff]
    exact fun _ => Automaton.dead?_eq_none_iff.1 hdead

/-- In a machine that passes, and whose actions declare what they enter, each listed name is the
default one or entered by some clause. It is come to if it is the default one or if, whatever
clauses are cut off and enter it, one that is not cut off with them enters it too; and only then. -/
theorem compile_reaches_iff (h : m.compile = .ok a) (hstatic : a.isDynamic = false)
    (hlisted : a.Lists name) :
    (name = a.default.name ∨ ∃ c ∈ a.clauses, name ∈ c.entered) ∧
      (a.Reaches name ↔ name = a.default.name ∨ ∀ G, a.CutOff G →
        (∃ c ∈ a.clauses, G c ∧ name ∈ c.entered) → ∃ c ∈ a.clauses, ¬ G c ∧ name ∈ c.entered) := by
  obtain ⟨d, -, -, -, -, hstates⟩ := compile_eq_ok_iff.1 h
  have hentered := Automaton.mem_reachable.1
    (Automaton.checkStates_eq_ok_iff.1 hstates hstatic name hlisted)
  refine ⟨hentered, Automaton.reaches_iff.trans (or_congr_right' fun hne => ?_)⟩
  obtain ⟨c, hc, hname⟩ := hentered.resolve_left hne
  refine forall_congr' fun G => imp_congr_right fun _ => ⟨fun hout _ => hout, fun hin => ?_⟩
  by_cases hG : G c
  · exact hin ⟨c, hc, hG, hname⟩
  · exact ⟨c, hc, hG, hname⟩

/-- Allocated pointers may be freed, and freed ones used. -/
def releasing : List (List String × List (Shape × String)) := [
  (["ptr.start"], [(.callResult (.decl "ptr") "malloc", "ptr.unknown")]),
  (["ptr.unknown"], [(.callArgs "free" [.decl "ptr"], "ptr.freed")]),
  (["ptr.freed"], [(.dereference (.decl "ptr"), "ptr.stop")])]

/-- What is freed is come to: the clause that frees is not cut off, as what allocates leads to
it. -/
theorem compile_reaches_iff_releasing : ∃ a, (moving releasing).compile = .ok a ∧
    a.isDynamic = false ∧ a.Lists "ptr.freed" ∧ a.Reaches "ptr.freed" := by
  have hcompile : (moving releasing).compile = .ok ((moving releasing).automaton moved) :=
    compile_moving (by decide) (by decide)
  have hstatic : ((moving releasing).automaton moved).isDynamic = false := by decide
  have hlisted : ((moving releasing).automaton moved).Lists "ptr.freed" :=
    ⟨by decide, by decide⟩
  refine ⟨_, hcompile, hstatic, hlisted, (compile_reaches_iff hcompile hstatic hlisted).2.2 ?_⟩
  refine .inr fun G hG ⟨c, hc, hGc, hfreed⟩ => ?_
  have hunknown : ∀ c ∈ ((moving releasing).automaton moved).clauses, "ptr.freed" ∈ c.entered →
      listAccepts c.states "ptr.unknown" = true := by decide
  obtain ⟨d, hd, hentered, haccepts⟩ : ∃ d ∈ ((moving releasing).automaton moved).clauses,
      "ptr.unknown" ∈ d.entered ∧ listAccepts d.states "ptr.start" = true := by decide
  have hGd := hG.closed c hc hGc d hd _ hentered (hunknown c hc hfreed)
  exact absurd haccepts (Bool.eq_false_iff.1 (hG.start d hd hGd))

/-- Freed pointers may be used again and those used again freed, but none is freed to begin
with. -/
def recycling : List (List String × List (Shape × String)) := [
  (["ptr.start"], [(.callResult (.decl "ptr") "malloc", "ptr.unknown")]),
  (["ptr.freed"], [(.callArgs "reuse" [.decl "ptr"], "ptr.reused")]),
  (["ptr.reused"], [(.callArgs "free" [.decl "ptr"], "ptr.freed")])]

/-- Two clauses that only lead to each other pass. -/
theorem compile_recycling_unreached : ∃ a, (moving recycling).compile = .ok a ∧
    a.isDynamic = false ∧ a.Lists "ptr.freed" ∧ ¬ a.Reaches "ptr.freed" := by
  refine ⟨_, compile_moving (by decide) (by decide), by decide, ⟨by decide, by decide⟩, ?_⟩
  have hcutOff : ((moving recycling).automaton moved).CutOff
      fun c => listAccepts c.states "ptr.start" = false :=
    ⟨fun _ _ h => h, by decide⟩
  intro hreaches
  obtain ⟨c, hc, hin, hfreed⟩ :=
    (Automaton.reaches_iff.1 hreaches).resolve_left (by decide) _ hcutOff
  revert c
  decide

end Machine

end Typestate
