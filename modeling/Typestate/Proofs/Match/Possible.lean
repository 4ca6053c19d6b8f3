import Typestate.States.Context

/-!
# What possible matches act on

A rule may fire along an edge for a reading of the edge's statement, or of a leak, that binds its
declarations. They are bound to canonical expressions, so a rule acts on what the statement writes
exactly if the two are the same expression.
-/
namespace Typestate

namespace Bindings

variable {b b' : Bindings} {name : String} {e : Expr}

/-- Whether all names are bound to canonical expressions. -/
def Canonical (b : Bindings) : Prop := ∀ name e, b.get? name = some e → e.IsCanonical

theorem canonical_empty : Canonical ∅ := nofun

theorem Canonical.bind (h : Canonical b) (he : e.IsCanonical) (hb : b.bind name e = some b') :
    Canonical b' := by
  unfold Bindings.bind at hb
  split at hb
  · split at hb
    · exact Option.some.inj hb ▸ h
    · cases hb
  · obtain rfl := Option.some.inj hb
    intro name' e' he'
    rw [SortedMap.get?_insert] at he'
    split at he'
    · exact Option.some.inj he' ▸ he
    · exact h name' e' he'

theorem eq_of_bind_empty (hb : Bindings.bind ∅ name e = some b) {name' : String} {e' : Expr}
    (he' : b.get? name' = some e') : e' = e := by
  obtain rfl := Option.some.inj hb
  rw [SortedMap.get?_insert] at he'
  split at he'
  · exact (Option.some.inj he').symm
  · cases he'

end Bindings

/-- Whether a match tells of a leak. -/
def Match.isLeak (found : Match) : Bool :=
  match found.shape with
  | .leaked _ => true
  | _ => false

namespace Vocabulary

variable {v : Vocabulary} {b b' : Bindings} {o : Operand} {e : Expr} {name : String}

theorem canonical_bindDecl (h : b.Canonical) (he : e.IsCanonical)
    (hb : v.bindDecl name e b = some b') : b'.Canonical := by
  unfold bindDecl at hb
  split at hb
  · split at hb
    · exact h.bind he hb
    · cases hb
  · cases hb

theorem canonical_bindCanonical (h : b.Canonical) (he : e.IsCanonical)
    (hb : v.bindCanonical o b e = some b') : b'.Canonical := by
  induction e with
  | lit n =>
    cases o with
    | int k =>
      unfold bindCanonical at hb
      dsimp only at hb
      split at hb
      · exact Option.some.inj hb ▸ h
      · cases hb
    | decl name => exact canonical_bindDecl h he hb
  | var x | ssa x k =>
    cases o with
    | int k => cases hb
    | decl name => exact canonical_bindDecl h he hb
  | addrOf e ih => exact ih he.1 hb
  | field e f t ih => exact ih he hb
  | text s | deref e ih | index a i t iha ihi => cases hb

theorem canonical_bindAll {r : Reading} (hb : v.bindAll r = some b) : b.Canonical := by
  have run : ∀ (r : Reading) (b b' : Bindings), b.Canonical →
      r.foldlM (fun b x => v.bind x.2 x.1 b) b = some b' → b'.Canonical := by
    intro r
    induction r with
    | nil => exact fun b b' h hb => Option.some.inj hb ▸ h
    | cons x r ih =>
      intro b b' h hb
      obtain ⟨b₁, hx, hr⟩ := Option.bind_eq_some_iff.1 hb
      exact ih b₁ b' (canonical_bindCanonical h x.1.isCanonical_simplify hx) hr
  exact run r ∅ b Bindings.canonical_empty hb

theorem exists_reading_of_mem_matchesOf {p : Pattern} {readings : Shape → List Reading}
    {found : Match} (h : found ∈ v.matchesOf p readings) :
    ∃ r ∈ readings found.shape, v.bindAll r = some found.bindings := by
  unfold matchesOf at h
  rw [List.mem_eraseDups] at h
  obtain ⟨shape, -, h⟩ := List.mem_flatMap.1 h
  obtain ⟨b, hb, rfl⟩ := List.mem_map.1 h
  exact List.mem_filterMap.1 hb

theorem eq_of_bind_var {x : Variable} (hb : v.bind o (.var x) ∅ = some b)
    (he : b.get? name = some e) : e = .var x := by
  cases o with
  | int k => cases hb
  | decl name' =>
    change v.bindDecl name' (.var x) ∅ = some b at hb
    unfold bindDecl at hb
    split at hb
    · split at hb
      · exact Bindings.eq_of_bind_empty hb he
      · cases hb
    · cases hb

theorem isLeak_of_mem_stmtMatches {p : Pattern} {stmt : Statement} {found : Match}
    (h : found ∈ v.stmtMatches p stmt) : found.isLeak = false := by
  obtain ⟨r, hr, -⟩ := exists_reading_of_mem_matchesOf h
  unfold Match.isLeak
  split
  · rename_i operand hshape
    rw [hshape] at hr
    cases stmt <;> cases hr
  · rfl

theorem mem_of_mem_leakMatches {p : Pattern} {leaked : List Expr} {found : Match}
    (h : found ∈ v.leakMatches p leaked) (hvars : ∀ x ∈ leaked, ∃ y, x = .var y)
    (he : found.bindings.get? name = some e) : e ∈ leaked := by
  obtain ⟨r, hr, hb⟩ := exists_reading_of_mem_matchesOf h
  unfold Shape.leakReadings at hr
  split at hr
  · obtain ⟨x, hx, rfl⟩ := List.mem_map.1 hr
    obtain ⟨y, rfl⟩ := hvars x hx
    obtain ⟨b, hb, hrest⟩ := Option.bind_eq_some_iff.1 hb
    cases hrest
    exact eq_of_bind_var hb he ▸ hx
  · cases hr

end Vocabulary

namespace Automaton

variable {a : Automaton} {p : Program} {leaked : List Expr} {e : EdgeId} {m : PossibleMatch}

theorem mem_allMatches {pattern : Pattern} {stmt : Option Statement} {found : Match} :
    found ∈ a.allMatches pattern stmt leaked ↔
      (∃ s, stmt = some s ∧ found ∈ a.stmtMatches pattern s) ∨
        found ∈ a.leakMatches pattern leaked := by
  unfold allMatches
  rw [List.mem_append]
  cases stmt <;> simp

theorem canonical_of_mem_allMatches {pattern : Pattern} {stmt : Option Statement} {found : Match}
    (h : found ∈ a.allMatches pattern stmt leaked) : found.bindings.Canonical := by
  rcases mem_allMatches.1 h with ⟨s, -, h⟩ | h <;>
    obtain ⟨r, -, hb⟩ := Vocabulary.exists_reading_of_mem_matchesOf h <;>
    exact Vocabulary.canonical_bindAll hb

/-- A possible match stems from a rule of a clause and a match of its pattern. -/
theorem exists_rule_of_mem_possibleAt (h : m ∈ a.possibleAt p leaked e) :
    ∃ source target guard c r found, p.edges[e]? = some ⟨source, target, .flow guard⟩ ∧
      c ∈ a.clauses ∧ r ∈ c.rules ∧ found ∈ a.allMatches r.pattern (p.stmtAt source) leaked ∧
      found.bindings.get? a.stateful.name = some m.expr ∧
      m = { expr := m.expr
            states := c.states
            pattern := r.pattern
            outcomes := r.outcomes.filterMap (·.onBranch (EdgeKind.flow guard).branch?)
            found
            location := r.location.or c.location
            assigns := (p.stmtAt source).bind (fun s => s.defined?.map Expr.simplify) =
              some m.expr } := by
  unfold possibleAt at h
  split at h
  · rename_i source target guard hedge
    obtain ⟨c, hc, h⟩ := List.mem_flatMap.1 h
    obtain ⟨r, hr, h⟩ := List.mem_flatMap.1 h
    unfold possibleOfRule at h
    dsimp only at h
    split at h
    · cases h
    · obtain ⟨found, hfound, h⟩ := List.mem_filterMap.1 h
      obtain ⟨x, hx, rfl⟩ := Option.map_eq_some_iff.1 h
      exact ⟨source, target, guard, c, r, found, hedge, hc, hr, hfound, hx, rfl⟩
  · cases h

theorem assigns_iff_of_mem_possibleAt (h : m ∈ a.possibleAt p leaked e) {edge : Edge}
    (he : p.edges[e]? = some edge) {stmt : Statement} (hstmt : p.stmtAt edge.source = some stmt)
    {r : Expr} (hr : stmt.defined? = some r) :
    m.expr.IsCanonical ∧ (m.assigns = true ↔ m.expr = r.simplify) := by
  obtain ⟨source, target, guard, c, rule, found, hedge, -, -, hfound, hx, hm⟩ :=
    exists_rule_of_mem_possibleAt h
  obtain rfl := Option.some.inj (he.symm.trans hedge)
  refine ⟨canonical_of_mem_allMatches hfound _ _ hx, ?_⟩
  rw [hm]
  simp [hstmt, hr, eq_comm]

theorem expr_mem_of_isLeak (h : m ∈ a.possibleAt p leaked e)
    (hvars : ∀ x ∈ leaked, ∃ y, x = .var y) (hleak : m.found.isLeak = true) :
    m.expr ∈ leaked := by
  obtain ⟨source, target, guard, c, rule, found, -, -, -, hfound, hx, hm⟩ :=
    exists_rule_of_mem_possibleAt h
  rw [hm] at hleak
  rcases mem_allMatches.1 hfound with ⟨s, -, hfound⟩ | hfound
  · rw [Vocabulary.isLeak_of_mem_stmtMatches hfound] at hleak
    cases hleak
  · exact Vocabulary.mem_of_mem_leakMatches hfound hvars hx

end Automaton

/-- The rules that may fire along an edge are possible matches there, given the leaks along it. -/
theorem StatesContext.mem_possibleAt_of {p : Program} {a : Automaton} {facts : FactsSolution}
    {e : EdgeId} {m : PossibleMatch} (h : m ∈ (StatesContext.of p a facts).possibleAt e) :
    m ∈ a.possibleAt p (p.leaksAt a.stateful facts.value e) e := by
  unfold possibleAt StatesContext.of at h
  simp only [Array.getElem?_map] at h
  cases he : (Array.range p.edges.size)[e]? with
  | none => simp [he] at h
  | some e' =>
    have heq : e' = e := by
      obtain ⟨_, heq⟩ := Array.getElem?_eq_some_iff.1 he
      rw [← heq, Array.getElem_range]
    subst heq
    simpa only [he, Option.map_some, Option.getD_some] using h

end Typestate
