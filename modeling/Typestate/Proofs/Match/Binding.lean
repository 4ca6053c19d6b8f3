import Typestate.Proofs.Automaton.References
import Typestate.Proofs.Match.Possible

/-!
# What a match binds

A match is a shape of the pattern with a reading of what is matched: each operand of the shape
stands for the variable, version or literal behind the expression that is read, and a name that
occurs several times stands for the same one each time. The rules of a machine that is compiled bind
the declaration that carries the state in each shape, so no match of a rule is dropped for lack of
an expression to act on.
-/
namespace Typestate

namespace Expr

/-- What an address or a member of an aggregate counts as. -/
def behind : Expr → Expr
  | addrOf e | field e _ _ => e.behind
  | e => e

def IsAtom : Expr → Prop
  | var _ | ssa _ _ | lit _ => True
  | _ => False

theorem IsCanonical.behind {e : Expr} (h : e.IsCanonical) : e.behind.IsCanonical := by
  induction e with
  | addrOf e ih => exact ih h.1
  | field e f t ih => exact ih h
  | _ => exact h

end Expr

namespace Pattern

/-- Whether a shape is a leaf of a pattern, below disjunctions and references. -/
inductive HasLeaf (table : Table) : Pattern → Shape → Prop
  | shape (s : Shape) : HasLeaf table (.shape s) s
  | either {ps p s} : p ∈ ps → HasLeaf table p s → HasLeaf table (.either ps) s
  | named {name p s} : table.get? name = some p → HasLeaf table p s → HasLeaf table (.named name) s

end Pattern

namespace Bindings

variable {b b' : Bindings} {name : String} {e : Expr}

/-- Whether an operand stands for an expression. -/
def Resolves (b : Bindings) (o : Operand) (e : Expr) : Prop :=
  match o with
  | .decl name => b.get? name = some e.simplify.behind
  | .int n => e.simplify.behind = .lit n

/-- Whether one binds what another does. -/
def Extends (b' b : Bindings) : Prop := ∀ name e, b.get? name = some e → b'.get? name = some e

theorem bind_eq_some_iff : b.bind name e = some b' ↔
    (∀ bound, b.get? name = some bound → bound = e) ∧ b' = b.insert name e := by
  unfold Bindings.bind
  cases h : b.get? name with
  | none => simp [eq_comm]
  | some bound =>
    by_cases hbound : bound = e
    · subst hbound
      have hsame : b.insert name bound = b := SortedMap.ext fun k => by
        rw [SortedMap.get?_insert]
        split
        · rename_i hk
          rw [hk, h]
        · rfl
      simp [hsame, eq_comm]
    · simp [hbound]

theorem get?_of_bind (h : b.bind name e = some b') (name' : String) :
    b'.get? name' = if name' = name then some e else b.get? name' := by
  rw [(bind_eq_some_iff.1 h).2, SortedMap.get?_insert]

theorem extends_of_bind (h : b.bind name e = some b') : b'.Extends b := by
  intro name' e' he'
  rw [get?_of_bind h]
  split
  · rename_i hname
    rw [(bind_eq_some_iff.1 h).1 e' (hname ▸ he')]
  · exact he'

theorem Extends.resolves (h : b'.Extends b) {o : Operand} (ho : b.Resolves o e) :
    b'.Resolves o e := by
  cases o with
  | decl name => exact h name _ ho
  | int n => exact ho

end Bindings

namespace Vocabulary

variable {v : Vocabulary} {b b' : Bindings} {o : Operand} {e : Expr} {name : String} {n : Int}
  {r : Reading} {p : Pattern}

/-- Whether an expression is one that a name may be bound to: an atom in canonical form that the
declaration of the name accepts. -/
structure Admits (v : Vocabulary) (name : String) (e : Expr) : Prop where
  atom : e.IsAtom
  simplified : e.simplify = e
  accepted : ∃ d, v.decls.get? name = some d ∧ d.accepts e = true

theorem bindDecl_eq_some_iff : v.bindDecl name e b = some b' ↔
    (∃ d, v.decls.get? name = some d ∧ d.accepts e = true) ∧ b.bind name e = some b' := by
  unfold bindDecl
  cases v.decls.get? name with
  | none => simp
  | some d => cases hd : d.accepts e <;> simp [hd]

theorem bindCanonical_int : v.bindCanonical (.int n) b e = some b' ↔
    e.behind = .lit n ∧ b' = b := by
  induction e with
  | lit k => simp [bindCanonical, Expr.behind, eq_comm]
  | addrOf e ih | field e f t ih => exact ih
  | _ => simp [bindCanonical, Expr.behind]

theorem bindCanonical_decl : v.bindCanonical (.decl name) b e = some b' ↔
    e.behind.IsAtom ∧ v.bindDecl name e.behind b = some b' := by
  induction e with
  | addrOf e ih | field e f t ih => exact ih
  | _ => simp [bindCanonical, Expr.behind, Expr.IsAtom]

theorem bind_eq_some_iff : v.bind o e b = some b' ↔
    match o with
    | .int n => e.simplify.behind = .lit n ∧ b' = b
    | .decl name => v.Admits name e.simplify.behind ∧ b.bind name e.simplify.behind = some b' := by
  cases o with
  | int n => exact bindCanonical_int
  | decl name =>
    have hcanonical := e.isCanonical_simplify.behind
    unfold Vocabulary.bind
    rw [bindCanonical_decl, bindDecl_eq_some_iff]
    constructor
    · rintro ⟨hatom, haccepted, hb⟩
      exact ⟨⟨hatom, Expr.simplify_of_isCanonical hcanonical, haccepted⟩, hb⟩
    · rintro ⟨hadmits, hb⟩
      exact ⟨hadmits.atom, hadmits.accepted, hb⟩

/-- Whether bindings are those of a reading: each operand stands for the expression that is read
for it, and nothing is bound but for some operand. -/
structure Fits (v : Vocabulary) (r : Reading) (b : Bindings) : Prop where
  resolves : ∀ x ∈ r, b.Resolves x.2 x.1
  bound : ∀ name e, b.get? name = some e →
    v.Admits name e ∧ ∃ x ∈ r, x.2 = .decl name ∧ x.1.simplify.behind = e

theorem resolves_of_bind (h : v.bind o e b = some b') : b'.Extends b ∧ b'.Resolves o e ∧
    ∀ name x, b'.get? name = some x → b.get? name = some x ∨
      o = .decl name ∧ e.simplify.behind = x ∧ v.Admits name x := by
  rw [bind_eq_some_iff] at h
  cases o with
  | int n =>
    obtain ⟨hlit, rfl⟩ := h
    exact ⟨fun _ _ h => h, hlit, fun _ _ h => .inl h⟩
  | decl name =>
    obtain ⟨hadmits, hb⟩ := h
    refine ⟨Bindings.extends_of_bind hb, ?_, fun name' x hx => ?_⟩
    · exact (Bindings.get?_of_bind hb name).trans (if_pos rfl)
    · rw [Bindings.get?_of_bind hb] at hx
      split at hx
      · rename_i hname
        obtain rfl := Option.some.inj hx
        exact .inr ⟨hname ▸ rfl, rfl, hname ▸ hadmits⟩
      · exact .inl hx

theorem resolves_of_foldlM (h : r.foldlM (fun b (e, o) => v.bind o e b) b = some b') :
    b'.Extends b ∧ (∀ x ∈ r, b'.Resolves x.2 x.1) ∧
      ∀ name e, b'.get? name = some e → b.get? name = some e ∨
        v.Admits name e ∧ ∃ x ∈ r, x.2 = .decl name ∧ x.1.simplify.behind = e := by
  induction r generalizing b with
  | nil =>
    obtain rfl := Option.some.inj h
    exact ⟨fun _ _ h => h, by simp, fun _ _ h => .inl h⟩
  | cons x r ih =>
    obtain ⟨mid, hmid, hrest⟩ := Option.bind_eq_some_iff.1 h
    obtain ⟨hextends, hresolves, hbound⟩ := resolves_of_bind hmid
    obtain ⟨hextends', hresolves', hbound'⟩ := ih hrest
    refine ⟨fun name e he => hextends' name e (hextends name e he), ?_, fun name e he => ?_⟩
    · exact List.forall_mem_cons.2 ⟨hextends'.resolves hresolves, hresolves'⟩
    · rcases hbound' name e he with he | ⟨hadmits, y, hy, hname, hbehind⟩
      · rcases hbound name e he with he | ⟨hname, hbehind, hadmits⟩
        · exact .inl he
        · exact .inr ⟨hadmits, x, by simp, hname, hbehind⟩
      · exact .inr ⟨hadmits, y, by simp [hy], hname, hbehind⟩

theorem exists_foldlM {fit : Bindings} (hresolves : ∀ x ∈ r, fit.Resolves x.2 x.1)
    (hadmits : ∀ name e, fit.get? name = some e → v.Admits name e) (hb : fit.Extends b) :
    ∃ b', r.foldlM (fun b (e, o) => v.bind o e b) b = some b' ∧ fit.Extends b' := by
  induction r generalizing b with
  | nil => exact ⟨b, rfl, hb⟩
  | cons x r ih =>
    obtain ⟨hx, hr⟩ := List.forall_mem_cons.1 hresolves
    obtain ⟨e, o⟩ := x
    have hstep : ∃ mid, v.bind o e b = some mid ∧ fit.Extends mid := by
      cases o with
      | int n => exact ⟨b, bind_eq_some_iff.2 ⟨hx, rfl⟩, hb⟩
      | decl name =>
        have hsame : ∀ bound, b.get? name = some bound → bound = e.simplify.behind :=
          fun bound hbound => Option.some.inj ((hb name bound hbound).symm.trans hx)
        have hbind := Bindings.bind_eq_some_iff.2 ⟨hsame, rfl⟩
        refine ⟨_, bind_eq_some_iff.2 ⟨hadmits name _ hx, hbind⟩, fun name' x hx' => ?_⟩
        rw [Bindings.get?_of_bind hbind] at hx'
        split at hx'
        · rename_i hname
          rw [hname, ← Option.some.inj hx']
          exact hx
        · exact hb name' x hx'
    obtain ⟨mid, hmid, hextends⟩ := hstep
    obtain ⟨b', hb', hfit⟩ := ih hr hextends
    exact ⟨b', Option.bind_eq_some_iff.2 ⟨mid, hmid, hb'⟩, hfit⟩

theorem bindAll_eq_some_iff : v.bindAll r = some b ↔ v.Fits r b := by
  constructor
  · intro h
    obtain ⟨-, hresolves, hbound⟩ := resolves_of_foldlM h
    exact ⟨hresolves, fun name e he => (hbound name e he).resolve_left (by simp)⟩
  · intro h
    obtain ⟨b', hb', hfit⟩ := exists_foldlM (b := ∅) h.resolves
      (fun name e he => (h.bound name e he).1) nofun
    obtain ⟨-, hresolves, -⟩ := resolves_of_foldlM hb'
    refine hb'.trans (congrArg some (SortedMap.ext fun name => ?_))
    cases he : b.get? name with
    | none =>
      cases he' : b'.get? name with
      | none => rfl
      | some e' => rw [hfit name e' he'] at he; cases he
    | some e =>
      obtain ⟨-, x, hx, hname, rfl⟩ := h.bound name e he
      have hx := hresolves x hx
      rwa [hname] at hx

theorem mem_matchesOf_iff {readings : Shape → List Reading} {found : Match} :
    found ∈ v.matchesOf p readings ↔
      found.shape ∈ v.shapes p ∧ ∃ r ∈ readings found.shape, v.Fits r found.bindings := by
  rw [matchesOf, List.mem_eraseDups]
  simp only [List.mem_flatMap, List.mem_map, List.mem_filterMap, bindAll_eq_some_iff]
  constructor
  · rintro ⟨s, hs, b, hb, rfl⟩
    exact ⟨hs, hb⟩
  · rintro ⟨hs, hb⟩
    exact ⟨found.shape, hs, found.bindings, hb, rfl⟩

/-- A pattern that passes unfolds to its leaves. -/
theorem Passes.mem_shapes_iff (h : v.Passes p) {s : Shape} :
    s ∈ v.shapes p ↔ p.HasLeaf v.patterns s := by
  refine h.induction (M := fun p => s ∈ v.shapes p ↔ p.HasLeaf v.patterns s) (fun t => ?_)
    (fun ps ih => ?_) fun name p hp hshapes ih => ?_
  · constructor
    · intro hs
      rw [List.mem_singleton.1 hs]
      exact .shape t
    · rintro (_ | _)
      exact List.mem_singleton_self s
  · rw [shapes_either, List.mem_flatMap]
    constructor
    · rintro ⟨p, hp, hs⟩
      exact .either hp ((ih p hp).1 hs)
    · rintro (_ | ⟨hp, hs⟩)
      exact ⟨_, hp, (ih _ hp).2 hs⟩
  · rw [hshapes, ih]
    constructor
    · exact .named hp
    · rintro (_ | _ | ⟨hq, hs⟩)
      obtain rfl := Option.some.inj (hp.symm.trans hq)
      exact hs

theorem nodup_eraseDups {α : Type} [BEq α] [LawfulBEq α] (l : List α) : l.eraseDups.Nodup := by
  match l with
  | [] => simp
  | x :: l =>
    rw [List.eraseDups_cons, List.nodup_cons]
    refine ⟨by simp [List.mem_eraseDups], ?_⟩
    have := List.length_filter_le (fun y => !y == x) l
    exact nodup_eraseDups (l.filter fun y => !y == x)
termination_by l.length
decreasing_by exact Nat.lt_succ_of_le this

theorem operands_of_mem_readings {s : Shape} {stmt : Statement} (h : r ∈ s.readings stmt) :
    r.map (·.2) = s.operands := by
  unfold Shape.readings at h
  split at h
  · rw [List.mem_singleton.1 h]
    rfl
  · split at h
    · rw [List.mem_singleton.1 h]
      rfl
    · cases h
  · split at h
    · rename_i hcall
      rw [List.mem_singleton.1 h]
      exact List.map_snd_zip hcall.2
    · cases h
  · rcases List.mem_append.1 h with h | h <;> split at h
    · rw [List.mem_singleton.1 h]
      rfl
    · cases h
    · rw [List.mem_singleton.1 h]
      rfl
    · cases h
  · obtain ⟨e, -, h⟩ := List.mem_filterMap.1 h
    split at h
    · rw [← Option.some.inj h]
      rfl
    · cases h
  · obtain ⟨e, -, h⟩ := List.mem_filterMap.1 h
    split at h
    · rw [← Option.some.inj h]
      rfl
    · cases h
  · obtain ⟨e, -, rfl⟩ := List.mem_map.1 h
    rfl
  · cases h

theorem operands_of_mem_leakReadings {s : Shape} {leaked : List Expr}
    (h : r ∈ s.leakReadings leaked) : r.map (·.2) = s.operands := by
  unfold Shape.leakReadings at h
  split at h
  · obtain ⟨e, -, rfl⟩ := List.mem_map.1 h
    rfl
  · cases h

theorem Fits.exists_get?_iff (h : v.Fits r b) :
    (∃ e, b.get? name = some e) ↔ .decl name ∈ r.map (·.2) := by
  constructor
  · rintro ⟨e, he⟩
    obtain ⟨-, x, hx, hname, -⟩ := h.bound name e he
    exact List.mem_map.2 ⟨x, hx, hname⟩
  · intro hmem
    obtain ⟨x, hx, hname⟩ := List.mem_map.1 hmem
    have hx := h.resolves x hx
    rw [hname] at hx
    exact ⟨_, hx⟩

/-- A match is a leaf of its pattern with a reading that its bindings fit. -/
theorem exists_fits_of_mem_matches {stmt : Statement} {leaked : List Expr} {found : Match}
    (h : found ∈ v.stmtMatches p stmt ∨ found ∈ v.leakMatches p leaked) :
    found.shape ∈ v.shapes p ∧ ∃ r, (r ∈ found.shape.readings stmt ∨
      r ∈ found.shape.leakReadings leaked) ∧ r.map (·.2) = found.shape.operands ∧
        v.Fits r found.bindings := by
  rcases h with h | h
  · obtain ⟨hs, r, hr, hfits⟩ := mem_matchesOf_iff.1 h
    exact ⟨hs, r, .inl hr, operands_of_mem_readings hr, hfits⟩
  · obtain ⟨hs, r, hr, hfits⟩ := mem_matchesOf_iff.1 h
    exact ⟨hs, r, .inr hr, operands_of_mem_leakReadings hr, hfits⟩

theorem isLeak_of_mem_leakMatches {leaked : List Expr} {found : Match}
    (h : found ∈ v.leakMatches p leaked) : found.isLeak = true := by
  obtain ⟨-, r, hr, -⟩ := mem_matchesOf_iff.1 h
  unfold Shape.leakReadings at hr
  split at hr
  · rename_i operand hshape
    simp [Match.isLeak, hshape]
  · cases hr

end Vocabulary

namespace Automaton

variable {a : Automaton} {p : Pattern} {stmt : Option Statement} {leaked : List Expr}

theorem nodup_allMatches : (a.allMatches p stmt leaked).Nodup := by
  refine List.nodup_append.2 ⟨?_, Vocabulary.nodup_eraseDups _, fun x hx y hy => ?_⟩
  · cases stmt with
    | none => exact List.nodup_nil
    | some s => exact Vocabulary.nodup_eraseDups _
  · rintro rfl
    have hleak := Vocabulary.isLeak_of_mem_leakMatches hy
    cases stmt with
    | none => cases hx
    | some s =>
      rw [Vocabulary.isLeak_of_mem_stmtMatches hx] at hleak
      cases hleak

/-- If each match of a rule binds the declaration that carries the state, a rule with outcomes left
may fire for each of them. -/
theorem found_possibleOfRule {r : Rule} {c : StateClause} {branch : Option Bool}
    (h : ∀ found ∈ a.allMatches r.pattern stmt leaked,
      ∃ e, found.bindings.get? a.stateful.name = some e) :
    (a.possibleOfRule branch stmt leaked c r).map (·.found) =
      if (r.outcomes.filterMap (·.onBranch branch)).isEmpty then []
      else a.allMatches r.pattern stmt leaked := by
  unfold possibleOfRule
  dsimp only
  split
  · rfl
  · generalize a.allMatches r.pattern stmt leaked = l at h
    induction l with
    | nil => rfl
    | cons found l ih =>
      obtain ⟨e, he⟩ := h found (by simp)
      rw [List.filterMap_cons_some (by rw [he]; rfl), List.map_cons,
        ih fun x hx => h x (by simp [hx])]

end Automaton

namespace Machine

open Vocabulary

variable {m : Machine} {a : Automaton} {c : StateClause} {r : Rule}

theorem mem_patterns_of_rule (h : m.compile = .ok a) (hc : c ∈ a.clauses) (hr : r ∈ c.rules) :
    r.pattern ∈ m.patterns := by
  rw [clauses_of_compile h] at hc
  exact List.mem_append_right _ (List.mem_flatMap.2 ⟨c, hc, List.mem_map.2 ⟨r, hr, rfl⟩⟩)

/-- The shapes of a rule that is compiled mention the declaration that carries the state. -/
theorem mentions_stateful (h : m.compile = .ok a) (hc : c ∈ a.clauses) (hr : r ∈ c.rules)
    {s : Shape} (hs : s ∈ a.shapes r.pattern) : .decl a.stateful.name ∈ s.operands := by
  have hbinds := (Automaton.checkRule_eq_ok_iff.1 (checkRule_of_compile h hc hr)).2
  obtain ⟨o, ho, hdecl⟩ := List.any_eq_true.1 (List.all_eq_true.1 hbinds s hs)
  cases o with
  | decl name =>
    obtain rfl := Option.some.inj (of_decide_eq_true hdecl)
    exact ho
  | int n => simp [Operand.decl?] at hdecl

/-- A match of a rule that is compiled binds the names that its shape has, the one that carries the
state among them. -/
theorem match_binds (h : m.compile = .ok a) (hc : c ∈ a.clauses) (hr : r ∈ c.rules)
    (stmt : Statement) (leaked : List Expr) {found : Match}
    (hfound : found ∈ a.stmtMatches r.pattern stmt ∨ found ∈ a.leakMatches r.pattern leaked) :
    (∃ e, found.bindings.get? a.stateful.name = some e) ∧
    (∀ name, (∃ e, found.bindings.get? name = some e) ↔ .decl name ∈ found.shape.operands) ∧
    ∀ name e, found.bindings.get? name = some e → a.Admits name e := by
  obtain ⟨hs, reading, -, hoperands, hfits⟩ := exists_fits_of_mem_matches hfound
  have hnames : ∀ name, (∃ e, found.bindings.get? name = some e) ↔
      .decl name ∈ found.shape.operands := fun name => hoperands ▸ hfits.exists_get?_iff
  exact ⟨(hnames _).2 (mentions_stateful h hc hr hs), hnames,
    fun name e he => (hfits.bound name e he).1⟩

/-- What the matches of a rule are, in a machine that is compiled: the leaves of its pattern with
the readings of a statement or of leaks that can be bound. Each of them binds the declaration that
carries the state, and just the names that its shape has, each to one variable, version or literal
in canonical form that the declaration of the name accepts and that is behind each expression read
for it. None is listed twice, and the rule may fire for all of them if it has outcomes left. -/
theorem rule_matches_bind (h : m.compile = .ok a) (hc : c ∈ a.clauses) (hr : r ∈ c.rules) :
    (∀ stmt found, found ∈ a.stmtMatches r.pattern stmt ↔
      r.pattern.HasLeaf a.patterns found.shape ∧
        ∃ reading ∈ found.shape.readings stmt, a.Fits reading found.bindings) ∧
    (∀ leaked found, found ∈ a.leakMatches r.pattern leaked ↔
      r.pattern.HasLeaf a.patterns found.shape ∧
        ∃ reading ∈ found.shape.leakReadings leaked, a.Fits reading found.bindings) ∧
    (∀ stmt leaked found,
      found ∈ a.stmtMatches r.pattern stmt ∨ found ∈ a.leakMatches r.pattern leaked →
        (∃ e, found.bindings.get? a.stateful.name = some e) ∧
        (∀ name, (∃ e, found.bindings.get? name = some e) ↔ .decl name ∈ found.shape.operands) ∧
        ∀ name e, found.bindings.get? name = some e → a.Admits name e) ∧
    (∀ stmt leaked, (a.stmtMatches r.pattern stmt).Nodup ∧ (a.leakMatches r.pattern leaked).Nodup ∧
      (a.allMatches r.pattern (some stmt) leaked).Nodup) ∧
    ∀ branch stmt leaked, (a.possibleOfRule branch stmt leaked c r).map (·.found) =
      if (r.outcomes.filterMap (·.onBranch branch)).isEmpty then []
      else a.allMatches r.pattern stmt leaked := by
  have hpasses := passes_of_compile h (mem_patterns_of_rule h hc hr)
  refine ⟨fun stmt found => ?_, fun leaked found => ?_,
    fun stmt leaked found => match_binds h hc hr stmt leaked, fun stmt leaked => ?_,
    fun branch stmt leaked => ?_⟩
  · rw [← hpasses.mem_shapes_iff]
    exact mem_matchesOf_iff
  · rw [← hpasses.mem_shapes_iff]
    exact mem_matchesOf_iff
  · exact ⟨nodup_eraseDups _, nodup_eraseDups _, Automaton.nodup_allMatches⟩
  · refine Automaton.found_possibleOfRule fun found hfound => ?_
    rcases Automaton.mem_allMatches.1 hfound with ⟨s, -, hs⟩ | hleak
    · exact (match_binds h hc hr s leaked (.inl hs)).1
    · exact (match_binds h hc hr .nop leaked (.inr hleak)).1

/-- A copy from a pointer to itself, or a test against null. -/
def copyRule : Rule :=
  ⟨.either [.shape (.callArgs "copy" [.decl "ptr", .decl "ptr"]), .named "null"],
    [.goto (.named "ptr.done")], none⟩

/-- A machine with a rule that has a name twice in a shape and refers to a comparison. -/
def copied : Machine :=
  { name := "copied"
    clauses := [.decl released,
      .named ⟨"null", .shape (.comparison (.decl "ptr") .eq (.int 0)), none⟩,
      .states ⟨["ptr.start"], [copyRule], none⟩] }

/-- A copy of a pointer to itself, as an address, as a version and with further arguments, is a
match, and so is a comparison the other way round. A copy from one pointer to another is none. -/
theorem rule_matches_bind_copied :
    copied.compile = .ok (copied.automaton released) ∧
    ⟨.callArgs "copy" [.decl "ptr", .decl "ptr"], SortedMap.empty.insert "ptr" pointer⟩ ∈
      (copied.automaton released).stmtMatches copyRule.pattern
        (.call none "copy"
          [.addrOf pointer, .ssa ⟨"p", some 0, .localVar, .pointer⟩ 2, .lit 8]) ∧
    ⟨.comparison (.decl "ptr") .eq (.int 0), SortedMap.empty.insert "ptr" pointer⟩ ∈
      (copied.automaton released).stmtMatches copyRule.pattern (.cond (.lit 0) .eq pointer) ∧
    ∀ x y : Variable, x ≠ y → ∀ found,
      found ∉ (copied.automaton released).stmtMatches copyRule.pattern
        (.call none "copy" [.var x, .var y]) := by
  have hcompile : copied.compile = .ok (copied.automaton released) := by
    refine compile_eq_ok_iff.2 ⟨released, rfl, rfl, forM_eq_ok_iff.2 fun q hq => ?_,
      forM_eq_ok_iff.2 fun r hr => ?_, by decide +kernel⟩
    · obtain rfl := List.mem_singleton.1 hq
      exact (checks_iff.1 (.shape _ _)).symm
    · obtain rfl := List.mem_singleton.1 hr
      have hcopy : (copied.automaton released).Checks none [] copyRule.pattern (.ok ()) :=
        .either (by simp) (.next (.shape _ _) (.next (.follow (by simp) rfl (.shape _ _)) (.nil _)))
      exact Automaton.checkRule_eq_ok_iff.2 ⟨(checks_iff.1 hcopy).symm, by decide +kernel⟩
  have hclauses : ⟨["ptr.start"], [copyRule], none⟩ ∈ (copied.automaton released).clauses := by
    simp [Machine.automaton, stateClauses, copied]
  obtain ⟨hstmt, -⟩ := rule_matches_bind hcompile hclauses (List.mem_singleton_self copyRule)
  refine ⟨hcompile, ?_, ?_, fun x y hne found hfound => ?_⟩
  · exact (hstmt _ _).2 ⟨.either (by simp) (.shape _), _, List.mem_singleton_self _,
      bindAll_eq_some_iff.1 (by decide +kernel)⟩
  · exact (hstmt _ _).2 ⟨.either (List.mem_cons_of_mem _ (List.mem_singleton_self _))
      (.named rfl (.shape _)), [(pointer, .decl "ptr"), (.lit 0, .int 0)], by decide +kernel,
      bindAll_eq_some_iff.1 (by decide +kernel)⟩
  · obtain ⟨hleaf, reading, hreading, hfits⟩ := (hstmt _ _).1 hfound
    generalize found.shape = s at hleaf hreading
    rcases hleaf with _ | ⟨hp, hs⟩ | _
    rcases List.mem_cons.1 hp with rfl | hp
    · obtain _ | _ := hs
      obtain rfl := List.mem_singleton.1 hreading
      have hx := hfits.resolves (.var x, .decl "ptr") (by simp)
      have hy := hfits.resolves (.var y, .decl "ptr") (by simp)
      exact hne (Expr.var.inj (Option.some.inj (hx.symm.trans hy)))
    · obtain rfl := List.mem_singleton.1 hp
      rcases hs with _ | _ | ⟨hq, hs⟩
      obtain rfl := Option.some.inj hq
      obtain _ | _ := hs
      cases hreading

end Machine

end Typestate
