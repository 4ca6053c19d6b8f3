import Mathlib.Order.WellFounded
import Typestate.Match
import Typestate.Proofs.Automaton.Reachability

/-!
# References between named patterns

The check of a pattern follows a reference only if its name is not being visited, so that it comes
to its end whatever the named patterns refer to. A pattern that passes refers to no name that leads
back to itself, so whatever follows its references comes to its end, too: whether it binds the
declaration that carries the state, and its matches with a statement or with leaks.

Each of these recursions is given as a relation between what it is called with and what it returns,
with one rule for each way through its text. A call that runs on forever returns nothing.
-/
namespace Typestate

namespace Pattern

variable {table : Table}

/-- Whether a pattern refers to a name, be it in one of its alternatives. -/
inductive Mentions : Pattern → String → Prop
  | named (name : String) : Mentions (.named name) name
  | either {ps : List Pattern} {p : Pattern} {name : String} :
      p ∈ ps → p.Mentions name → Mentions (.either ps) name

theorem flatten_either (resolve : String → List Shape) (ps : List Pattern) :
    (Pattern.either ps).flatten resolve = ps.flatMap (·.flatten resolve) := by
  change flattenAll resolve ps = _
  induction ps with
  | nil => rfl
  | cons p ps ih => rw [flattenAll, ih, List.flatMap_cons]

end Pattern

namespace Vocabulary

variable (v : Vocabulary)

/-- Whether the definition of a name refers to another. -/
def Refers (name other : String) : Prop :=
  ∃ p, v.patterns.get? name = some p ∧ p.Mentions other

mutual

/-- What the check of a pattern returns, given the names being visited. -/
inductive Checks (v : Vocabulary) (place : Option Location) :
    List String → Pattern → Except Fault Unit → Prop
  | shape (visiting : List String) (s : Shape) :
      Checks v place visiting (.shape s) (v.checkShape place s)
  | empty (visiting : List String) :
      Checks v place visiting (.either []) (.error (.malformedPattern .emptyDisjunction place))
  | either {visiting ps r} : ps ≠ [] → ChecksAll v place visiting ps r →
      Checks v place visiting (.either ps) r
  | visited {visiting name} : name ∈ visiting →
      Checks v place visiting (.named name) (.error (.malformedPattern (.selfReference name) place))
  | unknown {visiting name} : name ∉ visiting → v.patterns.get? name = none →
      Checks v place visiting (.named name) (.error (.unknownNamedPattern name place))
  | follow {visiting name p r} : name ∉ visiting → v.patterns.get? name = some p →
      Checks v place (name :: visiting) p r → Checks v place visiting (.named name) r

/-- What the check of a list of alternatives returns, which ends with the first that fails. -/
inductive ChecksAll (v : Vocabulary) (place : Option Location) :
    List String → List Pattern → Except Fault Unit → Prop
  | nil (visiting : List String) : ChecksAll v place visiting [] (.ok ())
  | fail {visiting p ps fault} : Checks v place visiting p (.error fault) →
      ChecksAll v place visiting (p :: ps) (.error fault)
  | next {visiting p ps r} : Checks v place visiting p (.ok ()) →
      ChecksAll v place visiting ps r → ChecksAll v place visiting (p :: ps) r

end

mutual

/-- What the test returns whether a pattern binds a declaration. -/
inductive Binds (v : Vocabulary) (decl : String) : Pattern → Bool → Prop
  | shape (s : Shape) : Binds v decl (.shape s) (s.mentions decl)
  | either {ps b} : BindsAll v decl ps b → Binds v decl (.either ps) b
  | unknown {name} : v.patterns.get? name = none → Binds v decl (.named name) false
  | follow {name p b} : v.patterns.get? name = some p → Binds v decl p b →
      Binds v decl (.named name) b

/-- What the test returns for all of a list, which ends with the first that does not. -/
inductive BindsAll (v : Vocabulary) (decl : String) : List Pattern → Bool → Prop
  | nil : BindsAll v decl [] true
  | fail {p ps} : Binds v decl p false → BindsAll v decl (p :: ps) false
  | next {p ps b} : Binds v decl p true → BindsAll v decl ps b → BindsAll v decl (p :: ps) b

end

/-- Adds the match of a reading to a list, if its operands can be bound and the match is new. -/
def tryBind (s : Shape) (out : List Match) (r : Reading) : List Match :=
  match v.bindAll r with
  | none => out
  | some b => if ⟨s, b⟩ ∈ out then out else out ++ [⟨s, b⟩]

mutual

/-- The list that the matches of a pattern's readings make of another. -/
inductive Collects (v : Vocabulary) (readings : Shape → List Reading) :
    Pattern → List Match → List Match → Prop
  | shape (s : Shape) (out : List Match) :
      Collects v readings (.shape s) out ((readings s).foldl (v.tryBind s) out)
  | either {ps out out'} : CollectsAll v readings ps out out' →
      Collects v readings (.either ps) out out'
  | unknown {name out} : v.patterns.get? name = none → Collects v readings (.named name) out out
  | follow {name p out out'} : v.patterns.get? name = some p → Collects v readings p out out' →
      Collects v readings (.named name) out out'

/-- The list that the matches of several patterns' readings make of another. -/
inductive CollectsAll (v : Vocabulary) (readings : Shape → List Reading) :
    List Pattern → List Match → List Match → Prop
  | nil (out : List Match) : CollectsAll v readings [] out out
  | next {p ps out mid out'} : Collects v readings p out mid →
      CollectsAll v readings ps mid out' → CollectsAll v readings (p :: ps) out out'

end

variable {v} {place : Option Location} {visiting : List String} {p : Pattern} {ps : List Pattern}
  {name decl : String}

section Check

theorem checkPattern_either_of_ne (h : ps ≠ []) :
    v.checkPattern place visiting (.either ps) = v.checkPatterns place visiting ps := by
  rw [checkPattern, if_neg (by simpa using h)]

theorem checkPattern_named_of_mem (h : name ∈ visiting) :
    v.checkPattern place visiting (.named name) =
      .error (.malformedPattern (.selfReference name) place) := by
  rw [checkPattern, dif_pos h]

theorem checkPattern_named_of_none (h : name ∉ visiting) (hnone : v.patterns.get? name = none) :
    v.checkPattern place visiting (.named name) = .error (.unknownNamedPattern name place) := by
  rw [checkPattern, dif_neg h]
  split
  · rfl
  · simp_all

theorem checkPattern_named_of_some (h : name ∉ visiting) (hp : v.patterns.get? name = some p) :
    v.checkPattern place visiting (.named name) =
      v.checkPattern place (name :: visiting) p := by
  rw [checkPattern, dif_neg h]
  split
  · simp_all
  · rename_i q hq
    rw [Option.some.inj (hp.symm.trans hq)]

mutual

theorem Checks.eq : ∀ {visiting : List String} {p : Pattern} {r : Except Fault Unit},
    v.Checks place visiting p r → r = v.checkPattern place visiting p
  | _, _, _, .shape visiting s => by rw [checkPattern]
  | _, _, _, .empty visiting => by rw [checkPattern]; rfl
  | _, _, _, .either hne hall => by rw [checkPattern_either_of_ne hne, ← hall.eq]
  | _, _, _, .visited h => (checkPattern_named_of_mem h).symm
  | _, _, _, .unknown h hnone => (checkPattern_named_of_none h hnone).symm
  | _, _, _, .follow h hp hcheck => by rw [checkPattern_named_of_some h hp, ← hcheck.eq]

theorem ChecksAll.eq : ∀ {visiting : List String} {ps : List Pattern} {r : Except Fault Unit},
    v.ChecksAll place visiting ps r → r = v.checkPatterns place visiting ps
  | _, _, _, .nil visiting => by rw [checkPatterns]
  | _, _, _, .fail hp => by rw [checkPatterns, ← hp.eq]; rfl
  | _, _, _, .next hp hall => by rw [checkPatterns, ← hp.eq, ← hall.eq]; rfl

end

mutual

/-- The check of a pattern comes to its end: each reference that it follows leaves fewer names that
may be visited. -/
theorem checks_checkPattern (place : Option Location) (visiting : List String) (p : Pattern) :
    v.Checks place visiting p (v.checkPattern place visiting p) := by
  match p with
  | .shape s =>
    rw [checkPattern]
    exact .shape visiting s
  | .either ps =>
    by_cases hps : ps = []
    · subst hps
      rw [checkPattern]
      exact .empty visiting
    · rw [checkPattern_either_of_ne hps]
      exact .either hps (checksAll_checkPatterns place visiting ps)
  | .named name =>
    by_cases hvisited : name ∈ visiting
    · rw [checkPattern_named_of_mem hvisited]
      exact .visited hvisited
    · cases hp : v.patterns.get? name with
      | none =>
        rw [checkPattern_named_of_none hvisited hp]
        exact .unknown hvisited hp
      | some p =>
        have := length_unvisited_cons_lt hvisited hp
        rw [checkPattern_named_of_some hvisited hp]
        exact .follow hvisited hp (checks_checkPattern place (name :: visiting) p)
termination_by ((v.unvisited visiting).length, sizeOf p)
decreasing_by
  · exact .right _ (by simp)
  · exact .left _ _ this

theorem checksAll_checkPatterns (place : Option Location) (visiting : List String)
    (ps : List Pattern) :
    v.ChecksAll place visiting ps (v.checkPatterns place visiting ps) := by
  match ps with
  | [] =>
    rw [checkPatterns]
    exact .nil visiting
  | p :: ps =>
    have hp := checks_checkPattern place visiting p
    rw [checkPatterns]
    cases h : v.checkPattern place visiting p with
    | error fault => exact .fail (h ▸ hp)
    | ok _ => exact .next (h ▸ hp) (checksAll_checkPatterns place visiting ps)
termination_by ((v.unvisited visiting).length, sizeOf ps)
decreasing_by
  · exact .right _ (by simp only [List.cons.sizeOf_spec]; omega)
  · exact .right _ (by simp only [List.cons.sizeOf_spec]; omega)

end

theorem checks_iff {r : Except Fault Unit} :
    v.Checks place visiting p r ↔ r = v.checkPattern place visiting p :=
  ⟨Checks.eq, fun h => h ▸ checks_checkPattern place visiting p⟩

end Check

section Passing

theorem checkPatterns_eq_ok_iff : v.checkPatterns place visiting ps = .ok () ↔
    ∀ p ∈ ps, v.checkPattern place visiting p = .ok () := by
  induction ps with
  | nil => simp [checkPatterns]
  | cons p ps ih =>
    rw [checkPatterns, bind_eq_ok_iff, List.forall_mem_cons, ← ih]
    exact ⟨fun ⟨_, hp, hps⟩ => ⟨hp, hps⟩, fun ⟨hp, hps⟩ => ⟨(), hp, hps⟩⟩

/-- What holds of shapes, of a disjunction if it holds of its alternatives, and of a reference if it
holds of the definition holds of each pattern that passes. -/
theorem passing_induction {M : List String → Pattern → Prop}
    (hshape : ∀ visiting s, M visiting (.shape s))
    (heither : ∀ visiting ps, (∀ p ∈ ps, M visiting p) → M visiting (.either ps))
    (hnamed : ∀ visiting name p, name ∉ visiting → v.patterns.get? name = some p →
      v.checkPattern place (name :: visiting) p = .ok () → M (name :: visiting) p →
        M visiting (.named name))
    (visiting : List String) (p : Pattern) (h : v.checkPattern place visiting p = .ok ()) :
    M visiting p := by
  match p with
  | .shape s => exact hshape visiting s
  | .either ps =>
    refine heither visiting ps fun p hp => ?_
    have hps : ps ≠ [] := List.ne_nil_of_mem hp
    rw [checkPattern_either_of_ne hps, checkPatterns_eq_ok_iff] at h
    have := List.sizeOf_lt_of_mem hp
    exact passing_induction hshape heither hnamed visiting p (h p hp)
  | .named name =>
    by_cases hvisited : name ∈ visiting
    · rw [checkPattern_named_of_mem hvisited] at h
      cases h
    · cases hp : v.patterns.get? name with
      | none =>
        rw [checkPattern_named_of_none hvisited hp] at h
        cases h
      | some p =>
        rw [checkPattern_named_of_some hvisited hp] at h
        have := length_unvisited_cons_lt hvisited hp
        exact hnamed visiting name p hvisited hp h
          (passing_induction hshape heither hnamed (name :: visiting) p h)
termination_by ((v.unvisited visiting).length, sizeOf p)
decreasing_by
  · exact .right _ (by simp only [Pattern.either.sizeOf_spec]; omega)
  · exact .left _ _ this

/-- To follow references deeper than there are names to visit unfolds to the same shapes. -/
theorem flatten_of_unvisited_le (h : v.checkPattern place visiting p = .ok ()) {j k : Nat}
    (hj : (v.unvisited visiting).length ≤ j) (hk : (v.unvisited visiting).length ≤ k) :
    p.flatten (Pattern.shapesOfName v.patterns j) =
      p.flatten (Pattern.shapesOfName v.patterns k) := by
  refine passing_induction (M := fun visiting p => ∀ j k,
    (v.unvisited visiting).length ≤ j → (v.unvisited visiting).length ≤ k →
      p.flatten (Pattern.shapesOfName v.patterns j) =
        p.flatten (Pattern.shapesOfName v.patterns k))
    (fun _ _ _ _ _ _ => rfl) ?_ ?_ visiting p h j k hj hk
  · intro visiting ps ih j k hj hk
    rw [Pattern.flatten_either, Pattern.flatten_either]
    rw [List.flatMap_def, List.flatMap_def, List.map_congr_left fun p hp => ih p hp j k hj hk]
  · intro visiting name p hvisited hp _ ih j k hj hk
    have hlt := length_unvisited_cons_lt hvisited hp
    cases j with
    | zero => omega
    | succ j =>
      cases k with
      | zero => omega
      | succ k =>
        change Pattern.shapesOfName v.patterns (j + 1) name =
          Pattern.shapesOfName v.patterns (k + 1) name
        rw [Pattern.shapesOfName, Pattern.shapesOfName, hp]
        exact ih j k (by omega) (by omega)

theorem length_unvisited_le (v : Vocabulary) (visiting : List String) :
    (v.unvisited visiting).length ≤ v.patterns.size := by
  have h := List.length_filter_le (· ∉ visiting) v.patterns.keys
  rwa [SortedMap.keys, List.length_map] at h

theorem shapes_either : v.shapes (.either ps) = ps.flatMap v.shapes :=
  Pattern.flatten_either _ ps

theorem shapes_named (hvisited : name ∉ visiting) (hp : v.patterns.get? name = some p)
    (h : v.checkPattern place (name :: visiting) p = .ok ()) :
    v.shapes (.named name) = v.shapes p := by
  have hlt := length_unvisited_cons_lt hvisited hp
  have hsize := v.length_unvisited_le visiting
  change Pattern.shapesOfName v.patterns v.patterns.size name = v.shapes p
  cases hk : v.patterns.size with
  | zero => omega
  | succ k =>
    rw [Pattern.shapesOfName, hp]
    exact flatten_of_unvisited_le h (by omega) (by omega)

/-- Whether a pattern passes the check, maybe while some names are being visited. -/
def Passes (v : Vocabulary) (p : Pattern) : Prop :=
  ∃ place visiting, v.checkPattern place visiting p = .ok ()

theorem Passes.induction {M : Pattern → Prop} (hshape : ∀ s, M (.shape s))
    (heither : ∀ ps, (∀ p ∈ ps, M p) → M (.either ps))
    (hnamed : ∀ name p, v.patterns.get? name = some p → v.shapes (.named name) = v.shapes p →
      M p → M (.named name)) (h : v.Passes p) : M p := by
  obtain ⟨place, visiting, h⟩ := h
  exact passing_induction (M := fun _ p => M p) (fun _ s => hshape s) (fun _ ps => heither ps)
    (fun _ name p hvisited hp hcheck hM => hnamed name p hp (shapes_named hvisited hp hcheck) hM)
    visiting p h

/-- A pattern that passes mentions only names from which no chain of references is endless. -/
theorem Passes.acc (h : v.Passes p) :
    ∀ name, p.Mentions name → Acc (Function.swap v.Refers) name := by
  refine h.induction (M := fun p => ∀ name, p.Mentions name → Acc _ name)
    (fun s name hs => nomatch hs) (fun ps ih name hname => ?_) fun name p hp _ ih other hother => ?_
  · cases hname with
    | either hp hname => exact ih _ hp name hname
  · cases hother
    refine Acc.intro _ fun other ⟨q, hq, hother⟩ => ?_
    obtain rfl := Option.some.inj (hp.symm.trans hq)
    exact ih other hother

end Passing

section Binds

mutual

theorem Binds.unique : ∀ {p : Pattern} {b b' : Bool},
    v.Binds decl p b → v.Binds decl p b' → b = b'
  | _, _, _, .shape s, .shape _ => rfl
  | _, _, _, .either h, .either h' => h.unique h'
  | _, _, _, .unknown _, .unknown _ => rfl
  | _, _, _, .unknown hnone, .follow hp _ => by simp [hnone] at hp
  | _, _, _, .follow hp _, .unknown hnone => by simp [hnone] at hp
  | _, _, _, .follow hp h, .follow hp' h' => by
    obtain rfl := Option.some.inj (hp.symm.trans hp')
    exact h.unique h'

theorem BindsAll.unique : ∀ {ps : List Pattern} {b b' : Bool},
    v.BindsAll decl ps b → v.BindsAll decl ps b' → b = b'
  | _, _, _, .nil, .nil => rfl
  | _, _, _, .fail _, .fail _ => rfl
  | _, _, _, .fail h, .next h' _ => nomatch h.unique h'
  | _, _, _, .next h _, .fail h' => nomatch h.unique h'
  | _, _, _, .next _ h, .next _ h' => h.unique h'

end

/-- The test comes to its end on a pattern that passes, and tells of all its shapes. -/
theorem Passes.binds_iff (h : v.Passes p) {b : Bool} :
    v.Binds decl p b ↔ b = (v.shapes p).all (·.mentions decl) := by
  have hbinds : v.Binds decl p ((v.shapes p).all (·.mentions decl)) := by
    refine h.induction (M := fun p => v.Binds decl p ((v.shapes p).all (·.mentions decl)))
      (fun s => ?_) (fun ps ih => .either ?_) fun name p hp hshapes ih => ?_
    · have hshape : v.shapes (.shape s) = [s] := rfl
      rw [hshape, List.all_cons, List.all_nil, Bool.and_true]
      exact .shape s
    · rw [shapes_either]
      induction ps with
      | nil => exact .nil
      | cons p ps ihps =>
        rw [List.flatMap_cons, List.all_append]
        have hp := ih p (by simp)
        cases hall : (v.shapes p).all (·.mentions decl) with
        | false => exact .fail (hall ▸ hp)
        | true => exact .next (hall ▸ hp) (ihps fun q hq => ih q (by simp [hq]))
    · rw [hshapes]
      exact .follow hp ih
  exact ⟨fun h' => h'.unique hbinds, fun h' => h' ▸ hbinds⟩

end Binds

section Collects

variable {readings : Shape → List Reading}

mutual

theorem Collects.unique : ∀ {p : Pattern} {out l l' : List Match},
    v.Collects readings p out l → v.Collects readings p out l' → l = l'
  | _, _, _, _, .shape s out, .shape _ _ => rfl
  | _, _, _, _, .either h, .either h' => h.unique h'
  | _, _, _, _, .unknown _, .unknown _ => rfl
  | _, _, _, _, .unknown hnone, .follow hp _ => by simp [hnone] at hp
  | _, _, _, _, .follow hp _, .unknown hnone => by simp [hnone] at hp
  | _, _, _, _, .follow hp h, .follow hp' h' => by
    obtain rfl := Option.some.inj (hp.symm.trans hp')
    exact h.unique h'

theorem CollectsAll.unique : ∀ {ps : List Pattern} {out l l' : List Match},
    v.CollectsAll readings ps out l → v.CollectsAll readings ps out l' → l = l'
  | _, _, _, _, .nil out, .nil _ => rfl
  | _, _, _, _, .next h hall, .next h' hall' => by
    obtain rfl := h.unique h'
    exact hall.unique hall'

end

/-- The matches of the readings of a shape, as often as there are such readings. -/
def rawMatches (v : Vocabulary) (readings : Shape → List Reading) (s : Shape) : List Match :=
  ((readings s).filterMap v.bindAll).map (Match.mk s)

theorem eraseDups_concat (l : List Match) (found : Match) :
    (l ++ [found]).eraseDups =
      if found ∈ l.eraseDups then l.eraseDups else l.eraseDups ++ [found] := by
  rw [List.eraseDups_append]
  by_cases h : found ∈ l
  · simp [List.removeAll, h]
  · simp [List.removeAll, h, List.eraseDups_cons]

theorem foldl_tryBind (s : Shape) (rs : List Reading) (l : List Match) :
    rs.foldl (v.tryBind s) l.eraseDups =
      (l ++ (rs.filterMap v.bindAll).map (Match.mk s)).eraseDups := by
  induction rs generalizing l with
  | nil => simp
  | cons r rs ih =>
    rw [List.foldl_cons, tryBind]
    cases hb : v.bindAll r with
    | none => rw [List.filterMap_cons_none hb, ih]
    | some b =>
      dsimp only
      rw [← eraseDups_concat, ih, List.filterMap_cons_some hb, List.map_cons, List.append_assoc,
        List.singleton_append]

/-- The matches of a pattern that passes are collected to the end, and are those of its shapes. -/
theorem Passes.collects (h : v.Passes p) (l : List Match) :
    v.Collects readings p l.eraseDups
      (l ++ (v.shapes p).flatMap (v.rawMatches readings)).eraseDups := by
  refine h.induction (M := fun p => ∀ l : List Match, v.Collects readings p l.eraseDups
    (l ++ (v.shapes p).flatMap (v.rawMatches readings)).eraseDups)
    (fun s l => ?_) (fun ps ih l => .either ?_) (fun name p hp hshapes ih l => ?_) l
  · have hshape : v.shapes (.shape s) = [s] := rfl
    rw [hshape, List.flatMap_cons, List.flatMap_nil, List.append_nil, rawMatches, ← foldl_tryBind]
    exact .shape s _
  · rw [shapes_either]
    induction ps generalizing l with
    | nil => simpa using .nil _
    | cons p ps ihps =>
      rw [List.flatMap_cons, List.flatMap_append, ← List.append_assoc]
      exact .next (ih p (by simp) l) (ihps (fun q hq => ih q (by simp [hq])) _)
  · rw [hshapes]
    exact .follow hp (ih l)

theorem Passes.collects_iff (h : v.Passes p) {out : List Match} :
    v.Collects readings p [] out ↔ out = v.matchesOf p readings := by
  have hcollects : v.Collects readings p [] (v.matchesOf p readings) := h.collects []
  exact ⟨fun h' => h'.unique hcollects, fun h' => h' ▸ hcollects⟩

mutual

/-- To collect matches through a name that leads back to itself never comes to its end. -/
theorem Collects.acc : ∀ {p : Pattern} {out l : List Match}, v.Collects readings p out l →
    ∀ name, p.Mentions name → Acc (Function.swap v.Refers) name
  | _, _, _, .shape _ _ => fun _ h => nomatch h
  | _, _, _, .either hall => by
    have ih := hall.acc
    rintro name (_ | ⟨hp, h⟩)
    exact ih _ hp name h
  | _, _, _, .unknown hnone => by
    rintro _ (_ | _)
    exact Acc.intro _ fun _ ⟨q, hq, _⟩ => by simp [hnone] at hq
  | _, _, _, .follow hp h => by
    have ih := h.acc
    rintro _ (_ | _)
    refine Acc.intro _ fun other ⟨q, hq, hother⟩ => ?_
    obtain rfl := Option.some.inj (hp.symm.trans hq)
    exact ih other hother

theorem CollectsAll.acc : ∀ {ps : List Pattern} {out l : List Match},
    v.CollectsAll readings ps out l → ∀ p ∈ ps, ∀ name, p.Mentions name →
      Acc (Function.swap v.Refers) name
  | _, _, _, .nil _ => fun _ hp => nomatch hp
  | _, _, _, .next h hall => by
    have ih := h.acc
    have ihall := hall.acc
    exact List.forall_mem_cons.2 ⟨ih, ihall⟩

end

end Collects

end Vocabulary

namespace Machine

open Vocabulary

variable {m : Machine} {a : Automaton}

/-- The patterns of a machine: all definitions of names, also those that do not count, and those of
its rules. -/
def patterns (m : Machine) : List Pattern :=
  m.namedPatterns.map (·.pattern) ++ m.stateClauses.flatMap fun c => c.rules.map (·.pattern)

theorem clauses_of_compile (h : m.compile = .ok a) : a.clauses = m.stateClauses := by
  obtain ⟨d, -, rfl, -⟩ := compile_eq_ok_iff.1 h
  rfl

theorem checkRule_of_compile (h : m.compile = .ok a) {c : StateClause} {r : Rule}
    (hc : c ∈ a.clauses) (hr : r ∈ c.rules) :
    a.checkRule (r, r.location.or c.location) = .ok () := by
  obtain ⟨d, -, rfl, -, hrules, -⟩ := compile_eq_ok_iff.1 h
  have hmem : (r, r.location.or c.location) ∈ (m.automaton d).rules :=
    List.mem_flatMap.2 ⟨c, hc, List.mem_map.2 ⟨r, hr, rfl⟩⟩
  exact forM_eq_ok_iff.1 hrules _ hmem

theorem passes_of_compile (h : m.compile = .ok a) {p : Pattern} (hp : p ∈ m.patterns) :
    a.Passes p := by
  rcases List.mem_append.1 hp with hp | hp
  · obtain ⟨d, -, rfl, hnamed, -⟩ := compile_eq_ok_iff.1 h
    obtain ⟨q, hq, rfl⟩ := List.mem_map.1 hp
    exact ⟨_, _, forM_eq_ok_iff.1 hnamed q hq⟩
  · rw [← clauses_of_compile h] at hp
    obtain ⟨c, hc, hp⟩ := List.mem_flatMap.1 hp
    obtain ⟨r, hr, rfl⟩ := List.mem_map.1 hp
    exact ⟨_, _, (Automaton.checkRule_eq_ok_iff.1 (checkRule_of_compile h hc hr)).1⟩

theorem mem_patterns_of_get? (h : m.compile = .ok a) {name : String} {p : Pattern}
    (hp : a.patterns.get? name = some p) : p ∈ m.patterns := by
  obtain ⟨d, -, rfl, -⟩ := compile_eq_ok_iff.1 h
  have hmem := SortedMap.mem_of_get?_ofList hp
  obtain ⟨q, hq, heq⟩ := List.mem_map.1 hmem
  cases heq
  exact List.mem_append_left _ (List.mem_map.2 ⟨q, hq, rfl⟩)

/-- No name of a machine that is compiled leads back to itself. -/
theorem acc_refers (h : m.compile = .ok a) (name : String) :
    Acc (Function.swap a.Refers) name :=
  Acc.intro name fun other ⟨_, hp, hother⟩ =>
    (passes_of_compile h (mem_patterns_of_get? h hp)).acc other hother

/-- The check of a pattern returns whatever the named patterns refer to. In a machine that is
compiled no chain of references leads back to its start, and for each of its patterns the test
whether it binds a declaration, and the search for its matches with a statement or with leaks,
return what the automaton has for them. -/
theorem named_patterns_return :
    (∀ (v : Vocabulary) place visiting p r,
      v.Checks place visiting p r ↔ r = v.checkPattern place visiting p) ∧
    ∀ (m : Machine) a, m.compile = .ok a →
      (∀ name, ¬ Relation.TransGen a.Refers name name) ∧
      ∀ p ∈ m.patterns,
        (∀ b, a.Binds a.stateful.name p b ↔ b = a.bindsState p) ∧
        (∀ stmt out, a.Collects (·.readings stmt) p [] out ↔ out = a.stmtMatches p stmt) ∧
        ∀ leaked out, a.Collects (·.leakReadings leaked) p [] out ↔
          out = a.leakMatches p leaked := by
  refine ⟨fun v place visiting p r => checks_iff, fun m a h => ⟨fun name hcycle => ?_, ?_⟩⟩
  · have hwf : WellFounded (Function.swap a.Refers) := ⟨acc_refers h⟩
    exact hwf.transGen.irrefl.irrefl name (Relation.transGen_swap.2 hcycle)
  · intro p hp
    have hpasses := passes_of_compile h hp
    exact ⟨fun b => hpasses.binds_iff, fun stmt out => hpasses.collects_iff,
      fun leaked out => hpasses.collects_iff⟩

def released : Decl := ⟨"ptr", .anyPointer, true, none⟩

def releaseBy (callee : String) : Pattern := .shape (.callArgs callee [.decl "ptr"])

def pointer : Expr := .var ⟨"p", some 0, .localVar, .pointer⟩

/-- A machine with a chain of references, disjunctions in one another, and a name that is defined
twice. -/
def chained : Machine :=
  { name := "chained"
    clauses := [.decl released, .named ⟨"freed", releaseBy "free", none⟩,
      .named ⟨"dropped", .either [.named "freed", .either [releaseBy "drop",
        .shape (.leaked (.decl "ptr"))]], none⟩,
      .named ⟨"freed", .either [releaseBy "free", releaseBy "kfree"], none⟩,
      .named ⟨"gone", .named "dropped", none⟩,
      .states ⟨["ptr.start"], [⟨.named "gone", [.goto (.named "ptr.gone")], none⟩], none⟩] }

/-- Two names that refer to each other. -/
def knotted : Machine :=
  { name := "knotted"
    clauses := [.decl released,
      .named ⟨"freed", .either [releaseBy "free", .named "dropped"], none⟩,
      .named ⟨"dropped", .either [releaseBy "drop", .named "freed"], none⟩] }

/-- The check of the knotted names returns that one of them refers to itself. Through the chain of
the other machine a call is found to match, and a leak. -/
theorem named_patterns_return_chained :
    (knotted.automaton released).Checks none ["freed"]
      (.either [releaseBy "free", .named "dropped"])
      (.error (.malformedPattern (.selfReference "freed") none)) ∧
    chained.compile = .ok (chained.automaton released) ∧
    (∀ name, ¬ Relation.TransGen (chained.automaton released).Refers name name) ∧
    (chained.automaton released).Binds "ptr" (.named "gone") true ∧
    (chained.automaton released).Collects (·.readings (.call none "kfree" [pointer]))
      (.named "gone") [] [⟨.callArgs "kfree" [.decl "ptr"], SortedMap.empty.insert "ptr" pointer⟩] ∧
    (chained.automaton released).Collects (·.leakReadings [pointer]) (.named "gone") []
      [⟨.leaked (.decl "ptr"), SortedMap.empty.insert "ptr" pointer⟩] := by
  have hself : (knotted.automaton released).Checks none ["freed"]
      (.either [releaseBy "free", .named "dropped"])
      (.error (.malformedPattern (.selfReference "freed") none)) :=
    .either (by simp) (.next (.shape _ _) (.fail (.follow (by simp) rfl
      (.either (by simp) (.next (.shape _ _) (.fail (.visited (by simp))))))))
  have hcompile : chained.compile = .ok (chained.automaton released) := by
    have hfreed {visiting : List String} (h : "freed" ∉ visiting) :
        (chained.automaton released).Checks none visiting (.named "freed") (.ok ()) :=
      .follow h rfl (.either (by simp) (.next (.shape _ _) (.next (.shape _ _) (.nil _))))
    have hdropped {visiting : List String} (h : "freed" ∉ visiting) :
        (chained.automaton released).Checks none visiting (.either [.named "freed",
          .either [releaseBy "drop", .shape (.leaked (.decl "ptr"))]]) (.ok ()) :=
      .either (by simp) (.next (hfreed h) (.next
        (.either (by simp) (.next (.shape _ _) (.next (.shape _ _) (.nil _)))) (.nil _)))
    refine compile_eq_ok_iff.2 ⟨released, rfl, rfl, forM_eq_ok_iff.2 fun q hq => ?_,
      forM_eq_ok_iff.2 fun r hr => ?_, by decide +kernel⟩
    · simp only [namedPatterns, chained, List.filterMap_cons, List.filterMap_nil, List.mem_cons,
        List.not_mem_nil, or_false] at hq
      refine (checks_iff.1 ?_).symm
      rcases hq with rfl | rfl | rfl | rfl
      · exact .shape _ _
      · exact hdropped (by simp)
      · exact .either (by simp) (.next (.shape _ _) (.next (.shape _ _) (.nil _)))
      · exact .follow (by simp) rfl (hdropped (by simp))
    · obtain rfl := List.mem_singleton.1 hr
      have hgone : (chained.automaton released).Checks none [] (.named "gone") (.ok ()) :=
        .follow (by simp) rfl (.follow (by simp) rfl (hdropped (by simp)))
      exact Automaton.checkRule_eq_ok_iff.2 ⟨(checks_iff.1 hgone).symm, by decide +kernel⟩
  obtain ⟨hacyclic, hreturns⟩ := named_patterns_return.2 chained _ hcompile
  obtain ⟨hbinds, hstmt, hleaks⟩ :=
    hreturns (.named "gone") (by simp [patterns, namedPatterns, stateClauses, chained])
  exact ⟨hself, hcompile, hacyclic, (hbinds true).2 (by decide +kernel),
    (hstmt _ _).2 (by decide +kernel), (hleaks _ _).2 (by decide +kernel)⟩

/-- No search through the knotted names returns. -/
theorem not_collects_knotted (readings : Shape → List Reading) (out l : List Match) :
    ¬ (knotted.automaton released).Collects readings (.named "freed") out l := by
  intro h
  have hrefers : (knotted.automaton released).Refers "freed" "dropped" :=
    ⟨_, rfl, .either (by simp) (.named _)⟩
  have hrefers' : (knotted.automaton released).Refers "dropped" "freed" :=
    ⟨_, rfl, .either (by simp) (.named _)⟩
  have hendless : ∀ name, Acc (Function.swap (knotted.automaton released).Refers) name →
      ¬ (name = "freed" ∨ name = "dropped") := by
    intro name hacc
    induction hacc with
    | intro name _ ih =>
      rintro (rfl | rfl)
      · exact ih "dropped" hrefers (.inr rfl)
      · exact ih "freed" hrefers' (.inl rfl)
  exact hendless "freed" (h.acc "freed" (.named _)) (.inl rfl)

end Machine

end Typestate
