import Typestate.Automaton.Machine
import Typestate.Fault
import Typestate.Text.Distance

/-!
# The names of a machine

Patterns speak of declarations and of named patterns. A pattern is sound if each name in it
is defined, no reference leads back to itself, each disjunction has a member, and each shape
could match something.
-/

namespace Typestate

def Shape.defect? (s : Shape) : Option PatternDefect :=
  match s with
  | comparison (.int _) _ (.int _) => some (.literalComparison s.render)
  | assignment (.int _) _ | callResult (.int _) _ => some (.assignmentToLiteral s.render)
  | callResult _ callee | callArgs callee _ => if callee = "" then some .callWithoutCallee else none
  | _ => none

/-- The declarations and the named patterns of a machine, by their names. -/
structure Vocabulary where
  decls : SortedMap String Decl
  patterns : Pattern.Table

namespace Vocabulary

/-- Of several definitions of a name the last counts. -/
def ofMachine (m : Machine) : Vocabulary where
  decls := .ofList (m.decls.map fun d => (d.name, d))
  patterns := .ofList (m.namedPatterns.map fun p => (p.name, p.pattern))

variable (v : Vocabulary)

def shapes (p : Pattern) : List Shape := p.shapes v.patterns

/-- The first declaration that a shape names and the machine lacks. -/
def unknownDecl? (s : Shape) : Option String :=
  (s.operands.filterMap Operand.decl?).find? fun name => !v.decls.contains name

def checkShape (place : Option Location) (s : Shape) : Except Fault Unit :=
  match s.defect?, v.unknownDecl? s with
  | some defect, _ => .error (.malformedPattern defect place)
  | none, some name => .error (.unknownDecl name (Text.suggestion name v.decls.keys) place)
  | none, none => .ok ()

def unvisited (visiting : List String) : List String :=
  v.patterns.keys.filter (· ∉ visiting)

theorem length_filter_lt {α : Type} {p q : α → Bool} {l : List α}
    (h : ∀ a ∈ l, p a = true → q a = true) {x : α} (hx : x ∈ l) (hp : p x = false)
    (hq : q x = true) : (l.filter p).length < (l.filter q).length := by
  induction l with
  | nil => cases hx
  | cons a l ih =>
    have hl : (l.filter p).length ≤ (l.filter q).length := by
      rw [← List.countP_eq_length_filter, ← List.countP_eq_length_filter]
      exact List.countP_mono_left fun b hb => h b (List.mem_cons_of_mem _ hb)
    rcases List.mem_cons.1 hx with rfl | hx
    · simpa [hp, hq] using Nat.lt_succ_of_le hl
    · have ih := ih (fun b hb => h b (List.mem_cons_of_mem _ hb)) hx
      have ha := h a List.mem_cons_self
      cases hpa : p a
      · cases hqa : q a
        · simpa [hpa, hqa] using ih
        · simpa [hpa, hqa] using Nat.lt_succ_of_lt ih
      · simpa [hpa, ha hpa] using ih

theorem length_unvisited_cons_lt {v : Vocabulary} {visiting : List String} {name : String}
    {p : Pattern} (hn : name ∉ visiting) (h : v.patterns.get? name = some p) :
    (v.unvisited (name :: visiting)).length < (v.unvisited visiting).length :=
  length_filter_lt (by simp) (SortedMap.mem_keys_iff.2 ⟨p, h⟩) (by simp) (by simpa using hn)

mutual

/-- Finds fault with a pattern that is reached from the named patterns being visited. -/
def checkPattern (place : Option Location) (visiting : List String) :
    Pattern → Except Fault Unit
  | .shape s => v.checkShape place s
  | .either ps =>
    if ps.isEmpty then .error (.malformedPattern .emptyDisjunction place)
    else checkPatterns place visiting ps
  | .named name =>
    if _ : name ∈ visiting then .error (.malformedPattern (.selfReference name) place)
    else
      match _ : v.patterns.get? name with
      | none => .error (.unknownNamedPattern name place)
      | some p => checkPattern place (name :: visiting) p
termination_by p => ((v.unvisited visiting).length, sizeOf p)
decreasing_by
  · exact .right _ (by simp)
  · exact .left _ _ (length_unvisited_cons_lt ‹_› ‹_›)

def checkPatterns (place : Option Location) (visiting : List String) :
    List Pattern → Except Fault Unit
  | [] => .ok ()
  | p :: ps => do
    checkPattern place visiting p
    checkPatterns place visiting ps
termination_by ps => ((v.unvisited visiting).length, sizeOf ps)
decreasing_by
  · exact .right _ (by simp only [List.cons.sizeOf_spec]; omega)
  · exact .right _ (by simp only [List.cons.sizeOf_spec]; omega)

end

end Vocabulary

end Typestate
