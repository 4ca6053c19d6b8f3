import Typestate.Proofs.Valuation
import Typestate.Facts.Assign

/-!
# Concrete runs

A run starts at the root with any valuation and follows edges. An assignment gives its target
the value of its right side and leaves alone what does not mention the target; a call of an
unknown function may write its result and what its arguments are addresses of; a condition or
a switch lets a run pass where it holds. Runs enter no function that the program has a body
for: each edge they take is inside a function or leaves the root.
-/
namespace Typestate

/-- Whether a number may be what a right side is worth. Copies, sums, differences, products and
negated literals are exact, and anything else may be any number. -/
def Rvalue.Yields (v : Valuation) (n : Int) : Rvalue → Prop
  | use e | unary .cast e => n = v.eval e
  | binary .add a b => n = v.eval a + v.eval b
  | binary .sub a b => n = v.eval a - v.eval b
  | binary .mul a b => n = v.eval a * v.eval b
  | unary .neg (.lit m) => n = -m
  | _ => True

/-- Every expression that mentions none of those written keeps its value. -/
def Valuation.KeepsOff (v v' : Valuation) (written : Expr → Prop) : Prop :=
  ∀ e, e.IsCanonical → (∀ x, written x → e.mentions x = false) → v'.eval e = v.eval e

theorem Valuation.keepsOff_table (x : Expr) (m n : Int) (entries : List (Expr × Int)) :
    (table ((x, m) :: entries)).KeepsOff (table ((x, n) :: entries)) (· = x) := by
  intro e he hm
  have hne : e ≠ x := by
    rintro rfl
    have := hm e rfl
    rw [Expr.mentions_self] at this
    cases this
  have hbeq : (e == x) = false := beq_eq_false_iff_ne.2 hne
  simp [eval, table, Expr.simplify_of_isCanonical he, List.lookup_cons, hbeq]

/-- What a call of an unknown function may write. -/
def Statement.MayWrite (result : Option Expr) (args : List Expr) (x : Expr) : Prop :=
  (∃ r, result = some r ∧ x = r.simplify) ∨ ∃ a ∈ args, a.simplify = .addrOf x

def Statement.Executes (guard : Guard) (v v' : Valuation) : Statement → Prop
  | assign target value =>
    value.Yields v (v'.eval target) ∧ v.KeepsOff v' (· = target.simplify)
  | phi target value =>
    v'.eval target = v.eval value ∧ v.KeepsOff v' (· = target.simplify)
  | call result _ args => v.KeepsOff v' (Statement.MayWrite result args)
  | cond a op b =>
    v' = v ∧ ∀ value, guard = .branch value → (op.Holds (v.eval a) (v.eval b) ↔ value = true)
  | switch index =>
    v' = v ∧ ∀ cases, guard = .labels cases → cases ≠ [] →
      ∃ c ∈ cases, c.low ≤ v.eval index ∧ v.eval index ≤ c.high
  | ret _ | nop => v' = v

namespace Program

variable (p : Program)

/-- How a run takes an edge. -/
inductive Takes (edge : Edge) (v : Valuation) : Valuation → Prop
  | root : edge.kind = .root → Takes edge v v
  | pass {guard} : edge.kind = .flow guard → p.stmtAt edge.source = none → Takes edge v v
  | execute {guard stmt v'} : edge.kind = .flow guard → p.stmtAt edge.source = some stmt →
      stmt.Executes guard v v' → Takes edge v v'

/-- A run along some edges, the latest first, to a node and a valuation. -/
inductive Runs : List EdgeId → NodeId → Valuation → Prop
  | start (v : Valuation) : Runs [] root v
  | step {path e edge v v'} : Runs path edge.source v → p.edges[e]? = some edge →
      p.Takes edge v v' → Runs (e :: path) edge.target v'

/-- No label of a switch ends before it starts. -/
def LabelsOrdered : Prop :=
  ∀ edge ∈ p.edges, ∀ c ∈ edge.kind.cases, c.low ≤ c.high

end Program

end Typestate
