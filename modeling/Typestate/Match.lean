import Typestate.Automaton
import Typestate.Expr.Canonical
import Typestate.Statement

/-!
# Matches

A shape reads a statement as pairs of an expression and an operand, in as many ways as the
statement offers. A reading whose operands can all be bound to their expressions is a match.
An address and a member of an aggregate count as the variable behind them, and a declaration
that occurs twice has to be bound to the same expression.
-/

namespace Typestate

structure Match where
  shape : Shape
  bindings : Bindings
  deriving DecidableEq

namespace Match

variable (m : Match)

def renderOperand : Operand → String
  | .decl name =>
    match m.bindings.get? name with
    | some e => e.render
    | none => name
  | .int n => toString n

/-- A match in words. On the false branch of a condition its comparison is negated. -/
def description (branch : Option Bool) : String :=
  let text := m.renderOperand
  match m.shape with
  | .assignment a b => s!"{text a} assigned to {text b}"
  | .callResult a callee => s!"{text a} assigned to the result of {callee}()"
  | .callArgs callee args => ", ".intercalate (args.map text) ++ s!" passed to {callee}()"
  | .comparison a op b =>
    let op := if branch = some false then op.negate else op
    s!"when {text a} {op.symbol} {text b}"
  | .dereference a => s!"dereference of {text a}"
  | .lookup a i => s!"read of {text a}[{text i}]"
  | .usage a => s!"usage of {text a}"
  | .leaked a => s!"{text a} leaves scope"

end Match

/-- Binds a name to an expression, unless it is bound to another. -/
def Bindings.bind (b : Bindings) (name : String) (e : Expr) : Option Bindings :=
  match b.get? name with
  | some bound => if bound = e then some b else none
  | none => some (b.insert name e)

namespace Vocabulary

variable (v : Vocabulary)

def bindDecl (name : String) (e : Expr) (b : Bindings) : Option Bindings :=
  match v.decls.get? name with
  | some d => if d.accepts e then b.bind name e else none
  | none => none

def bindCanonical (o : Operand) (b : Bindings) : Expr → Option Bindings
  | .lit n =>
    match o with
    | .int m => if n = m then some b else none
    | .decl name => v.bindDecl name (.lit n) b
  | .var x =>
    match o with
    | .int _ => none
    | .decl name => v.bindDecl name (.var x) b
  | .ssa x k =>
    match o with
    | .int _ => none
    | .decl name => v.bindDecl name (.ssa x k) b
  | .addrOf e | .field e _ _ => bindCanonical o b e
  | _ => none

def bind (o : Operand) (e : Expr) (b : Bindings) : Option Bindings :=
  v.bindCanonical o b e.simplify

abbrev Reading := List (Expr × Operand)

def bindAll (r : Reading) : Option Bindings := r.foldlM (fun b (e, o) => v.bind o e b) ∅

end Vocabulary

def Statement.subexprs (s : Statement) : List Expr := s.exprs.flatMap (·.simplify.subexprs)

namespace Shape

def readings (shape : Shape) (s : Statement) : List Vocabulary.Reading :=
  match shape, s with
  | assignment a b, .assign target (.use value) => [[(target, a), (value, b)]]
  | callResult a callee, .call (some result) callee' _ =>
    if callee' = callee then [[(result, a)]] else []
  | callArgs callee operands, .call _ callee' args =>
    if callee' = callee ∧ operands.length ≤ args.length then [args.zip operands] else []
  | comparison a op b, .cond left op' right =>
    (if op' = op then [[(left, a), (right, b)]] else []) ++
      if op' = op.flip then [[(right, a), (left, b)]] else []
  | dereference a, s =>
    s.subexprs.filterMap fun
      | .deref e => some [(e, a)]
      | _ => none
  | lookup a i, s =>
    s.subexprs.filterMap fun
      | .index base position _ => some [(base, a), (position, i)]
      | _ => none
  | usage a, s => s.reads.map fun e => [(e, a)]
  | _, _ => []

def leakReadings (shape : Shape) (leaked : List Expr) : List Vocabulary.Reading :=
  match shape with
  | .leaked a => leaked.map fun e => [(e, a)]
  | _ => []

end Shape

namespace Vocabulary

variable (v : Vocabulary)

/-- The matches among the readings of a pattern's shapes, each listed once. -/
def matchesOf (p : Pattern) (readings : Shape → List Reading) : List Match :=
  ((v.shapes p).flatMap fun s =>
    ((readings s).filterMap v.bindAll).map fun b => ⟨s, b⟩).eraseDups

def stmtMatches (p : Pattern) (s : Statement) : List Match := v.matchesOf p (·.readings s)

def leakMatches (p : Pattern) (leaked : List Expr) : List Match :=
  v.matchesOf p (·.leakReadings leaked)

end Vocabulary

end Typestate
