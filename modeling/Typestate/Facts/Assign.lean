import Typestate.Facts
import Typestate.Program

/-!
# Facts after a statement

An assignment forgets what was known of its target and adds what follows from the value:
an equality for a copy, a bound moved by a constant for a linear operation, and nothing for
an operation whose result is not tracked. The labels of a switch edge bound the switched
value when they form one run.
-/

namespace Typestate.Facts

/-- What follows for the target of `operand op n`: from a known value of the operand its exact
result, otherwise its bounds moved along. A negative factor turns a bound around. -/
def moved (s : Facts) (target : Expr) (op : BinaryOp) (operand : Expr) (n : Int) : List Fact :=
  if op = .mul ∧ n = 0 then [Fact.of target .eq (.lit 0)]
  else
    match s.constantOf operand with
    | some m => (op.applyLinear m n).toList.map fun r => Fact.of target .eq (.lit r)
    | none =>
      (s.toList.filter (·.left = operand)).filterMap fun f => do
        let bound ← f.right.literal?
        let r ← op.applyLinear bound n
        return Fact.of target (if op = .mul ∧ n < 0 then f.op.flip else f.op) (.lit r)

def linear (s : Facts) (target : Expr) (op : BinaryOp) (left right : Expr) : List Fact :=
  match left.literal?, right.literal? with
  | some m, some n => (op.applyLinear m n).toList.map fun r => Fact.of target .eq (.lit r)
  | none, some n => s.moved target op left.simplify n
  | some m, none => if op.isCommutative then s.moved target op right.simplify m else []
  | none, none => []

/-- The facts after a copy. A value that mentions the target says nothing of the new one. -/
def copy (s : Facts) (target value : Expr) : Facts :=
  let rest := s.forget target
  if value = target ∨ value.mentions target then rest else rest.add (Fact.of target .eq value)

def assign (s : Facts) (target : Expr) : Rvalue → Facts
  | .use e | .unary .cast e => s.copy target e.simplify
  | .binary op a b => (s.forget target).addAll (s.linear target op a b)
  | .unary .neg (.lit n) =>
    match Word.check (-n) with
    | some m => (s.forget target).add (Fact.of target .eq (.lit m))
    | none => s.forget target
  | .unary _ _ => s.forget target

def isUntracked : Rvalue → Bool
  | .unary .cast _ | .unary .neg (.lit _) => false
  | .unary _ _ => true
  | _ => false

/-- The end of the run that starts with a label ending at `high`, if each further label
starts right after the one before it ends. -/
def runEnd : Int → List CaseLabel → Option Int
  | high, [] => some high
  | high, c :: cases => if Word.check (high + 1) = some c.low then runEnd c.high cases else none

/-- What a switch edge says of the switched value: its only value, or the bounds of the one
run that its labels form. -/
def ofLabels (index : Expr) (cases : List CaseLabel) : List Fact :=
  match cases.mergeSort fun c d => decide (c.low ≤ d.low) with
  | [] => []
  | c :: rest =>
    match runEnd c.high rest with
    | none => []
    | some high =>
      if c.low = high then [Fact.of index .eq (.lit c.low)]
      else [Fact.of index .ge (.lit c.low), Fact.of index .le (.lit high)]

def addressed? : Expr → Option Expr
  | .addrOf e => some e
  | _ => none

/-- The expressions whose address is among the arguments; a callee may write to them. -/
def addressTaken (args : List Expr) : List Expr := args.filterMap fun a => addressed? a.simplify

def afterStatement (s : Facts) (kind : EdgeKind) : Statement → Facts
  | .assign target value => s.assign target.simplify value
  | .phi target value => s.copy target.simplify value.simplify
  | .call result _ args =>
    let s := match result with
      | some e => s.forget e.simplify
      | none => s
    (addressTaken args).foldl forget s
  | .cond a op b =>
    match kind.branch? with
    | some true => s.add (Fact.of a op b)
    | some false => s.add (Fact.of a op.negate b)
    | none => s
  | .switch index => s.addAll (ofLabels index kind.cases)
  | .ret _ | .nop => s

end Typestate.Facts
