import Typestate.Facts.Assign
import Typestate.Sorted.Map

/-!
# Facts across calls

Facts enter a callee with arguments renamed to parameters and leave it with parameters
renamed to arguments and the returned value to the call's result. What still speaks of the
function being left is dropped. Facts of the caller alone travel through the callee, except
those about storage that the call may write.
-/

namespace Typestate.Facts

abbrev Renaming := SortedMap Expr Expr

/-- Whether an expression makes sense after `leaving` is left: it has none of its variables,
or it is one that the renaming introduced. -/
def inScopeAfter (leaving : FunctionId) (r : Renaming) (e : Expr) : Bool :=
  !e.isScopedTo leaving || e ∈ r.values

def rename? (r : Renaming) (leaving : FunctionId) (f : Fact) : Option Fact :=
  let a := f.left.substitute r.get?
  let b := f.right.substitute r.get?
  if inScopeAfter leaving r a && inScopeAfter leaving r b then some (Fact.of a f.op b) else none

/-- Whether a fact has variables, and only such of one function. -/
def isOwnedBy (g : FunctionId) (f : Fact) : Bool :=
  !f.vars.isEmpty && f.vars.all (·.owner == some g)

/-- Whether all variables of a fact are global or belong to one function. -/
def isVisibleIn (g : FunctionId) (f : Fact) : Bool :=
  f.vars.all fun v => v.owner == none || v.owner == some g

def sparing (s : Facts) (written : List Expr) : List Fact :=
  s.toList.filter fun f => !written.any f.mentions

def bindings (callee : Function) (args : List Expr) : List (Expr × Expr) :=
  callee.paramExprs.zip (args.map Expr.simplify)

/-- Binds a parameter to a canonical argument. The first parameter that gets an expression
stands for it; a literal and a repeated expression are stated as equalities. -/
def bindArg (acc : Renaming × Facts) (b : Expr × Expr) : Renaming × Facts :=
  if b.2.isLiteral then (acc.1, acc.2.add (Fact.of b.1 .eq b.2))
  else
    match acc.1.get? b.2 with
    | some first => (acc.1, acc.2.add (Fact.of b.1 .eq first))
    | none => (acc.1.insert b.2 b.1, acc.2)

def bindArgs (bindings : List (Expr × Expr)) : Renaming × Facts :=
  bindings.foldl bindArg (∅, empty)

/-- Adds what a fact of the caller says in the callee: the fact under its new names and, if
it is one of the caller alone, as it was. In a recursive call the caller's own variables name
those of another frame, so its facts do not travel on. -/
def carryIn (r : Renaming) (caller : FunctionId) (callee : Function) (out : Facts) (f : Fact) :
    Facts :=
  let out := out.addAll (rename? r caller f).toList
  if caller ≠ callee.id ∧ isOwnedBy caller f then out.add f else out

def enter (s : Facts) (caller : FunctionId) (callee : Function) (args : List Expr) : Facts :=
  let (r, out) := bindArgs (bindings callee args)
  (s.sparing (addressTaken args)).foldl (carryIn r caller callee) out

/-- The renaming of parameters back to canonical arguments. A parameter whose argument is
also the result keeps its name: its facts describe the old value. -/
def argsBack (bindings : List (Expr × Expr)) (result : Option Expr) : Renaming :=
  bindings.foldl (fun r b => if result = some b.2 then r else r.insert b.1 b.2) ∅

/-- The renaming on return, with what is known of the result from the returned value. -/
def bindResult (r : Renaming) (result returned : Option Expr) : Renaming × Facts :=
  match result, returned with
  | some result, some returned =>
    match r.get? returned with
    | some arg => (r, empty.add (Fact.of result .eq arg))
    | none =>
      if returned.isLiteral then (r, empty.add (Fact.of result .eq returned))
      else (r.insert returned result, empty)
  | _, _ => (r, empty)

def leave (s : Facts) (caller : FunctionId) (callee : Function) (result : Option Expr)
    (args : List Expr) : Facts :=
  let result := result.map Expr.simplify
  let back := argsBack (bindings callee args) result
  let (r, out) := bindResult back result callee.returned
  out.addAll ((s.sparing (addressTaken args ++ result.toList)).filterMap fun f =>
    (rename? r callee.id f).filter (isVisibleIn caller))

end Typestate.Facts
