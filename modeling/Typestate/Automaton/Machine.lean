import Typestate.Automaton.Outcome
import Typestate.Automaton.Pattern

/-!
# State machines

A checker as it is written: declarations of what expressions its patterns may bind, named
patterns, and clauses of rules that apply while an expression is in one of some states.
-/

namespace Typestate

inductive DeclKind
  | anyPointer | anyExpr
  deriving DecidableEq, Repr

def DeclKind.render : DeclKind → String
  | anyPointer => "any_pointer"
  | anyExpr => "any_expr"

/-- A name for the expressions that a pattern binds. -/
structure Decl where
  name : String
  kind : DeclKind
  /-- Whether the machine keeps states for the expressions bound to the declaration. -/
  isStateful : Bool
  location : Option Location
  deriving DecidableEq, Repr

def Decl.accepts (d : Decl) (e : Expr) : Bool :=
  match d.kind with
  | .anyExpr => true
  | .anyPointer => e.ty = .pointer

structure NamedPattern where
  name : String
  pattern : Pattern
  location : Option Location

structure Rule where
  pattern : Pattern
  outcomes : List Outcome
  location : Option Location

/-- The rules that apply while an expression is in one of the listed states. -/
structure StateClause where
  states : List String
  rules : List Rule
  location : Option Location

/-- Whether some entry of a state list accepts a name. -/
def listAccepts (entries : List String) (name : String) : Bool :=
  entries.any (State.entryAccepts · name)

inductive Clause
  | decl (d : Decl)
  | named (p : NamedPattern)
  | states (c : StateClause)

namespace Clause

def renderDecl (d : Decl) : String :=
  let stateful := if d.isStateful then "stateful " else ""
  s!"  {stateful}decl {d.kind.render} {d.name};\n"

/-- How a rule is written, after a blank if it is the first of its clause and after a bar
if it is not. -/
def renderRule (mark : String) (r : Rule) : String :=
  let outcomes := ", ".intercalate (r.outcomes.map Outcome.render)
  "   " ++ mark ++ "\x7b " ++ r.pattern.render ++ " \x7d => " ++ outcomes ++ "\n"

def renderRules : List Rule → String
  | [] => ""
  | r :: rs => renderRule " " r ++ String.join (rs.map (renderRule "| "))

def render : Clause → String
  | decl d => renderDecl d
  | named p => s!"  {p.name} = {p.pattern.render};\n"
  | states c => "  " ++ ", ".intercalate c.states ++ ":\n" ++ renderRules c.rules ++ "  ;\n"

end Clause

structure Machine where
  name : String
  clauses : List Clause

namespace Machine

def decls (m : Machine) : List Decl :=
  m.clauses.filterMap fun
    | .decl d => some d
    | _ => none

def namedPatterns (m : Machine) : List NamedPattern :=
  m.clauses.filterMap fun
    | .named p => some p
    | _ => none

def stateClauses (m : Machine) : List StateClause :=
  m.clauses.filterMap fun
    | .states c => some c
    | _ => none

def render (m : Machine) : String :=
  "sm " ++ m.name ++ " \x7b\n" ++ String.join (m.clauses.map Clause.render) ++ "\x7d"

end Machine

end Typestate
