import Typestate.Fact
import Typestate.Facts.Partition

/-!
# Sets of facts

What holds at a point of a program: a set of facts, all of which hold. Fewer facts say
less, and what holds on two paths are the facts common to both. The equalities among the
facts divide expressions into classes, once with literals gluing classes together and once
without, so that two pointers that both happen to be null stay apart.

A set is possible unless a class holds two literals or a comparison contradicts the classes
of its sides. This does not find every contradiction, and finds none that is not there.
-/

namespace Typestate

/-- A set of facts without tautologies. -/
structure Facts where
  set : SortedSet Fact
  informative : ∀ f ∈ set, f.isTautology = false

namespace Facts

theorem set_injective {s t : Facts} (h : s.set = t.set) : s = t := by
  cases s; cases t; cases h; rfl

instance : DecidableEq Facts := fun s t =>
  if h : s.set = t.set then isTrue (set_injective h) else isFalse fun e => h (e ▸ rfl)

instance : Membership Fact Facts := ⟨fun s f => f ∈ s.set⟩

theorem mem_def {s : Facts} {f : Fact} : f ∈ s ↔ f ∈ s.set := Iff.rfl

instance (f : Fact) (s : Facts) : Decidable (f ∈ s) := inferInstanceAs (Decidable (f ∈ s.set))

theorem ext {s t : Facts} (h : ∀ f, f ∈ s ↔ f ∈ t) : s = t := set_injective (SortedSet.ext h)

def empty : Facts := ⟨∅, fun _ h => absurd h (SortedSet.not_mem_empty _)⟩

instance : EmptyCollection Facts := ⟨empty⟩

instance : Inhabited Facts := ⟨empty⟩

variable (s : Facts)

def toList : List Fact := s.set.toList

def size : Nat := s.set.size

def add (f : Fact) : Facts :=
  if h : f.isTautology then s
  else
    { set := s.set.insert f
      informative := by
        intro g hg
        rcases SortedSet.mem_insert.1 hg with rfl | hg
        · simpa using h
        · exact s.informative g hg }

@[simp] theorem mem_add {s : Facts} {f g : Fact} :
    g ∈ s.add f ↔ (g = f ∧ f.isTautology = false) ∨ g ∈ s := by
  unfold add
  split
  · rename_i h
    simp [h]
  · rename_i h
    simp [mem_def, h]

def addAll (l : List Fact) : Facts := l.foldl add s

theorem mem_addAll {s : Facts} {l : List Fact} {f : Fact} :
    f ∈ s.addAll l ↔ f ∈ s ∨ f ∈ l ∧ f.isTautology = false := by
  unfold addAll
  induction l generalizing s with
  | nil => simp
  | cons g l ih =>
    rw [List.foldl_cons, ih, mem_add, List.mem_cons]
    grind

def ofList (l : List Fact) : Facts := empty.addAll l

def filter (keep : Fact → Bool) : Facts :=
  ⟨s.set.filter keep, fun f hf => s.informative f (SortedSet.mem_filter.1 hf).1⟩

@[simp] theorem mem_filter {s : Facts} {keep : Fact → Bool} {f : Fact} :
    f ∈ s.filter keep ↔ f ∈ s ∧ keep f = true := SortedSet.mem_filter

def forget (e : Expr) : Facts := s.filter fun f => !f.mentions e

def meet (t : Facts) : Facts := s.filter (· ∈ t)

@[simp] theorem mem_meet {s t : Facts} {f : Fact} : f ∈ s.meet t ↔ f ∈ s ∧ f ∈ t := by
  simp [meet]

def has (a : Expr) (op : Comparison) (b : Expr) : Bool := Fact.of a op b ∈ s

def classes : Partition :=
  .ofPairs ((s.toList.filter (·.op = .eq)).map fun f => (f.left, f.right))

/-- The classes of the equalities between expressions other than literals. -/
def varClasses : Partition :=
  .ofPairs ((s.toList.filter fun f =>
    f.op = .eq && !f.left.isLiteral && !f.right.isLiteral).map fun f => (f.left, f.right))

/-- The expressions known to equal an expression, itself included. -/
def aliases (e : Expr) : EquivClass :=
  (s.classes.classOf e.simplify).getD (.singleton e.simplify)

/-- The expressions known to equal an expression other than by having the same literal
value. -/
def varAliases (e : Expr) : EquivClass :=
  (s.varClasses.classOf e.simplify).getD (.singleton e.simplify)

def constantOf (e : Expr) : Option Int := s.classes.constantOf e.simplify

/-- Whether a fact other than an equality agrees with the classes of its sides. -/
def agrees (p : Partition) (f : Fact) : Bool :=
  match p.constantOf f.left, p.constantOf f.right with
  | some a, some b => f.op.Holds a b
  | _, _ => !((f.op = .ne || f.op = .lt || f.op = .gt) && p.sameClass f.left f.right)

/-- Whether no contradiction is found: each class has at most one literal, and each
comparison agrees with the classes. -/
def isPossible : Bool :=
  let p := s.classes
  p.classes.toList.all (fun c => (Partition.literals c).length ≤ 1) &&
    (s.toList.filter (·.op ≠ .eq)).all (agrees p)

/-- Whether an expression is storage that outlives a function: a global, memory behind a
pointer, or a variable of another function. A member of a local aggregate does not. -/
def outlives (f : FunctionId) : Expr → Bool
  | .lit _ | .text _ => false
  | .var v | .ssa v _ => v.storage = .global || v.owner ≠ some f
  | .addrOf e => outlives f e
  | .deref _ => true
  | .field b _ _ | .index b _ _ =>
    match b with
    | .var v | .ssa v _ => v.storage = .global || v.owner ≠ some f
    | _ => true

def isReferencedOutside (e : Expr) (f : FunctionId) : Bool :=
  (s.varAliases e).toList.any (outlives f)

def render : String := "\x7b" ++ " && ".intercalate (s.toList.map Fact.render) ++ "\x7d"

def renderQuoted : String :=
  "\x7b" ++ ", ".intercalate (s.toList.map fun f => Text.quoted f.render) ++ "\x7d"

end Facts

end Typestate
