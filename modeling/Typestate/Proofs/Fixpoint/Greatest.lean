import Mathlib.Logic.Equiv.Basic
import Typestate.Proofs.Fixpoint.Descent

/-!
# Greatest solutions

An assignment solves a dataflow problem if each entry is under its seed and the target of each
edge is under what the edge brings; no value at all lies above every value. Where transfers keep
this order, no value that the solver holds on its way falls under a solution, so that its own
solution is the greatest one. Then the order of visits does not matter: the same problem with
its nodes renumbered, and with its entries and edges in another order, has the same solution.
-/
namespace Typestate

variable {V ω : Type}

namespace Dataflow

/-- What an edge brings to its target, if anything. -/
def brings (d : Dataflow V ω) (e : EdgeId) (a : Option V) : Option V :=
  a.bind fun v => (d.transfer v e).1

/-- One value is under another, where no value lies above every value. -/
def Under (d : Dataflow V ω) (a b : Option V) : Prop :=
  ∀ v, b = some v → ∃ u, a = some u ∧ d.Below u v

/-- Transfers along the edges of the graph keep the order. -/
def Monotone (d : Dataflow V ω) : Prop :=
  ∀ n, ∀ e ∈ d.successors n, ∀ a b, d.Under a b → d.Under (d.brings e.1 a) (d.brings e.1 b)

/-- An assignment is under the seeds and under what the edges bring. -/
structure IsSolution (d : Dataflow V ω) (A : NodeId → Option V) : Prop where
  entry : ∀ n ∈ d.entries, d.Under (A n) (some (d.seed n))
  edge : ∀ n, ∀ e ∈ d.successors n, d.Under (A e.2) (d.brings e.1 (A n))

/-- A problem again, with its nodes and edges renumbered, and with its entries and the edges out
of each node in another order. -/
structure Reordered (d d' : Dataflow V ω) (σ : Equiv.Perm NodeId) (τ : EdgeId → EdgeId) :
    Prop where
  meet : d'.meet = d.meet
  entries : d'.entries.Perm (d.entries.map σ)
  seed : ∀ n ∈ d.entries, d'.seed (σ n) = d.seed n
  successors : ∀ n, (d'.successors (σ n)).Perm ((d.successors n).map fun e => (τ e.1, σ e.2))
  transfer : ∀ n, ∀ e ∈ d.successors n, ∀ v, (d'.transfer v (τ e.1)).1 = (d.transfer v e.1).1

variable {d d' : Dataflow V ω}

@[simp] theorem brings_some (e : EdgeId) (v : V) : d.brings e (some v) = (d.transfer v e).1 := rfl

theorem under_some_iff {a : Option V} {v : V} :
    d.Under a (some v) ↔ ∃ u, a = some u ∧ d.Below u v :=
  ⟨fun h => h v rfl, fun h _ hv => Option.some.inj hv ▸ h⟩

theorem Below.antisymm [Std.Commutative d.meet] {u v : V} (huv : d.Below u v)
    (hvu : d.Below v u) : u = v := by
  have comm : d.meet u v = d.meet v u := Std.Commutative.comm u v
  unfold Below at huv hvu
  rw [← huv, comm, hvu]

theorem Below.meet [Std.Associative d.meet] {w u v : V} (hu : d.Below w u)
    (hv : d.Below w v) : d.Below w (d.meet u v) := by
  have assoc : d.meet (d.meet w u) v = d.meet w (d.meet u v) := Std.Associative.assoc w u v
  unfold Below at hu hv ⊢
  rw [← assoc, hu, hv]

theorem Under.trans [Std.Associative d.meet] [Std.Commutative d.meet] [Std.IdempotentOp d.meet]
    {a b c : Option V} (hab : d.Under a b) (hbc : d.Under b c) : d.Under a c := by
  intro w hw
  obtain ⟨v, hv, hvw⟩ := hbc w hw
  obtain ⟨u, hu, huv⟩ := hab v hv
  exact ⟨u, hu, rises_below.trans hvw huv⟩

theorem Under.antisymm [Std.Commutative d.meet] {a b : Option V} (hab : d.Under a b)
    (hba : d.Under b a) : a = b := by
  cases b with
  | some v =>
    obtain ⟨u, rfl, huv⟩ := hab v rfl
    obtain ⟨v', hv', hvu⟩ := hba u rfl
    obtain rfl := Option.some.inj hv'
    rw [huv.antisymm hvu]
  | none =>
    cases a with
    | none => rfl
    | some u =>
      obtain ⟨v, hv, -⟩ := hba u rfl
      cases hv

theorem Under.meet [Std.Associative d.meet] {a : Option V} {u v : V}
    (hu : d.Under a (some u)) (hv : d.Under a (some v)) : d.Under a (some (d.meet u v)) := by
  obtain ⟨w, rfl, hwu⟩ := under_some_iff.1 hu
  obtain ⟨w', hw', hwv⟩ := under_some_iff.1 hv
  obtain rfl := Option.some.inj hw'
  exact under_some_iff.2 ⟨w, rfl, hwu.meet hwv⟩

section Solved

variable [Std.Associative d.meet] [Std.Commutative d.meet] [Std.IdempotentOp d.meet]
variable [DecidableEq V] {pass : String} {limit : Nat} {sol : Solution V ω}

theorem isSolution_solve (hs : d.solve pass limit = .ok sol) : d.IsSolution sol.value where
  entry n hn := under_some_iff.2 (rises_below.reaches_seed hs hn)
  edge n e he w hw := by
    obtain ⟨v, hv, hvw⟩ := Option.bind_eq_some_iff.1 hw
    exact rises_below.passedOn_solve hs n v hv e he w hvw

/-- A solution is under the solver's values, if transfers keep the order between its values and
those that the solver holds on its way. -/
theorem IsSolution.under_solve {A : NodeId → Option V} (hA : d.IsSolution A)
    {P : NodeId → V → Prop} (hP : d.Preserves P)
    (hkeep : ∀ n, ∀ e ∈ d.successors n, ∀ v, P n v → d.Under (A n) (some v) →
      d.Under (d.brings e.1 (A n)) (d.brings e.1 (some v)))
    (hs : d.solve pass limit = .ok sol) (n : NodeId) : d.Under (A n) (sol.value n) := by
  have hunder : d.Preserves fun n v => P n v ∧ d.Under (A n) (some v) :=
    { seed := fun n hn => ⟨hP.seed n hn, hA.entry n hn⟩
      transfer := by
        rintro n v e u ⟨hPv, hv⟩ he hu
        have hbrings := hkeep n e he v hPv hv
        rw [brings_some, hu] at hbrings
        exact ⟨hP.transfer hPv he hu, (hA.edge n e he).trans hbrings⟩
      meet := fun ⟨hPv, hv⟩ ⟨hPu, hu⟩ => ⟨hP.meet hPv hPu, hv.meet hu⟩ }
  intro v hv
  exact under_some_iff.1 (hunder.solve hs hv).2

end Solved

namespace Reordered

variable {σ : Equiv.Perm NodeId} {τ : EdgeId → EdgeId}

theorem under_iff (h : d.Reordered d' σ τ) {a b : Option V} : d'.Under a b ↔ d.Under a b := by
  simp only [Under, Below, h.meet]

theorem brings_eq (h : d.Reordered d' σ τ) {n : NodeId} {e : EdgeId × NodeId}
    (he : e ∈ d.successors n) (a : Option V) : d'.brings (τ e.1) a = d.brings e.1 a := by
  unfold brings
  simp only [h.transfer n e he]

theorem mem_successors (h : d.Reordered d' σ τ) {n : NodeId} {e' : EdgeId × NodeId} :
    e' ∈ d'.successors (σ n) ↔ ∃ e ∈ d.successors n, (τ e.1, σ e.2) = e' := by
  rw [(h.successors n).mem_iff, List.mem_map]

theorem mem_entries (h : d.Reordered d' σ τ) {n' : NodeId} :
    n' ∈ d'.entries ↔ ∃ n ∈ d.entries, σ n = n' := by
  rw [h.entries.mem_iff, List.mem_map]

theorem isSolution_iff (h : d.Reordered d' σ τ) {A : NodeId → Option V} :
    d'.IsSolution A ↔ d.IsSolution (A ∘ σ) := by
  constructor
  · refine fun hA => ⟨fun n hn => ?_, fun n e he => ?_⟩
    · have hentry := hA.entry (σ n) (h.mem_entries.2 ⟨n, hn, rfl⟩)
      rwa [h.under_iff, h.seed n hn] at hentry
    · have hedge := hA.edge (σ n) (τ e.1, σ e.2) (h.mem_successors.2 ⟨e, he, rfl⟩)
      rwa [h.under_iff, h.brings_eq he] at hedge
  · refine fun hA => ⟨fun n' hn' => ?_, fun n' e' he' => ?_⟩
    · obtain ⟨n, hn, rfl⟩ := h.mem_entries.1 hn'
      rw [h.under_iff, h.seed n hn]
      exact hA.entry n hn
    · obtain ⟨n, rfl⟩ := σ.surjective n'
      obtain ⟨e, he, rfl⟩ := h.mem_successors.1 he'
      rw [h.under_iff, h.brings_eq he]
      exact hA.edge n e he

theorem monotone (h : d.Reordered d' σ τ) (hd : d.Monotone) : d'.Monotone := by
  intro n' e' he' a b hab
  obtain ⟨n, rfl⟩ := σ.surjective n'
  obtain ⟨e, he, rfl⟩ := h.mem_successors.1 he'
  rw [h.under_iff] at hab ⊢
  rw [h.brings_eq he, h.brings_eq he]
  exact hd n e he a b hab

end Reordered

section Greatest

variable [Std.Associative d.meet] [Std.Commutative d.meet] [Std.IdempotentOp d.meet]
variable [DecidableEq V] {pass : String} {limit : Nat} {sol : Solution V ω}

/-- A solution is under the solver's values. -/
theorem Monotone.under_solve (hd : d.Monotone) {A : NodeId → Option V} (hA : d.IsSolution A)
    (hs : d.solve pass limit = .ok sol) (n : NodeId) : d.Under (A n) (sol.value n) := by
  have htrue : d.Preserves fun _ _ => True :=
    ⟨fun _ _ => trivial, fun _ _ _ => trivial, fun _ _ => trivial⟩
  exact hA.under_solve htrue (fun n e he v _ => hd n e he _ _) hs n

/-- Where transfers keep the order, the solver finds the greatest solution, in whatever order it
visits the nodes. -/
theorem solve_greatest (hd : d.Monotone) (hs : d.solve pass limit = .ok sol) :
    d.IsSolution sol.value ∧
    (∀ A, d.IsSolution A → ∀ n, d.Under (A n) (sol.value n)) ∧
    ∀ d' σ τ, d.Reordered d' σ τ → ∀ pass' limit' sol', d'.solve pass' limit' = .ok sol' →
      ∀ n, sol'.value (σ n) = sol.value n := by
  refine ⟨isSolution_solve hs, fun A hA => hd.under_solve hA hs, ?_⟩
  intro d' σ τ h pass' limit' sol' hs' n
  have : Std.Associative d'.meet := h.meet ▸ inferInstance
  have : Std.Commutative d'.meet := h.meet ▸ inferInstance
  have : Std.IdempotentOp d'.meet := h.meet ▸ inferInstance
  have hsol' : d.IsSolution (sol'.value ∘ σ) := h.isSolution_iff.1 (isSolution_solve hs')
  have hsol : d'.IsSolution (sol.value ∘ σ.symm) := by
    rw [h.isSolution_iff, Function.comp_assoc, σ.symm_comp_self, Function.comp_id]
    exact isSolution_solve hs
  have hover := (h.monotone hd).under_solve hsol hs' (σ n)
  rw [Function.comp_apply, σ.symm_apply_apply] at hover
  exact (hd.under_solve hsol' hs n).antisymm (h.under_iff.1 hover)

end Greatest

/-- The least values over a graph with a loop that goes down to zero and an edge that large
values cannot take. -/
def leastDown : Dataflow Nat Unit where
  entries := [0, 1]
  seed n := 6 + 3 * n
  successors n := match n with
    | 0 => [(0, 1), (1, 2)]
    | 1 => [(2, 2)]
    | 2 => [(3, 1)]
    | _ => []
  transfer v e := (match e with
    | 0 => some (v + 1)
    | 1 => if v ≤ 7 then some v else none
    | 2 => some v
    | _ => some (v - 3), [])
  meet := min

/-- The same with nodes 1 and 2 swapped, and entries and edges in the opposite order. -/
def leastDownSwapped : Dataflow Nat Unit where
  entries := [2, 0]
  seed n := 6 + n + n / 2
  successors n := match n with
    | 0 => [(2, 1), (3, 2)]
    | 2 => [(1, 1)]
    | 1 => [(0, 2)]
    | _ => []
  transfer v e := (match e with
    | 3 => some (v + 1)
    | 2 => if v ≤ 7 then some v else none
    | 1 => some v
    | _ => some (v - 3), [])
  meet := min

theorem below_leastDown {u v : Nat} : leastDown.Below u v ↔ u ≤ v := by
  change min u v = u ↔ u ≤ v
  omega

theorem monotone_leastDown : leastDown.Monotone := by
  have keeps : ∀ e u v w, u ≤ v → (leastDown.transfer v e).1 = some w →
      ∃ w', (leastDown.transfer u e).1 = some w' ∧ w' ≤ w := by
    intro e u v w huv hw
    unfold leastDown at *
    grind
  intro n e _ a b hab w hw
  obtain ⟨v, hv, hvw⟩ := Option.bind_eq_some_iff.1 hw
  obtain ⟨u, rfl, huv⟩ := hab v hv
  obtain ⟨w', hw', hle⟩ := keeps e.1 u v w (below_leastDown.1 huv) hvw
  exact ⟨w', hw', below_leastDown.2 hle⟩

theorem reordered_leastDown : leastDown.Reordered leastDownSwapped (Equiv.swap 1 2) (3 - ·) where
  meet := rfl
  entries := by decide
  seed := by decide
  successors n := match n with
    | 0 | 1 | 2 => by decide
    | n + 3 => by
      rw [Equiv.swap_apply_of_ne_of_ne (by simp) (by simp)]
      rfl
  transfer n e he v := by
    have hedge : e.1 = 0 ∨ e.1 = 1 ∨ e.1 = 2 ∨ e.1 = 3 := by
      unfold leastDown at he
      grind
    rcases hedge with h | h | h | h <;> rw [h] <;> rfl

theorem solve_greatest_leastDown :
    leastDown.Monotone ∧ leastDown.Reordered leastDownSwapped (Equiv.swap 1 2) (3 - ·) ∧
    ∃ sol sol', leastDown.solve "least" 20 = .ok sol ∧
      leastDownSwapped.solve "least" 30 = .ok sol' ∧
      leastDown.IsSolution sol.value ∧
      (∀ A, leastDown.IsSolution A → ∀ n, leastDown.Under (A n) (sol.value n)) ∧
      ∀ n, sol'.value (Equiv.swap 1 2 n) = sol.value n := by
  have : Std.Associative leastDown.meet := ⟨Nat.min_assoc⟩
  have : Std.Commutative leastDown.meet := ⟨Nat.min_comm⟩
  have : Std.IdempotentOp leastDown.meet := ⟨Nat.min_self⟩
  obtain ⟨sol, hs, -⟩ := exists_eq_ok_of_any (leastDown.solve "least" 20) (fun _ => true)
    (by decide +kernel)
  obtain ⟨sol', hs', -⟩ := exists_eq_ok_of_any (leastDownSwapped.solve "least" 30)
    (fun _ => true) (by decide +kernel)
  obtain ⟨hsol, hgreatest, horder⟩ := solve_greatest monotone_leastDown hs
  exact ⟨monotone_leastDown, reordered_leastDown, sol, sol', hs, hs', hsol, hgreatest,
    horder _ _ _ reordered_leastDown _ _ _ hs'⟩

end Dataflow

end Typestate
