import Mathlib.Data.DFinsupp.WellFounded
import Mathlib.Data.ENat.Basic
import Typestate.Proofs.Fixpoint.Restriction

/-!
# The solver comes to an end

Values have a height, and a meet that changes a value lowers its height; a node without a value
is higher than any value. A visit that changes a value lowers the height of a node and raises
none, and one that changes none leaves a node less to visit. There are finitely many nodes, so
the solver cannot go on forever. Values need not come from a finite set for this.
-/
namespace Typestate

variable {V ω : Type}

namespace Dataflow

open Iteration

/-- The height of the value at a node. A node without a value is above all others. -/
def heightAt (height : V → ℕ) (it : Iteration V ω) (n : NodeId) : ℕ∞ :=
  (it.values.get? n).elim ⊤ fun v => height v

/-- The heights of the values at some nodes. -/
def heights (height : V → ℕ) (nodes : Finset NodeId) (it : Iteration V ω) : nodes → ℕ∞ :=
  fun n => heightAt height it n

/-- Values go down: only some finitely many nodes get one, and what changes a value that has a
property of its node lowers its height. -/
structure Descends (d : Dataflow V ω) (P : NodeId → V → Prop) (height : V → ℕ)
    (nodes : Finset NodeId) : Prop extends d.Preserves P where
  successors : ∀ n, ∀ e ∈ d.successors n, e.2 ∈ nodes
  lower : ∀ {n v u}, P n v → P n u → d.meet v u ≠ v → height (d.meet v u) < height v

variable {d : Dataflow V ω} {P : NodeId → V → Prop} {height : V → ℕ} {nodes : Finset NodeId}
  {it it' it'' : Iteration V ω}

/-- The values at all nodes have a property. -/
def Within (P : NodeId → V → Prop) (it : Iteration V ω) : Prop :=
  ∀ n v, it.values.get? n = some v → P n v

theorem Preserves.within_start (h : d.Preserves P) : Within P d.start := by
  intro n v hv
  rw [get?_start] at hv
  split at hv
  · rename_i hn
    exact Option.some.inj hv ▸ h.seed n hn
  · cases hv

/-- A later state of the solver has made progress: heights have gone down, or nothing has
happened. -/
def Progress (height : V → ℕ) (nodes : Finset NodeId) (it it' : Iteration V ω) : Prop :=
  heights height nodes it' < heights height nodes it ∨ Alike it it'

theorem heights_of_values (h : it'.values = it.values) :
    heights height nodes it' = heights height nodes it := by
  funext n
  rw [heights, heightAt, h]
  rfl

theorem Progress.trans (h : Progress height nodes it it') (h' : Progress height nodes it' it'') :
    Progress height nodes it it'' := by
  rcases h with h | h <;> rcases h' with h' | h'
  · exact .inl (h'.trans h)
  · exact .inl (heights_of_values h'.values ▸ h)
  · exact .inl (heights_of_values h.values ▸ h')
  · exact .inr ⟨h'.values.trans h.values, h'.pending.trans h.pending⟩

theorem heights_set_lt {n : NodeId} {v : V} (hn : n ∈ nodes)
    (hv : ∀ o, it.values.get? n = some o → height v < height o) :
    heights height nodes (it.set n v) < heights height nodes it := by
  have hlt : heightAt height (it.set n v) n < heightAt height it n := by
    unfold heightAt
    rw [get?_set, if_pos rfl, Option.elim_some]
    cases ho : it.values.get? n with
    | none => exact ENat.natCast_lt_top _
    | some o => exact Nat.cast_lt.2 (hv o ho)
  refine Pi.lt_def.2 ⟨fun m => ?_, ⟨n, hn⟩, hlt⟩
  by_cases hm : m.1 = n
  · rw [heights, heights, hm]
    exact hlt.le
  · rw [heights, heights, heightAt, get?_set, if_neg hm]
    rfl

variable [DecidableEq V]

theorem Preserves.within_step (h : d.Preserves P) {n : NodeId} {v : V} (hv : P n v)
    {e : EdgeId × NodeId} (he : e ∈ d.successors n) (hit : Within P it) :
    Within P (d.step v it e) := by
  have hwithin : d.PreservesWithin (fun _ _ => True) P := ⟨h.seed, fun _ => h.transfer, h.meet⟩
  exact hwithin.step trivial hv he hit

theorem Preserves.within_visit (h : d.Preserves P) (hit : Within P it) (n : NodeId) :
    Within P (d.visit n it) :=
  visit_induction (M := Within P) hit hit
    fun v hv _ he _ hj => h.within_step (hit n v hv) he hj

namespace Descends

theorem progress_step (h : d.Descends P height nodes) {n : NodeId} {v : V} (hv : P n v)
    {e : EdgeId × NodeId} (he : e ∈ d.successors n) (hit : Within P it) :
    Progress height nodes it (d.step v it e) := by
  cases hr : (d.transfer v e.1).1 with
  | none =>
    obtain ⟨hvalues, hpending⟩ := step_of_none it hr
    exact .inr ⟨hvalues, hpending⟩
  | some u =>
    by_cases hu : it.values.get? e.2 = some (d.arrived (it.values.get? e.2) u)
    · obtain ⟨hvalues, hpending⟩ := step_of_unchanged hr hu
      exact .inr ⟨hvalues, hpending⟩
    · obtain ⟨it₀, hvalues, -, hs⟩ := step_of_changed hr hu
      rw [hs]
      refine .inl (lt_of_lt_of_eq (heights_set_lt (h.successors n e he) fun o ho => ?_)
        (heights_of_values hvalues))
      rw [hvalues] at ho
      rw [ho, arrived] at hu ⊢
      have hchanged : d.meet o u ≠ o := fun heq => hu (congrArg some heq.symm)
      exact h.lower (hit e.2 o ho) (h.transfer hv he hr) hchanged

theorem progress_visit (h : d.Descends P height nodes) (hit : Within P it) (n : NodeId) :
    Progress height nodes it (d.visit n it) := by
  refine (visit_induction (M := fun j => Within P j ∧ Progress height nodes it j)
    ⟨hit, .inr (.refl it)⟩ ⟨hit, .inr ⟨rfl, rfl⟩⟩ fun v hv e he j hj => ?_).2
  have hvP := hit n v hv
  exact ⟨h.within_step hvP he hj.1, hj.2.trans (h.progress_step hvP he hj.1)⟩

/-- From every state of the solver some number of visits leads to the end. -/
theorem exists_iterate (h : d.Descends P height nodes) (hit : Within P it) :
    ∃ allowed fin, d.iterate allowed it = some fin := by
  -- each visit lowers the heights or, with the same heights, shortens the list of nodes to visit
  let rank (it : Iteration V ω) : (nodes → ℕ∞) ×ₗ ℕ :=
    toLex (heights height nodes it, it.pending.length)
  induction it using (InvImage.wf rank wellFounded_lt).induction with
  | _ it ih =>
    cases hp : it.pending with
    | nil =>
      refine ⟨0, it, ?_⟩
      unfold iterate
      rw [hp]
    | cons n rest =>
      have hrest : Within P { it with pending := rest } := hit
      have hlower : rank (d.visit n { it with pending := rest }) < rank it := by
        rcases h.progress_visit hrest n with hlt | halike
        · exact Prod.Lex.toLex_lt_toLex.2 (.inl hlt)
        · refine Prod.Lex.toLex_lt_toLex.2 (.inr ⟨heights_of_values halike.values, ?_⟩)
          rw [halike.pending, hp]
          exact Nat.lt_succ_self _
      obtain ⟨allowed, fin, hfin⟩ := ih _ hlower (h.within_visit hrest n)
      refine ⟨allowed + 1, fin, ?_⟩
      unfold iterate
      rw [hp]
      exact hfin

/-- The solver needs some number of visits. If it may make as many it finds the same solution,
and with fewer it gives up for that reason. -/
theorem exists_limit (h : d.Descends P height nodes) : ∃ needed sol, ∀ pass limit,
    d.solve pass limit =
      if needed ≤ limit then .ok sol else .error (.notConverged pass limit) := by
  obtain ⟨allowed, fin, hfin⟩ := h.exists_iterate h.within_start
  have hends : ∃ allowed, (d.iterate allowed d.start).isSome = true :=
    ⟨allowed, by rw [hfin]; rfl⟩
  obtain ⟨fin, hfin⟩ := Option.isSome_iff_exists.1 (Nat.find_spec hends)
  refine ⟨Nat.find hends, ⟨fin.values, fin.visits.reverse, d.seeds, fin.changes.reverse,
    fin.events.reverse⟩, fun pass limit => ?_⟩
  unfold solve
  split_ifs with hle
  · obtain ⟨more, rfl⟩ := Nat.exists_eq_add_of_le hle
    rw [iterate_add hfin more]
  · have hnone : d.iterate limit d.start = none := by
      simpa using Nat.find_min hends (Nat.lt_of_not_le hle)
    rw [hnone]

end Descends

end Dataflow

end Typestate
