/-
# EthP2P.Lib.Pool — goroutines over a shared state, one atomic step at a time

A program of many goroutines is a shared state and a pool of tasks.  A task is what a goroutine has
still to do; running it performs its next atomic action on the shared state and leaves tasks behind:
its own continuation, if any, and the goroutines it started.  Which task runs next, and what the
outside world answers it, is free, so a run covers every interleaving.

Two rules prove invariants of a pool.  `run_frame` is about what the tasks hold together, as a sum: a
step that trades between the shared state and its own task keeps the balance whatever the other
tasks hold.  `run_asserts` gives every task an assertion about the shared state, which the steps of
the others must not disturb.
-/
import Mathlib.Algebra.BigOperators.Group.List.Basic
import Mathlib.Data.List.Perm.Basic

namespace EthP2P.Lib

/-- A shared state and the tasks that work on it.  Their order carries no meaning. -/
structure Pool (S T : Type*) where
  shared : S
  tasks : List T

namespace Pool

variable {S T O : Type*}

/-- Task number `i`, if there is one, takes its next step; `o` is the outside world's answer. -/
def run (step : S → T → O → S × List T) (p : Pool S T) (i : Nat) (o : O) : Pool S T :=
  match p.tasks[i]? with
  | none => p
  | some t =>
    { shared := (step p.shared t o).1
      tasks := (step p.shared t o).2 ++ p.tasks.eraseIdx i }

/-- A new task joins the pool. -/
def spawn (p : Pool S T) (t : T) : Pool S T := { p with tasks := t :: p.tasks }

section Run

variable (step : S → T → O → S × List T)

/-- All that one step of a pool can be, with the task it picks. -/
theorem run_picks (p : Pool S T) (i : Nat) (o : O) :
    p.run step i o = p ∨
    ∃ t rest, p.tasks[i]? = some t ∧ (t :: rest).Perm p.tasks ∧
      p.run step i o = ⟨(step p.shared t o).1, (step p.shared t o).2 ++ rest⟩ := by
  unfold run
  cases ht : p.tasks[i]? with
  | none => exact .inl rfl
  | some t =>
    obtain ⟨hi, hget⟩ := List.getElem?_eq_some_iff.mp ht
    refine .inr ⟨t, p.tasks.eraseIdx i, rfl, ?_, rfl⟩
    rw [← hget]
    exact List.getElem_cons_eraseIdx_perm hi

theorem run_cases (p : Pool S T) (i : Nat) (o : O) :
    p.run step i o = p ∨
    ∃ t rest, (t :: rest).Perm p.tasks ∧ p.run step i o = ⟨(step p.shared t o).1, (step p.shared t o).2 ++ rest⟩ := by
  rcases p.run_picks step i o with heq | ⟨t, rest, _, hperm, heq⟩
  · exact .inl heq
  · exact .inr ⟨t, rest, hperm, heq⟩

/-! ## What the tasks hold together -/

variable {M : Type*} [AddCommMonoid M] (f : T → M)

/-- The sum of what the tasks hold. -/
def held (p : Pool S T) : M := (p.tasks.map f).sum

variable {p : Pool S T}

/-- **The frame rule.**  A relation between the shared state and what the tasks hold is kept by the
pool if each step keeps it with an arbitrary rest `m` in the other tasks' hands. -/
theorem run_frame {Φ : S → M → Prop}
    (hstep : ∀ s t o m, Φ s (f t + m) → Φ (step s t o).1 (((step s t o).2.map f).sum + m)) (h : Φ p.shared (p.held f))
    (i : Nat) (o : O) : Φ (p.run step i o).shared ((p.run step i o).held f) := by
  rcases p.run_cases step i o with heq | ⟨t, rest, hperm, heq⟩
  · rw [heq]
    exact h
  have hheld : p.held f = f t + (rest.map f).sum := by
    have := (hperm.map f).sum_eq
    rw [List.map_cons, List.sum_cons] at this
    exact this.symm
  rw [hheld] at h
  rw [heq]
  have := hstep p.shared t o _ h
  simpa only [held, List.map_append, List.sum_append] using this

/-! ## What each task may rely on -/

/-- The shared state satisfies `I`, and each task its assertion. -/
def Asserted (I : S → Prop) (A : S → T → Prop) (p : Pool S T) : Prop :=
  I p.shared ∧ ∀ t ∈ p.tasks, A p.shared t

/-- **The rule of undisturbed assertions.**  A step that meets the guard keeps `I` and gives the tasks it
leaves behind their assertions, and it makes no assertion of another task false. -/
theorem run_asserts_guarded {I : S → Prop} {A G : S → T → Prop}
    (hstep : ∀ s t o, G s t → I s → A s t → I (step s t o).1 ∧ ∀ u ∈ (step s t o).2, A (step s t o).1 u)
    (hstable : ∀ s t o u, G s t → I s → A s t → A s u → A (step s t o).1 u) (h : p.Asserted I A) {i : Nat}
    (hguard : ∀ t, p.tasks[i]? = some t → G p.shared t) (o : O) : (p.run step i o).Asserted I A := by
  rcases p.run_picks step i o with heq | ⟨t, rest, hpick, hperm, heq⟩
  · rw [heq]
    exact h
  rw [heq]
  have hmem : ∀ u, u ∈ t :: rest → A p.shared u := fun u hu => h.2 u (hperm.mem_iff.mp hu)
  have ht : A p.shared t := hmem t List.mem_cons_self
  have hG := hguard t hpick
  obtain ⟨hI, hnew⟩ := hstep p.shared t o hG h.1 ht
  refine ⟨hI, fun u hu => ?_⟩
  rcases List.mem_append.mp hu with hu | hu
  · exact hnew u hu
  · exact hstable p.shared t o u hG h.1 ht (hmem u (List.mem_cons_of_mem t hu))

/-- The rule without a guard. -/
theorem run_asserts {I : S → Prop} {A : S → T → Prop}
    (hstep : ∀ s t o, I s → A s t → I (step s t o).1 ∧ ∀ u ∈ (step s t o).2, A (step s t o).1 u)
    (hstable : ∀ s t o u, I s → A s t → A s u → A (step s t o).1 u) (h : p.Asserted I A) (i : Nat) (o : O) :
    (p.run step i o).Asserted I A :=
  run_asserts_guarded step (G := fun _ _ => True) (fun s t o _ => hstep s t o)
    (fun s t o u _ => hstable s t o u) h (fun _ _ => trivial) o

end Run

@[simp] theorem held_spawn {M : Type*} [AddCommMonoid M] (f : T → M) (p : Pool S T) (t : T) :
    (p.spawn t).held f = f t + p.held f := by
  simp [held, spawn]

theorem Asserted.spawn {I : S → Prop} {A : S → T → Prop} {p : Pool S T} (h : p.Asserted I A) {t : T}
    (ht : A p.shared t) : (p.spawn t).Asserted I A := by
  refine ⟨h.1, fun u hu => ?_⟩
  rcases List.mem_cons.mp hu with rfl | hu
  · exact ht
  · exact h.2 u hu

end Pool

end EthP2P.Lib
