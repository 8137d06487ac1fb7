/-
# EthP2P.Lib.Runs — runs of a labelled system, and what holds along them

A system is a total step function on states and labels; a run is a list of labels.  Which labels may
be performed in a state, and which of them meet a side condition, is one predicate `ok` on the state
*before* the step, so a guarded run is `Along step ok s as`.  The two rules every safety proof of the
development goes through are `Along.invariant` (a property kept by each guarded step holds at the
end of each guarded run) and `Along.guard_at` (the guard itself, read back at any position of a run).

A step may also take something in or give something out.  `trace` collects that along a run, and
`trace_fifo` says that a queue which every step leaves in order is in order over the whole run, `trace_log`
that a log has all that was given out.
-/
import Mathlib.Data.List.Basic

namespace EthP2P.Lib

variable {S A : Type*}

/-- The state a run of labels ends in. -/
def exec (step : S → A → S) (s : S) (as : List A) : S := as.foldl step s

/-- Each label of the run meets `ok` in the state in which it is performed. -/
def Along (step : S → A → S) (ok : S → A → Prop) : S → List A → Prop
  | _, [] => True
  | s, a :: as => ok s a ∧ Along step ok (step s a) as

section Exec

variable (step : S → A → S)

@[simp] theorem exec_nil (s : S) : exec step s [] = s := rfl

@[simp] theorem exec_cons (s : S) (a : A) (as : List A) : exec step s (a :: as) = exec step (step s a) as := rfl

@[simp] theorem exec_append (s : S) (as bs : List A) : exec step s (as ++ bs) = exec step (exec step s as) bs := by
  simp [exec, List.foldl_append]

/-- The invariant rule for a system without guards. -/
theorem exec_invariant {I : S → Prop} (hstep : ∀ s a, I s → I (step s a)) {s : S} (hinit : I s)
    (as : List A) : I (exec step s as) := by
  induction as generalizing s with
  | nil => exact hinit
  | cons a as ih => exact ih (hstep s a hinit)

end Exec

instance Along.decidable {step : S → A → S} {ok : S → A → Prop} [∀ s a, Decidable (ok s a)] :
    ∀ (s : S) (as : List A), Decidable (Along step ok s as)
  | _, [] => .isTrue trivial
  | s, a :: as => @instDecidableAnd _ _ _ (Along.decidable (step s a) as)

namespace Along

variable {step : S → A → S} {ok ok' : S → A → Prop} {s : S}

theorem append_iff {as bs : List A} :
    Along step ok s (as ++ bs) ↔ Along step ok s as ∧ Along step ok (exec step s as) bs := by
  induction as generalizing s with
  | nil => simp [Along]
  | cons a as ih =>
    simp only [List.cons_append, Along, exec_cons, and_assoc]
    exact and_congr_right fun _ => ih

/-- The guard holds at every position of a guarded run. -/
theorem guard_at {pre post : List A} {a : A} (h : Along step ok s (pre ++ a :: post)) : ok (exec step s pre) a :=
  (append_iff.mp h).2.1

/-- Two guards along one run are one guard. -/
theorem and {as : List A} (h : Along step ok s as) (h' : Along step ok' s as) :
    Along step (fun s a => ok s a ∧ ok' s a) s as := by
  induction as generalizing s with
  | nil => trivial
  | cons a as ih => exact ⟨⟨h.1, h'.1⟩, ih h.2 h'.2⟩

/-- **The invariant rule.** What every guarded step keeps holds at the end of every guarded run. -/
theorem invariant {I : S → Prop} (hstep : ∀ s a, I s → ok s a → I (step s a)) (hinit : I s)
    {as : List A} (h : Along step ok s as) : I (exec step s as) := by
  induction as generalizing s with
  | nil => exact hinit
  | cons a as ih => exact ih (hstep s a hinit h.1) h.2

end Along

/-! ## What goes in and what comes out -/

section Trace

variable {B : Type*}

/-- What `out` gives at each step of a run, in order. -/
def trace (step : S → A → S) (out : S → A → List B) : S → List A → List B
  | _, [] => []
  | s, a :: as => out s a ++ trace step out (step s a) as

/-- What waited and what came in is, in order, what went out and what waits at the end. -/
theorem trace_fifo {step : S → A → S} {ins outs : S → A → List B} {I : S → Prop} (pending : S → List B)
    (hkeep : ∀ s a, I s → I (step s a))
    (hstep : ∀ s a, I s → pending s ++ ins s a = outs s a ++ pending (step s a)) {s : S} (hinit : I s)
    (as : List A) : pending s ++ trace step ins s as = trace step outs s as ++ pending (exec step s as) := by
  induction as generalizing s with
  | nil => simp [trace]
  | cons a as ih =>
    have hrest := ih (hkeep s a hinit)
    calc pending s ++ (ins s a ++ trace step ins (step s a) as)
        = outs s a ++ (pending (step s a) ++ trace step ins (step s a) as) := by
          rw [← List.append_assoc, hstep s a hinit, List.append_assoc]
      _ = outs s a ++ trace step outs (step s a) as ++ pending (exec step (step s a) as) := by
          rw [hrest, List.append_assoc]

/-- A log that every step extends by what it gives out. -/
theorem trace_log {step : S → A → S} {out : S → A → List B} {I : S → Prop} (log : S → List B)
    (hkeep : ∀ s a, I s → I (step s a)) (hstep : ∀ s a, I s → log (step s a) = log s ++ out s a) {s : S} (hinit : I s)
    (as : List A) : log (exec step s as) = log s ++ trace step out s as := by
  induction as generalizing s with
  | nil => simp [trace]
  | cons a as ih =>
    rw [exec_cons, ih (hkeep s a hinit), hstep s a hinit, trace, List.append_assoc]

end Trace

end EthP2P.Lib
