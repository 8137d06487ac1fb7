/-
# EthP2P.Stack.Callers — who waits for a dial attempt is woken

A caller of `Connect` that finds an attempt in the dial table waits for its end.  Every attempt of the table has its
driver, which ends it in the step that takes it out.
-/
import EthP2P.Stack.Attempts

namespace EthP2P.Stack

open Lib Stack.Task Map List

/-- The attempt that a task waits for. -/
def Task.waits : Task → Option (PeerID × AttemptRef)
  | .wait c d | .woken c d => some (c.id, d)
  | _ => none

namespace Connecting

/-- What is in the table has a driver, and so has what is waited for until its end. -/
structure Driving (s : Connecting) (ts : List Task) : Prop where
  table : ∀ x, s.attempts.get x.1 = some x.2 → x ∈ ts.filterMap drives
  waited : ∀ x ∈ ts.filterMap waits, (s.ended.get x.2).isSome = true ∨ x ∈ ts.filterMap drives

variable {s s' : Connecting} {t : Task} {ts rest : List Task}

theorem Driving.perm (h : Driving s ts) (hperm : ts.Perm rest) : Driving s rest where
  table x hx := (hperm.filterMap drives).mem_iff.mp (h.table x hx)
  waited x hx := by
    rw [← (hperm.filterMap drives).mem_iff]
    exact h.waited x ((hperm.filterMap waits).mem_iff.mpr hx)

/-- A task goes on with what it drives, and the table stays. -/
theorem Driving.goes (h : Driving s (t :: rest)) (hattempts : s'.attempts = s.attempts) (hended : s'.ended = s.ended)
    (hdrives : ts.filterMap drives = [t].filterMap drives)
    (hwaits : ∀ x ∈ ts.filterMap waits, t.waits = some x ∨ s.attempts.get x.1 = some x.2) :
    Driving s' (ts ++ rest) := by
  have hsame : (ts ++ rest).filterMap drives = (t :: rest).filterMap drives := by
    rw [filterMap_append, hdrives, ← filterMap_append, singleton_append]
  refine ⟨fun x hx => ?_, fun x hx => ?_⟩
  · rw [hsame]
    exact h.table x (hattempts ▸ hx)
  rw [hended, hsame]
  rw [filterMap_append, mem_append] at hx
  rcases hx with hx | hx
  · rcases hwaits x hx with hx | hx
    · exact h.waited x (by simp [hx])
    · exact .inr (h.table x hx)
  · exact h.waited x ((sublist_cons_self t rest).filterMap waits |>.subset hx)

/-- A caller starts an attempt and drives it. -/
theorem Driving.starts {c : Caller} (h : Driving s (.enter c :: rest)) (stack : StackState) (d : AttemptRef) :
    Driving { s with stack := stack, attempts := s.attempts.set c.id d, nextAttempt := d + 1 }
      (.dial c d c.endpoints [] :: rest) := by
  refine ⟨fun x hx => ?_, fun x hx => (h.waited x hx).imp_right (mem_cons_of_mem _)⟩
  change (s.attempts.set c.id d).get x.1 = some x.2 at hx
  rw [get_set] at hx
  split at hx
  · rename_i hid
    exact mem_cons.mpr (.inl (Prod.ext hid (Option.some.inj hx).symm))
  · exact mem_cons_of_mem _ (h.table x hx)

/-- The driver of an attempt ends it and takes it out of the table. -/
theorem Driving.finish {c : Caller} {d : AttemptRef} {failures : List DialFailure}
    (h : Driving s (.finish c d failures :: rest)) : Driving (s.finish c d failures).1 rest := by
  refine ⟨fun x hx => ?_, fun x hx => ?_⟩
  · change (s.attempts.del c.id).get x.1 = some x.2 at hx
    rw [get_del] at hx
    split at hx
    · cases hx
    · rename_i hid
      exact (mem_cons.mp (h.table x hx)).resolve_left fun heq => hid (congrArg Prod.fst heq)
  · change ((s.ended.set d _).get x.2).isSome = true ∨ _
    rw [get_set]
    split
    · exact .inl rfl
    · rename_i hne
      exact (h.waited x hx).imp_right fun hmem =>
        (mem_cons.mp hmem).resolve_left fun heq => hne (congrArg Prod.snd heq)

theorem Driving.step (h : Driving s (t :: rest)) (o : Outcome) : Driving (s.step t o).1 ((s.step t o).2 ++ rest) := by
  fun_cases Connecting.step s t o
  case case1 c =>
    fun_cases s.enter c
    case case4 d hd => exact h.goes rfl rfl rfl (by simp [waits, hd])
    case case5 => exact h.starts _ _
    all_goals exact h.goes rfl rfl rfl (by simp)
  case case6 c d => fun_cases s.woken c d <;> exact h.goes rfl rfl rfl (by simp [waits])
  case case15 c d n failures v => fun_cases s.attach c d n failures v <;> exact h.goes rfl rfl rfl (by simp [waits])
  case case19 => exact h.finish
  case case20 id => fun_cases s.disconnect id <;> exact h.goes rfl rfl rfl (by simp [waits])
  all_goals exact h.goes rfl rfl rfl (by simp [waits])

theorem Driving.advance (h : Driving s (t :: rest)) (o : Outcome) :
    Driving (s.advance t o).1 ((s.advance t o).2 ++ rest) := by
  have hnoted : ∀ r, (s.noted t r).attempts = r.1.attempts ∧ (s.noted t r).ended = r.1.ended := by
    intro r
    unfold noted
    repeat' split
    all_goals exact ⟨rfl, rfl⟩
  obtain ⟨hattempts, hended⟩ := hnoted (s.step t o)
  refine ⟨fun x hx => (h.step o).table x (hattempts ▸ hx), ?_⟩
  unfold Connecting.advance
  rw [hended]
  exact (h.step o).waited

end Connecting

namespace ConnectPool

theorem driving_event (p : ConnectPool) (e : ConnectEvent) (h : p.shared.Driving p.tasks) :
    (p.event e).shared.Driving (p.event e).tasks := by
  cases e with
  | connect record endpoints =>
    simp only [event, connect]
    repeat' split
    all_goals exact ⟨h.table, h.waited⟩
  | run i o =>
    simp only [event]
    rcases p.run_cases Connecting.advance i o with heq | ⟨t, rest, hperm, heq⟩
    · rwa [heq]
    · rw [heq]
      exact (h.perm hperm.symm).advance o
  | op o =>
    simp only [event]
    split <;> exact ⟨h.table, h.waited⟩
  | close =>
    simp only [event, close]
    split <;> exact ⟨h.table, h.waited⟩
  | _ => exact ⟨h.table, h.waited⟩

/-- **No caller of `Connect` waits in vain.**  In every interleaving of callers, network, supervisors and `Disconnect`,
an attempt that a caller waits for has ended or a task drives it, and a task drives each one of the table. -/
theorem waiters_are_woken (self : PeerID) (registry : Registry) (events : List ConnectEvent) :
    let p := exec event (init self registry) events
    (∀ t ∈ p.tasks, ∀ x, t.waits = some x → (p.shared.ended.get x.2).isSome = true ∨ ∃ u ∈ p.tasks, u.drives = some x) ∧
    ∀ id d, p.shared.attempts.get id = some d → ∃ u ∈ p.tasks, u.drives = some (id, d) := by
  intro p
  have h : p.shared.Driving p.tasks :=
    exec_invariant (I := fun p : ConnectPool => p.shared.Driving p.tasks) event driving_event
      ⟨by simp [init], by simp [init]⟩ events
  refine ⟨fun t ht x hx => ?_, fun id d hd => mem_filterMap.mp (h.table (id, d) hd)⟩
  exact (h.waited x (mem_filterMap.mpr ⟨t, ht, hx⟩)).imp_right mem_filterMap.mp

end ConnectPool

end EthP2P.Stack
