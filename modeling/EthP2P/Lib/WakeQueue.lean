/-
# EthP2P.Lib.WakeQueue — a queue with one wake token

Producers and consumers share a queue under a mutex.  A consumer that finds it empty waits for a token; the
token channel holds one, which every push and every pop that leaves items behind puts there.  With several
consumers that one token must not be lost: `Inv.woken` says that while items wait in an open queue, the token is
there or a consumer has it and will pop.  An operation under the mutex is one step, taking the token is another.
-/
import Mathlib.Logic.Function.Basic
import EthP2P.Lib.Runs

namespace EthP2P.Lib

/-- The operations of such a queue, with what they do. -/
structure WakeQueue (Q α : Type*) where
  items : Q → List α
  closed : Q → Bool
  ready : Q → Bool
  push : Q → α → Bool × Q
  pop : Q → Option α × Q
  close : Q → List α × Q
  /-- The token is received. -/
  take : Q → Q
  push_closed : ∀ q a, closed q = true → push q a = (false, q)
  push_open : ∀ q a, closed q = false → (push q a).1 = true ∧ items (push q a).2 = items q ++ [a] ∧
    closed (push q a).2 = false ∧ ready (push q a).2 = true
  pop_nil : ∀ q, items q = [] → pop q = (none, q)
  pop_cons : ∀ q a as, items q = a :: as → (pop q).1 = some a ∧ items (pop q).2 = as ∧
    closed (pop q).2 = closed q ∧ (as ≠ [] → ready (pop q).2 = true)
  close_all : ∀ q, (close q).1 = items q ∧ items (close q).2 = [] ∧ closed (close q).2 = true
  take_token : ∀ q, items (take q) = items q ∧ closed (take q) = closed q

namespace WakeQueue

/-- Where a consumer is: it may pop next, it waits for the token, or it has the token and pops next. -/
inductive Phase
  | running
  | waiting
  | awake
  deriving DecidableEq

inductive Op (α : Type*)
  | push (a : α)
  | pop (i : Nat)
  | take (i : Nat)
  /-- A consumer gives up waiting. -/
  | leave (i : Nat)
  | close

/-- The queue, the consumers, the items whose push was accepted and those that a pop or a close returned. -/
structure System (Q α : Type*) where
  queue : Q
  phase : Nat → Phase := fun _ => .running
  accepted : List α := []
  returned : List α := []

variable {Q α : Type*} (I : WakeQueue Q α)

def step (x : System Q α) : Op α → System Q α
  | .push a =>
    let r := I.push x.queue a
    { x with queue := r.2, accepted := if r.1 then x.accepted ++ [a] else x.accepted }
  | .pop i =>
    if x.phase i = .waiting then x
    else
      let r := I.pop x.queue
      { x with
        queue := r.2
        phase := Function.update x.phase i (if r.1.isSome then .running else .waiting)
        returned := x.returned ++ r.1.toList }
  | .take i =>
    if x.phase i = .waiting ∧ I.ready x.queue then
      { x with queue := I.take x.queue, phase := Function.update x.phase i .awake }
    else x
  | .leave i => if x.phase i = .waiting then { x with phase := Function.update x.phase i .running } else x
  | .close =>
    let r := I.close x.queue
    { x with queue := r.2, returned := x.returned ++ r.1 }

structure Inv (x : System Q α) : Prop where
  order : x.accepted = x.returned ++ I.items x.queue
  shut : I.closed x.queue = true → I.items x.queue = []
  woken : I.closed x.queue = false → I.items x.queue ≠ [] → I.ready x.queue = true ∨ ∃ i, x.phase i = .awake

variable {I} {x : System Q α}

section

variable (h : Inv I x)
include h

theorem inv_push (a : α) : Inv I (I.step x (.push a)) := by
  simp only [step]
  cases hc : I.closed x.queue with
  | true =>
    rw [I.push_closed x.queue a hc]
    exact h
  | false =>
    obtain ⟨hok, hitems, hopen, hready⟩ := I.push_open x.queue a hc
    refine ⟨?_, fun hclosed => ?_, fun _ _ => .inl hready⟩
    · rw [hok, if_pos rfl, hitems, h.order, List.append_assoc]
    · rw [hopen] at hclosed
      cases hclosed

theorem inv_pop (i : Nat) : Inv I (I.step x (.pop i)) := by
  simp only [step]
  split
  · exact h
  cases hitems : I.items x.queue with
  | nil =>
    rw [I.pop_nil x.queue hitems]
    exact ⟨by simpa using h.order, h.shut, fun _ hne => absurd hitems hne⟩
  | cons a as =>
    obtain ⟨hsome, hrest, hclosed, hready⟩ := I.pop_cons x.queue a as hitems
    refine ⟨?_, fun hc => ?_, fun _ hne => .inl (hready (hrest ▸ hne))⟩
    · simp [hsome, hrest, h.order, hitems]
    -- a closed queue is empty, so this one is open
    rw [hclosed] at hc
    rw [h.shut hc] at hitems
    cases hitems

theorem inv_take (i : Nat) : Inv I (I.step x (.take i)) := by
  simp only [step]
  split
  · obtain ⟨hitems, hclosed⟩ := I.take_token x.queue
    refine ⟨?_, ?_, fun _ _ => .inr ⟨i, Function.update_self ..⟩⟩
    · rw [hitems]
      exact h.order
    · rw [hitems, hclosed]
      exact h.shut
  · exact h

/-- Only a consumer that waits gives up, and it has no token. -/
theorem inv_leave (i : Nat) : Inv I (I.step x (.leave i)) := by
  simp only [step]
  split
  · rename_i hi
    refine ⟨h.order, h.shut, fun hopen hne => (h.woken hopen hne).imp_right ?_⟩
    rintro ⟨k, hk⟩
    have hki : k ≠ i := by
      rintro rfl
      cases hi.symm.trans hk
    exact ⟨k, (Function.update_of_ne hki _ _).trans hk⟩
  · exact h

theorem inv_close : Inv I (I.step x .close) := by
  obtain ⟨hall, hnil, hclosed⟩ := I.close_all x.queue
  refine ⟨?_, fun _ => hnil, fun hopen => absurd hopen ?_⟩
  · simp [step, hall, hnil, h.order]
  · simp [step, hclosed]

theorem inv_step (op : Op α) : Inv I (I.step x op) := by
  cases op with
  | push a => exact inv_push h a
  | pop i => exact inv_pop h i
  | take i => exact inv_take h i
  | leave i => exact inv_leave h i
  | close => exact inv_close h

end

/-- What is closed stays closed. -/
theorem closed_step (h : I.closed x.queue = true) (op : Op α) : I.closed (I.step x op).queue = true := by
  cases op with
  | push a => simp [step, I.push_closed x.queue a h, h]
  | pop i =>
    simp only [step]
    split
    · exact h
    cases hitems : I.items x.queue with
    | nil => simp [I.pop_nil x.queue hitems, h]
    | cons a as => simp [(I.pop_cons x.queue a as hitems).2.2.1, h]
  | take i =>
    simp only [step]
    split
    · exact (I.take_token x.queue).2.trans h
    · exact h
  | leave i =>
    simp only [step]
    split <;> exact h
  | close => exact (I.close_all x.queue).2.2

variable (I)

/-- Over every run from `q`: items leave in the order of their pushes, each once; a closed queue is empty and takes
no push; and no item of an open queue waits while the token is gone and nobody is about to pop. -/
def Delivers (q : Q) : Prop :=
  ∀ ops : List (Op α),
    let x := exec I.step { queue := q } ops
    x.accepted = x.returned ++ I.items x.queue ∧
    (I.closed x.queue = true → I.items x.queue = []) ∧
    (.close ∈ ops → ∀ a, (I.push x.queue a).1 = false) ∧
    (I.closed x.queue = false → I.items x.queue ≠ [] → I.ready x.queue = true ∨ ∃ i, x.phase i = .awake)

theorem delivers {q : Q} (hitems : I.items q = []) : I.Delivers q := by
  intro ops
  have hinit : Inv I { queue := q } := ⟨hitems.symm, fun _ => hitems, fun _ hne => absurd hitems hne⟩
  have h := exec_invariant I.step (I := Inv I) (fun _ op hx => inv_step hx op) hinit ops
  refine ⟨h.order, h.shut, fun hclose a => ?_, h.woken⟩
  obtain ⟨before, after, rfl⟩ := List.append_of_mem hclose
  rw [exec_append, exec_cons]
  have hclosed := exec_invariant I.step (I := fun x => I.closed x.queue = true) (fun _ op hx => closed_step hx op)
    (s := I.step (exec I.step { queue := q } before) .close) (I.close_all _).2.2 after
  rw [I.push_closed _ a hclosed]

end WakeQueue

end EthP2P.Lib
