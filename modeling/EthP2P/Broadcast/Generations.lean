/-
# EthP2P.Broadcast.Generations — which generation of a session an emitted transition belongs to

Every `openSession` of a key starts a new generation of that session at the peer.  The flags of
`ctrlOutState` are shared by all generations of the key: `routing` holds one update and `closeStream`
one request, whichever generation they came from, and only an `openSession` that finds the entry
marked `close` clears them.

The history of a key is kept beside the control state: how many generations were started, which
updates were accepted in which of them, in which a stream close was requested, and what the writer
was told.  `Faithful` says of one emitted transition that it belongs to the generation whose Open was
emitted last.  It holds as long as no generation is opened over what an earlier one left behind
(`OpensClean`).  The control state itself does not keep to that: `next` consumes the `close` of an
entry that also has a pending open, and the following `openSession` then clears nothing.
-/
import EthP2P.Broadcast.CtrlWriter

namespace EthP2P.Broadcast

open Lib Wire Function CtrlOutState

/-! ## The history of a key -/

/-- What was asked of one key so far, and what the writer was told about it. -/
structure KeyHistory where
  /-- The number of `openSession` calls, which is also the current generation. -/
  generation : Nat := 0
  lastOpen : Option PeerOpenSession := none
  /-- No `closeSession` since the last `openSession`. -/
  live : Bool := false
  /-- Every accepted routing update with the generation it was set in, oldest first. -/
  updates : List (Nat × Bytes) := []
  /-- How many of them a withdrawal of the channel has cancelled. -/
  withdrawn : Nat := 0
  /-- The generations in which a stream close was requested. -/
  requests : List Nat := []
  /-- The generation of the Open emitted last. -/
  told : Option Nat := none
  /-- Which of the accepted updates were emitted, counted from one. -/
  sent : List Nat := []
  deriving DecidableEq

namespace KeyHistory

variable (h : KeyHistory)

def opened (e : PeerOpenSession) : KeyHistory :=
  { h with generation := h.generation + 1, lastOpen := some e, live := true }

def closed : KeyHistory := { h with live := false }

def streamClosed : KeyHistory := { h with requests := h.generation :: h.requests }

def routed (update : Bytes) : KeyHistory := { h with updates := h.updates ++ [(h.generation, update)] }

def withdraw : KeyHistory := { h with withdrawn := h.updates.length }

def openTold : KeyHistory := { h with told := some h.generation }

def routingSent : KeyHistory := { h with sent := h.updates.length :: h.sent }

/-- `update` is the last one accepted, set in generation `g`, not withdrawn and not emitted yet. -/
def Due (g : Nat) (update : Bytes) : Prop :=
  h.updates.getLast? = some (g, update) ∧ h.withdrawn < h.updates.length ∧ h.updates.length ∉ h.sent

instance (g : Nat) (update : Bytes) : Decidable (h.Due g update) :=
  inferInstanceAs (Decidable (_ ∧ _ ∧ _))

/-- Only updates that were accepted have been emitted or withdrawn. -/
def Counted : Prop := h.withdrawn ≤ h.updates.length ∧ ∀ n ∈ h.sent, n ≤ h.updates.length

variable {h}

theorem Counted.routed (hc : h.Counted) (update : Bytes) : (h.routed update).Counted := by
  constructor
  · have := hc.1
    simp only [KeyHistory.routed, List.length_append, List.length_singleton]
    omega
  intro n hn
  have := hc.2 n hn
  simp only [KeyHistory.routed, List.length_append, List.length_singleton]
  omega

theorem Counted.routingSent (hc : h.Counted) : h.routingSent.Counted := by
  refine ⟨hc.1, fun n hn => ?_⟩
  rcases List.mem_cons.mp hn with rfl | hn
  · exact le_rfl
  · exact hc.2 n hn

/-- The update accepted just now is due in the current generation. -/
theorem Counted.due_routed (hc : h.Counted) (update : Bytes) : (h.routed update).Due h.generation update := by
  have hlen : (h.routed update).updates.length = h.updates.length + 1 := by
    simp [KeyHistory.routed]
  refine ⟨by simp [KeyHistory.routed], ?_, fun hmem => ?_⟩
  · have : h.withdrawn ≤ h.updates.length := hc.1
    rw [hlen]
    exact Nat.lt_succ_of_le this
  · have := hc.2 _ hmem
    omega

end KeyHistory

/-! ## The control state with its histories -/

structure Generations where
  ctrl : CtrlOutState := .new
  history : SessionKey → KeyHistory := fun _ => {}

namespace Generations

/-- The histories after `next` handed out a transition, or nothing. -/
def handed (history : SessionKey → KeyHistory) :
    Option PeerCtrlEvent → SessionKey → KeyHistory
  | some (.openSession e) => update history e.key (history e.key).openTold
  | some (.sendRouting e) => update history e.key (history e.key).routingSent
  | _ => history

def step (x : Generations) : CtrlOp → Generations
  | .openSession e =>
    { ctrl := x.ctrl.openSession e
      history := update x.history e.key ((x.history e.key).opened e) }
  | .closeSession key =>
    { ctrl := x.ctrl.closeSession key
      history := update x.history key (x.history key).closed }
  | .closeSessionStream key =>
    { ctrl := x.ctrl.closeSessionStream key
      history := update x.history key (x.history key).streamClosed }
  | .setRouting e =>
    { ctrl := (x.ctrl.setRouting e).2
      history := if (x.ctrl.setRouting e).1 then
        update x.history e.key ((x.history e.key).routed e.update) else x.history }
  | .announce id present =>
    { ctrl := x.ctrl.announce id present
      history := fun k =>
        if !present && k.channelID = id then (x.history k).withdraw else x.history k }
  | .next o₁ o₂ =>
    { ctrl := (x.ctrl.next o₁ o₂).2
      history := handed x.history (x.ctrl.next o₁ o₂).1 }

/-- How sessions use a key: opens and closes alternate, and routing updates and stream closes are
asked for only in between. -/
def Issued (x : Generations) : CtrlOp → Prop
  | .openSession e => (x.history e.key).live = false
  | .closeSession key | .closeSessionStream key => (x.history key).live = true
  | .setRouting e => (x.history e.key).live = true
  | .announce _ _ | .next _ _ => True

/-- A generation is opened only where the earlier ones of its key left nothing behind that the open
does not clear: the entry is absent, marked `close`, or holds neither update nor stream close. -/
def OpensClean (x : Generations) : CtrlOp → Prop
  | .openSession e => ∀ e' ∈ x.ctrl.sessions.entries, e'.1 = e.key →
      e'.2.close = true ∨ e'.2.routing = none ∧ e'.2.closeStream = false
  | _ => True

instance (x : Generations) : ∀ op, Decidable (x.Issued op)
  | .openSession e => inferInstanceAs (Decidable ((x.history e.key).live = false))
  | .closeSession key | .closeSessionStream key =>
    inferInstanceAs (Decidable ((x.history key).live = true))
  | .setRouting e => inferInstanceAs (Decidable ((x.history e.key).live = true))
  | .announce _ _ | .next _ _ => .isTrue trivial

instance (x : Generations) : ∀ op, Decidable (x.OpensClean op)
  | .openSession e => inferInstanceAs (Decidable (∀ e' ∈ x.ctrl.sessions.entries, e'.1 = e.key →
      e'.2.close = true ∨ e'.2.routing = none ∧ e'.2.closeStream = false))
  | .closeSession _ | .closeSessionStream _ | .setRouting _ | .announce _ _ | .next _ _ =>
    .isTrue trivial

/-- **The property**, of a transition about to be emitted.  An Open is that of the latest generation.
A routing update is the last one accepted, was set in the generation whose Open was emitted last, and
was neither withdrawn nor emitted before.  A stream close was requested in that generation. -/
def Faithful (x : Generations) : PeerCtrlEvent → Prop
  | .openSession e => (x.history e.key).lastOpen = some e
  | .sendRouting e => ∃ g, (x.history e.key).told = some g ∧ (x.history e.key).Due g e.update
  | .closeStream key => ∃ g, (x.history key).told = some g ∧ g ∈ (x.history key).requests
  | _ => True

/-! ## What the flags of an entry stand for -/

/-- The entry `out` of `key` holds nothing that is not of the current generation. -/
structure Current (key : SessionKey) (h : KeyHistory) (out : SessionOut) : Prop where
  named : ∀ e, out.pendingOpen = some e → e.key = key
  pending : ∀ e, out.pendingOpen = some e → h.lastOpen = some e
  routing : ∀ u, out.routing = some u → h.Due h.generation u
  stream : out.closeStream = true → h.generation ∈ h.requests
  told : out.opened = true → out.pendingOpen = none → h.told = some h.generation

structure Inv (x : Generations) : Prop where
  running : x.ctrl.closed = false
  counted : ∀ key, (x.history key).Counted
  entries : ∀ key out, x.ctrl.sessions.get key = some out → Current key (x.history key) out

theorem inv_init : Inv {} where
  running := rfl
  counted _ := ⟨le_rfl, by simp⟩
  entries _ _ h := by simp [new] at h

section Entry

variable {key : SessionKey} {h : KeyHistory} {out : SessionOut}

/-- A fresh entry holds nothing at all. -/
theorem Current.fresh (key : SessionKey) (h : KeyHistory) (n : Nat) : Current key h { order := n } :=
  ⟨by simp, by simp, by simp, by simp, by simp⟩

theorem Current.reopen {e : PeerOpenSession}
    (hclean : out.close = true ∨ out.routing = none ∧ out.closeStream = false) :
    Current e.key (h.opened e) (out.reopen e) := by
  -- either way the reopened entry starts without update and stream close
  have hempty : (out.reopen e).routing = none ∧ (out.reopen e).closeStream = false := by
    unfold SessionOut.reopen
    cases hclose : out.close with
    | true => exact ⟨rfl, rfl⟩
    | false =>
      rw [hclose] at hclean
      simpa using hclean
  have hpending : (out.reopen e).pendingOpen = some e := rfl
  refine ⟨fun e' he' => ?_, fun e' he' => ?_, fun u hu => ?_, fun hs => ?_, fun _ hp => ?_⟩
  · rw [hpending] at he'
    rw [Option.some.inj he']
  · rw [hpending] at he'
    rw [← he']
    rfl
  · rw [hempty.1] at hu
    cases hu
  · rw [hempty.2] at hs
    cases hs
  · rw [hpending] at hp
    cases hp

section

variable (hout : Current key h out)
include hout

theorem Current.closeSession : Current key h.closed { out with close := true } :=
  ⟨hout.named, hout.pending, hout.routing, hout.stream, hout.told⟩

theorem Current.closeSessionStream : Current key h.streamClosed { out with closeStream := true } :=
  ⟨hout.named, hout.pending, hout.routing, fun _ => by simp [KeyHistory.streamClosed], hout.told⟩

theorem Current.setRouting (hc : h.Counted) (update : Bytes) :
    Current key (h.routed update) { out with routing := some update } := by
  refine ⟨hout.named, hout.pending, fun u hu => ?_, hout.stream, hout.told⟩
  obtain rfl : update = u := Option.some.inj hu
  exact hc.due_routed update

theorem Current.withdraw : Current key h.withdraw { out with routing := none } :=
  ⟨hout.named, hout.pending, fun _ hu => by simp at hu, hout.stream, hout.told⟩

/-- The close of an entry was handed out while its next open is pending. -/
theorem Current.handClose : Current key h { out with close := false, opened := false } :=
  ⟨hout.named, hout.pending, hout.routing, hout.stream, fun ho => by simp at ho⟩

theorem Current.handOpen : Current key h.openTold { out with pendingOpen := none, opened := true } :=
  ⟨fun _ he => by simp at he, fun _ he => by simp at he, hout.routing, hout.stream, fun _ _ => rfl⟩

theorem Current.handCloseStream : Current key h { out with closeStream := false } :=
  ⟨hout.named, hout.pending, hout.routing, fun hs => by simp at hs, hout.told⟩

theorem Current.handRouting : Current key h.routingSent { out with routing := none } :=
  ⟨hout.named, hout.pending, fun _ hu => by simp at hu, hout.stream, hout.told⟩

end

end Entry

/-! ## One step -/

section Step

variable {x : Generations} (h : Inv x)

include h

/-- The entry an operation on `key` works on, an existing or a fresh one. -/
theorem Inv.entry (key : SessionKey) : Current key (x.history key) (x.ctrl.entry key) := by
  unfold CtrlOutState.entry
  cases hk : x.ctrl.sessions.get key with
  | none => exact Current.fresh key _ _
  | some out => exact h.entries key out hk

variable {out : SessionOut}

/-- An operation that moves one key, its history with it. -/
theorem Inv.moveKey {ctrl : CtrlOutState} {key : SessionKey} {hist : KeyHistory} (hrun : ctrl.closed = false)
    (hget : ∀ k, ctrl.sessions.get k = if k = key then some out else x.ctrl.sessions.get k)
    (hcounted : hist.Counted) (hout : Current key hist out) : Inv ⟨ctrl, update x.history key hist⟩ := by
  refine ⟨hrun, fun k => ?_, fun k out' hk => ?_⟩
  · by_cases hkk : k = key
    · subst hkk
      simpa using hcounted
    · simpa [hkk] using h.counted k
  simp only [hget] at hk
  by_cases hkk : k = key
  · subst hkk
    rw [if_pos rfl] at hk
    cases hk
    simpa using hout
  · rw [if_neg hkk] at hk
    simpa [hkk] using h.entries k out' hk

theorem Inv.openSession {e : PeerOpenSession} (hclean : x.OpensClean (.openSession e)) :
    Inv (x.step (.openSession e)) := by
  refine h.moveKey (by simpa using h.running) (get_openSession h.running e) (h.counted e.key) (Current.reopen ?_)
  unfold CtrlOutState.entry
  cases hk : x.ctrl.sessions.get e.key with
  | none => exact .inr ⟨rfl, rfl⟩
  | some out => exact hclean (e.key, out) (Map.mem_entries.mpr hk) rfl

theorem Inv.closeSession (key : SessionKey) : Inv (x.step (.closeSession key)) :=
  h.moveKey (by simpa using h.running) (get_closeSession h.running key) (h.counted key) (h.entry key).closeSession

theorem Inv.closeSessionStream (key : SessionKey) : Inv (x.step (.closeSessionStream key)) :=
  h.moveKey (by simpa using h.running) (get_closeSessionStream h.running key)
    (h.counted key) (h.entry key).closeSessionStream

theorem Inv.setRouting (e : PeerSendRouting) : Inv (x.step (.setRouting e)) := by
  have hget := get_setRouting h.running e
  have hrun : (x.ctrl.setRouting e).2.closed = false := by simpa using h.running
  cases hk : x.ctrl.sessions.get e.key with
  | none =>
    -- the update is refused and nothing moves
    have hrefused : x.ctrl.setRouting e = (false, x.ctrl) := by
      simp [CtrlOutState.setRouting, h.running, hk]
    simpa [step, hrefused] using h
  | some out =>
    have htaken : (x.ctrl.setRouting e).1 = true := by
      simp [CtrlOutState.setRouting, h.running, hk]
    simp only [step, htaken, if_true]
    refine h.moveKey hrun (fun k => ?_) ((h.counted e.key).routed e.update)
      ((h.entries e.key out hk).setRouting (h.counted e.key) e.update)
    rw [hget]
    by_cases hkk : k = e.key
    · subst hkk
      simp [hk]
    · simp [hkk]

theorem Inv.announce (id : ChannelID) (present : Bool) : Inv (x.step (.announce id present)) := by
  refine ⟨by simpa [step] using h.running, fun k => ?_, fun k out' hk => ?_⟩
  · simp only [step]
    split
    · exact ⟨le_rfl, (h.counted k).2⟩
    · exact h.counted k
  simp only [step, get_announce h.running, Option.map_eq_some_iff] at hk ⊢
  obtain ⟨out, hk, rfl⟩ := hk
  split
  · exact (h.entries k out hk).withdraw
  · exact h.entries k out hk

variable {m : Map SessionKey SessionOut}

/-- What a phase 1 left over was there before. -/
theorem Inv.kept {k : SessionKey} (hm : KeptOrDropped x.ctrl.sessions m k) (hk : m.get k = some out) :
    Current k (x.history k) out := by
  rcases hm with hm | ⟨hm, _⟩
  · exact h.entries k out (hm ▸ hk)
  · rw [hm] at hk
    cases hk

/-- The same move after a phase 1 that handed out nothing. -/
theorem Inv.movePhase {ctrl : CtrlOutState} {key : SessionKey} {hist : KeyHistory} (hm : Settled x.ctrl.sessions m)
    (hrun : ctrl.closed = false) (hctrl : ctrl.sessions = m.set key out) (hcounted : hist.Counted)
    (hout : Current key hist out) : Inv ⟨ctrl, update x.history key hist⟩ := by
  have hx : Inv ⟨{ ctrl with sessions := m }, x.history⟩ :=
    ⟨hrun, h.counted, fun k out hk => h.kept (hm k).1 hk⟩
  exact hx.moveKey hrun (fun k => by rw [hctrl, Map.get_set]) hcounted hout

/-- **One `next`.** What it hands out belongs to the generation the peer was told last, and what it
leaves behind is of the current generation. -/
theorem Inv.next (o₁ o₂ : Order ChannelID) :
    (∀ evt, (x.ctrl.next o₁ o₂).1 = some evt → x.Faithful evt) ∧ Inv (x.step (.next o₁ o₂)) := by
  have hrun : (x.ctrl.next o₁ o₂).2.closed = false := by simpa using h.running
  have hspec := next_spec h.running o₁ o₂
  change _ ∧ Inv ⟨(x.ctrl.next o₁ o₂).2, handed x.history (x.ctrl.next o₁ o₂).1⟩
  generalize x.ctrl.next o₁ o₂ = r at hrun hspec
  obtain ⟨evt, ctrl⟩ := r
  simp only at hrun hspec ⊢
  -- the history of no key moves, and every entry left is an old one
  have hsame : (∀ k out, ctrl.sessions.get k = some out → Current k (x.history k) out) →
      Inv ⟨ctrl, x.history⟩ := fun hentries => ⟨hrun, h.counted, hentries⟩
  cases hspec with
  | @closeSession key out _ hk hclose hopened hself hrest _ =>
    refine ⟨fun evt he => ?_, hsame fun k out' hk' => ?_⟩
    · cases he
      trivial
    by_cases hkk : k = key
    · subst hkk
      rw [hself] at hk'
      split at hk'
      · cases hk'
      · cases hk'
        exact (h.entries k out hk).handClose
    · exact h.kept (hrest k hkk) hk'
  | unsubscribe hm _ _ _ _ | subscribe hm _ _ _ _ _ =>
    refine ⟨fun evt he => ?_, hsame fun k out' hk' => h.kept (hm k).1 hk'⟩
    cases he
    trivial
  | @session _ m _ hm hphase _ _ =>
    rcases sessionPhases_cases hphase with
      ⟨key, out, e, hk, he, rfl, hctrl⟩ | ⟨hno, ⟨key, out, hk, hs, ho, rfl, hctrl⟩ | ⟨_, hlast⟩⟩
    · have hout := h.kept (hm key).1 hk
      obtain rfl : e.key = key := hout.named e he
      refine ⟨fun evt hevt => ?_, h.movePhase hm hrun hctrl (h.counted e.key) hout.handOpen⟩
      cases hevt
      exact hout.pending e he
    · -- no open is pending anywhere, so the writer was told the current generation
      have hout := h.kept (hm key).1 hk
      refine ⟨fun evt hevt => ?_, ?_⟩
      · cases hevt
        exact ⟨_, hout.told ho (hno key out hk), hout.stream hs⟩
      · have := h.movePhase hm hrun hctrl (h.counted key) hout.handCloseStream
        rwa [update_eq_self] at this
    · rcases hlast with ⟨key, out, upd, hk, hr, ho, rfl, hctrl⟩ | ⟨_, rfl, hctrl⟩
      · have hout := h.kept (hm key).1 hk
        refine ⟨fun evt hevt => ?_, h.movePhase hm hrun hctrl (h.counted key).routingSent hout.handRouting⟩
        cases hevt
        exact ⟨_, hout.told ho (hno key out hk), hout.routing upd hr⟩
      · refine ⟨fun evt hevt => by simp at hevt, hsame fun k out hk => ?_⟩
        rw [show ctrl.sessions = m from hctrl] at hk
        exact h.kept (hm k).1 hk

theorem Inv.step {op : CtrlOp} (hclean : x.OpensClean op) : Inv (x.step op) := by
  cases op with
  | openSession e => exact h.openSession hclean
  | closeSession key => exact h.closeSession key
  | closeSessionStream key => exact h.closeSessionStream key
  | setRouting e => exact h.setRouting e
  | announce id present => exact h.announce id present
  | next o₁ o₂ => exact (h.next o₁ o₂).2

end Step

/-! ## Whole histories -/

/-- **Transitions belong to the generation the peer was told.**  In every history in which no
generation is opened over what an earlier one left behind, whatever `next` hands out at any point is
faithful. -/
theorem emitted_belongs {ops : List CtrlOp} (h : Along step OpensClean {} ops) :
    ∀ pre, pre <+: ops → ∀ (o₁ o₂ : Order ChannelID) (evt : PeerCtrlEvent),
      ((exec step {} pre).ctrl.next o₁ o₂).1 = some evt → (exec step {} pre).Faithful evt := by
  rintro pre ⟨post, rfl⟩ o₁ o₂ evt hevt
  have hinv : Inv (exec step {} pre) :=
    Along.invariant (I := Inv) (fun _ _ hinv hop => hinv.step hop) inv_init (Along.append_iff.mp h).1
  exact (hinv.next o₁ o₂).1 evt hevt

open CtrlSystem (openA openB nextStored)

/-- A third generation of the session of `openA`. -/
def openC : PeerOpenSession := ⟨"ch", "m", [], [], 3⟩

/-- A re-open over the closed first generation drops the update of that generation: what is emitted
after it is the update of the second one. -/
theorem emitted_belongs_reopen :
    let ops := [.openSession openA, nextStored, .setRouting ⟨"ch", "m", [1]⟩,
      .closeSession openA.key, .openSession openB, .setRouting ⟨"ch", "m", [2]⟩, nextStored]
    Along step OpensClean {} ops ∧ (exec step {} ops).Faithful (.sendRouting ⟨"ch", "m", [2]⟩) :=
  ⟨by decide, emitted_belongs (by decide) _ (List.prefix_refl _) (.stored _) (.stored _) _ (by decide)⟩

/-- The second generation is opened and closed while the close of the first one waits for the writer.
`next` hands that close out and takes the mark off the entry, so the third `openSession` clears
nothing: after its Open the peer is told the stream close and the update of the second generation. -/
theorem stale_generation_emitted :
    let update : PeerSendRouting := ⟨"ch", "m", [7]⟩
    let ops := [.openSession openA, nextStored, .closeSession openA.key, .openSession openB,
      .setRouting update, .closeSessionStream openA.key, .closeSession openA.key, nextStored,
      .openSession openC, nextStored]
    let x := exec step {} ops
    let y := x.step nextStored
    Along step Issued {} (ops ++ [nextStored]) ∧
    (x.history openA.key).told = some 3 ∧ (x.history openA.key).requests = [2] ∧
    (x.history openA.key).updates = [(2, [7])] ∧
    (x.ctrl.next (.stored _) (.stored _)).1 = some (.closeStream openA.key) ∧
    ¬ x.Faithful (.closeStream openA.key) ∧
    (y.ctrl.next (.stored _) (.stored _)).1 = some (.sendRouting update) ∧
    ¬ y.Faithful (.sendRouting update) := by
  refine ⟨by decide, by decide, by decide, by decide, by decide, ?_, by decide, ?_⟩
  · rintro ⟨g, htold, hmem⟩
    obtain rfl : 3 = g := Option.some.inj htold
    revert hmem
    decide
  rintro ⟨g, htold, hlast, _⟩
  obtain rfl : 3 = g := Option.some.inj htold
  revert hlast
  decide

end Generations

end EthP2P.Broadcast
