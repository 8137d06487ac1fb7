/-
# EthP2P.Broadcast.Streams — what becomes of the CHUNK streams of a node

A CHUNK stream passes from the FIFO of its connection through the accept loop, a reader goroutine, the inbox
of a channel, a parked group or a read queue, and a reader of a session.  Two questions are answered here:
whose streams can be left in a channel after their peer was unbound, and whether a stream can be lost on the
way when everything is shut down.
-/
import EthP2P.Broadcast.Custody
import EthP2P.Broadcast.Membership

namespace EthP2P.Broadcast

open Lib Wire Channel List

variable {S C R P : Type}

namespace Channel

variable {sch : Scheme S C R P} {luck : Nat → Chance} {x : Channel S}

/-! ## The end of a channel -/

/-- A session that was closed has nothing queued. -/
theorem queuedAt_close {m k : MessageID} {pr : PendingChunkRead}
    (h : (x.onSession m (Scope.Close luck)).QueuedAt k pr) : x.QueuedAt k pr ∧ k ≠ m := by
  obtain ⟨sess, hget, hpr⟩ := h
  rcases get_of_onSession hget with ⟨_, old, _, rfl⟩ | ⟨hk, hget⟩
  · have hempty : (Scope.closeWithCode luck .unspecified ⟨old, x.world⟩).sess.readQueue = [] :=
      (Scope.keeps_closeWithCode luck .unspecified ⟨old, x.world⟩).2
    exact absurd (hempty ▸ hpr) not_mem_nil
  · exact ⟨⟨sess, hget, hpr⟩, hk⟩

theorem drained_closeSessions (luck : Nat → Chance) (x : Channel S) (m : MessageID) (pr : PendingChunkRead) :
    ¬ (x.forSessions luck fun m x => x.onSession m (Scope.Close luck)).QueuedAt m pr := by
  refine foldl_clears (p := fun m (x : Channel S) => x.QueuedAt m pr) (fun _ _ h => (queuedAt_close h).2 rfl)
    (fun _ _ _ h => (queuedAt_close h).1) ?_ m
  rintro m ⟨sess, hget, _⟩
  exact Map.mem_range.mpr (Map.mem_keys_of_get hget)

/-- The loop that cancels what is parked settles all of it and parks nothing else. -/
theorem settled_cancelParked (luck : Nat → Chance) (x : Channel S) {m : MessageID} {c : ChunkStream}
    (h : (x.forParked luck fun _ group x => x.cancelStreams group.streams .unspecified).ParkedAt m c) :
    (x.forParked luck fun _ group x => x.cancelStreams group.streams .unspecified).world.Settled c.stream := by
  let round : Channel S → MessageID → Channel S := fun x m =>
    ((x.parked.get m).map fun group => x.cancelStreams group.streams .unspecified).getD x
  have hparked : ∀ (x : Channel S) (k : MessageID), (round x k).parked = x.parked := by
    intro x k
    simp only [round]
    cases x.parked.get k with
    | none | some group => rfl
  have hsettled : ∀ (x : Channel S) (k : MessageID) (s : InStream), x.world.Settled s →
      (round x k).world.Settled s := by
    intro x k s hs
    simp only [round]
    cases x.parked.get k with
    | none => exact hs
    | some group => exact (settles_cancelStreams group.streams .unspecified x).1.settled s hs
  by_contra hlost
  refine foldl_clears (f := round) (p := fun m (x : Channel S) => x.ParkedAt m c ∧ ¬ x.world.Settled c.stream)
    ?_ ?_ ?_ m ⟨h, hlost⟩
  · rintro x k ⟨⟨group, hget, hc⟩, hlost⟩
    rw [hparked] at hget
    simp only [round, hget, Option.map_some, Option.getD_some] at hlost
    exact hlost ((settles_cancelStreams group.streams .unspecified x).2 c hc)
  · rintro x k b ⟨⟨group, hget, hc⟩, hlost⟩
    rw [hparked] at hget
    exact ⟨⟨group, hget, hc⟩, fun hs => hlost (hsettled x k c.stream hs)⟩
  · rintro m ⟨⟨group, hget, _⟩, _⟩
    exact Map.mem_range.mpr (Map.mem_keys_of_get hget)

/-- **The first part of the shutdown** settles all that waited. -/
theorem settled_closeAll (luck : Nat → Chance) (x : Channel S) :
    (x.closeAll luck).phase = x.phase ∨
      ∀ m p s, (x.closeAll luck).Waiting m p s → (x.closeAll luck).world.Settled s := by
  unfold closeAll
  split
  · dsimp only
    generalize hx₁ : (x.forSessions luck fun m x => x.onSession m (Scope.Close luck)) = x₁
    have hdrained : ∀ m pr, ¬ x₁.QueuedAt m pr := by
      rw [← hx₁]
      exact drained_closeSessions luck x
    generalize hx₂ : (x₁.forParked luck fun _ group x => x.cancelStreams group.streams .unspecified) = x₂
    have hsame : x₂.sessions = x₁.sessions := by
      rw [← hx₂]
      refine (foldl_same (fun x : Channel S => x.sessions) (fun x m => ?_) _ (x₁.onWorld World.turn)).trans
        rfl
      cases x.parked.get m with
      | none | some group => rfl
    refine .inr ?_
    rintro m p s (⟨c, hc, _, rfl⟩ | ⟨pr, ⟨sess, hget, hpr⟩, _⟩)
    · have hc₂ : x₂.ParkedAt m c := hc
      show x₂.world.Settled c.stream
      rw [← hx₂] at hc₂ ⊢
      exact settled_cancelParked luck x₁ hc₂
    · have hget₂ : x₂.sessions.get m = some sess := hget
      rw [hsame] at hget₂
      exact absurd ⟨sess, hget₂, hpr⟩ (hdrained m pr)
  · exact .inl rfl

/-! ## No stream is left behind by a peer that was unbound -/

/-- Only members have streams that wait. -/
def Cleared (x : Channel S) : Prop :=
  ∀ p, x.members.get p = none → ∀ m s, ¬ x.Waiting m p s

/-- A CHUNK stream is handled only while its peer is a member. -/
def TakesFromMembers (x : Channel S) (op : Op S) : Prop :=
  x.onDue (fun
    | .chunkStream e => (x.members.get e.peerID).isSome
    | _ => true) op = true

variable {y : Channel S} {s : InStream} {rd : Reader}

theorem Cleared.of_passes {new : List ChunkStream} (hx : x.Cleared)
    (hpass : Passes new x y) (hmembers : ∀ p, y.members.get p = none → x.members.get p = none)
    (hnew : ∀ c ∈ new, y.members.get c.peerID ≠ none) : y.Cleared := by
  intro p hp m s hwait
  rcases hpass.only m p s hwait with hold | ⟨c, hc, _, rfl, _⟩
  · exact hx p (hmembers p hp) m s hold
  · exact hnew c hc hp

theorem cleared_handle (sch : Scheme S C R P) (luck : Nat → Chance) (hx : x.Cleared) {evt : Event S}
    (hmember : ∀ e, evt = .chunkStream e → (x.members.get e.peerID).isSome) : (x.handle sch luck evt).Cleared := by
  have hpass := passes_handle sch luck evt x
  have hget := members_handle sch luck evt x
  cases hchange : changes evt with
  | nil =>
    rw [hchange] at hget
    refine hx.of_passes hpass (fun p hp => ?_) fun c hc => ?_
    · rw [← hp, hget]
      rfl
    cases evt with
    | chunkStream e =>
      rw [mem_singleton.mp hc, hget]
      exact Option.isSome_iff_ne_none.mp (hmember e rfl)
    | _ => exact absurd hc not_mem_nil
  | cons change rest =>
    cases evt with
    | peerChange e =>
      obtain ⟨q, ref⟩ := e
      have happly : ∀ p, (x.handle sch luck (.peerChange ⟨q, ref⟩)).members.get p =
          if p = q then ref else x.members.get p := by
        intro p
        rw [hget]
        exact Function.update_apply ..
      intro p hp m s hwait
      rw [happly] at hp
      by_cases hpq : p = q
      · -- the unbinding of this very peer
        rw [if_pos hpq] at hp
        subst hpq hp
        exact (settles_handlePeerUnbound sch luck p x).2 m s hwait
      rw [if_neg hpq] at hp
      rcases hpass.only m p s hwait with hold | ⟨c, hc, _⟩
      · exact hx p hp m s hold
      · exact absurd hc not_mem_nil
    | _ => cases hchange

/-- **A step of a channel** leaves no stream of a peer that is no member. -/
theorem cleared_step (sch : Scheme S C R P) (luck : Nat → Chance) (hx : x.Cleared) {op : Op S}
    (hok : x.TakesFromMembers op) : (x.step sch luck op).Cleared := by
  by_cases hnext : op = .next
  · subst hnext
    show (x.next sch luck).Cleared
    cases hdue : x.due with
    | none =>
      rw [next_of_none hdue]
      exact hx
    | some evt =>
      obtain ⟨rest, _, _, hhandle⟩ := next_of_some sch luck hdue
      rw [hhandle]
      have hpop : (x.onWorld fun w => { w with inbox := rest }).Cleared :=
        fun p hp m s hwait => hx p hp m s hwait
      refine cleared_handle sch luck hpop ?_
      rintro e rfl
      simp only [TakesFromMembers, onDue, hdue, Option.all_some] at hok
      exact hok
  · obtain ⟨_, hmembers, _⟩ := step_frame sch luck hnext x
    have hback : ∀ p, (x.step sch luck op).members.get p = none → x.members.get p = none := by
      intro p hp
      rw [← hmembers]
      exact hp
    by_cases hclose : op = .closeAll
    · subst hclose
      exact hx.of_passes (settles_closeAll luck x).toPasses hback (by simp)
    have hout := outside_step sch luck op hnext hclose x
    intro p hp m s hwait
    refine hx p (hback p hp) m s ?_
    unfold Waiting ParkedAt QueuedAt at hwait ⊢
    rw [hout.parked, hout.sessions] at hwait
    exact hwait

/-! ## Streams in the hands of a channel -/

/-- The channel will deal with the stream, or has dealt with it. -/
def Holds (x : Channel S) (s : InStream) : Prop :=
  (x.phase ≠ .stopped ∧ ∃ e, Event.chunkStream e ∈ x.world.inbox ∧ e.stream = s) ∨
    (x.phase = .running ∧ ∃ m p, x.Waiting m p s) ∨ x.world.Settled s

theorem settled_of_same (hreaders : y.world.readers = x.world.readers)
    (hcancel : y.world.cancelReads = x.world.cancelReads) (h : x.world.Settled s) : y.world.Settled s := by
  refine h.mono ?_ ?_
  · rw [hreaders]
    exact fun _ h => h
  · rw [hcancel]
    exact fun _ h => h

theorem settled_post (evt : Event S) (h : x.world.Settled s) : (x.post evt).world.Settled s := by
  unfold post
  split
  · exact settled_of_same rfl rfl h
  · exact h

/-- Another phase of one reader leaves the streams of the others with their readers. -/
theorem settled_setReader {phase : ReaderPhase} (h : x.world.Settled s) :
    (x.setReader rd phase).world.Settled s ∨ rd.stream = s ∧ rd.phase = .reading := by
  rcases h with ⟨rd', hrd', hs, hphase⟩ | hcode
  · by_cases heq : rd' = rd
    · subst heq
      exact .inr ⟨hs, hphase⟩
    · refine .inl (.inl ⟨rd', mem_map.mpr ⟨rd', hrd', ?_⟩, hs, hphase⟩)
      exact if_neg heq
  · exact .inl (.inr hcode)

theorem settled_endReader (hrd : rd.phase ≠ .reading) (h : x.world.Settled s) : (x.endReader rd).world.Settled s := by
  rcases h with ⟨rd', hrd', hs, hphase⟩ | hcode
  · refine .inl ⟨rd', ?_, hs, hphase⟩
    have hne : rd' ≠ rd := by
      rintro rfl
      exact hrd hphase
    exact (mem_erase_of_ne hne).mpr hrd'
  · exact .inr hcode

theorem settled_reader {st : ReaderStep} (hmove : ReaderMove x rd st y)
    (h : x.world.Settled s) : y.world.Settled s ∨ s ∈ Node.reads x (.reader rd st) := by
  -- a reader that is not reading holds no stream
  have hidle : ∀ {y : Channel S} (phase : ReaderPhase), rd.phase ≠ .reading → y.world.Settled s →
      (y.setReader rd phase).world.Settled s := by
    intro y phase hne hy
    exact (settled_setReader hy).resolve_right fun hreading => hne hreading.2
  cases hmove with
  | rest => exact .inl h
  | got hmem hphase hlen =>
    refine (settled_setReader h).imp_right ?_
    rintro ⟨rfl, _⟩
    simp only [Node.reads, if_pos (And.intro hmem (And.intro hphase hlen)), mem_singleton]
  | @failed code _ _ =>
    refine .inl ?_
    rcases h with ⟨rd', hrd', hs, hphase'⟩ | ⟨c, hc⟩
    · by_cases heq : rd' = rd
      · subst heq hs
        exact .inr ⟨code, mem_append_right _ (mem_singleton.mpr rfl)⟩
      · refine .inl ⟨rd', mem_map.mpr ⟨rd', hrd', ?_⟩, hs, hphase'⟩
        exact if_neg heq
    · exact .inr ⟨c, mem_append_left _ hc⟩
  | hand _ hphase => exact .inl (hidle _ (by rw [hphase]; nofun) (settled_of_same rfl rfl h))
  | drop _ hphase | release _ hphase => exact .inl (hidle _ (by rw [hphase]; nofun) h)
  | announce _ hphase => exact .inl (settled_endReader (by rw [hphase]; nofun) (settled_of_same rfl rfl h))
  | quit _ hphase _ => exact .inl (settled_endReader (by rw [hphase]; nofun) h)

/-- Outside the actor, a stream leaves its reader only when it was read to the end or cancelled. -/
theorem settled_step (sch : Scheme S C R P) (luck : Nat → Chance) {op : Op S} (hnext : op ≠ .next)
    (hclose : op ≠ .closeAll) (h : x.world.Settled s) :
    (x.step sch luck op).world.Settled s ∨ s ∈ Node.reads x op := by
  by_cases hfinish : op = .finish
  · subst hfinish
    refine .inl ?_
    show x.finish.world.Settled s
    unfold finish
    split
    · exact (settles_cancelStreams _ .unspecified x).1.settled s h
    · exact h
  have hbeat := beat_step sch luck hnext hclose hfinish x
  generalize x.step sch luck op = y at hbeat ⊢
  cases hbeat with
  | reader hop hmove =>
    subst hop
    exact settled_reader hmove h
  | _ => exact .inl (settled_of_same rfl rfl h)

theorem Holds.post (evt : Event S) (h : x.Holds s) : (x.post evt).Holds s := by
  rcases h with ⟨hphase, e, he, hs⟩ | ⟨hphase, hwait⟩ | hsettled
  · unfold Channel.post
    split
    · exact .inl ⟨hphase, e, mem_append_left _ he, hs⟩
    · exact .inl ⟨hphase, e, he, hs⟩
  · unfold Channel.post
    split <;> exact .inr (.inl ⟨hphase, hwait⟩)
  · exact .inr (.inr (settled_post evt hsettled))

theorem Holds.next (sch : Scheme S C R P) (luck : Nat → Chance) (h : x.Holds s) : (x.next sch luck).Holds s := by
  cases hdue : x.due with
  | none =>
    rw [next_of_none hdue]
    exact h
  | some evt =>
    obtain ⟨rest, hinbox, hrun, hhandle⟩ := next_of_some sch luck hdue
    rw [hhandle]
    generalize hpop : (x.onWorld fun w => { w with inbox := rest }) = x₀
    have hpass := passes_handle sch luck evt x₀
    have hrun' : (x₀.handle sch luck evt).phase = .running := by
      rw [phase_handle, ← hpop]
      exact hrun
    have hrest : (x₀.handle sch luck evt).world.inbox = rest := by
      rw [inbox_handle, ← hpop]
      rfl
    have hwaiting : ∀ m p, x₀.Waiting m p s → (x₀.handle sch luck evt).Holds s := by
      intro m p hwait
      rcases hpass.kept m p s hwait with hwait | hsettled
      · exact .inr (.inl ⟨hrun', m, p, hwait⟩)
      · exact .inr (.inr hsettled)
    rcases h with ⟨hphase, e, he, rfl⟩ | ⟨_, m, p, hwait⟩ | hsettled
    · rw [hinbox] at he
      rcases mem_cons.mp he with rfl | he
      · rcases hpass.taken e (mem_singleton.mpr rfl) with hwait | hsettled
        · exact .inr (.inl ⟨hrun', e.objectId, e.peerID, hwait⟩)
        · exact .inr (.inr hsettled)
      refine .inl ⟨?_, e, ?_, rfl⟩
      · rw [hrun']
        nofun
      · rw [hrest]
        exact he
    · subst hpop
      exact hwaiting m p hwait
    · subst hpop
      exact .inr (.inr (hpass.settled s hsettled))

theorem Holds.closeAll (luck : Nat → Chance) (h : x.Holds s) : (x.closeAll luck).Holds s := by
  have hpass := settles_closeAll luck x
  rcases h with ⟨hphase, e, he, hs⟩ | ⟨hrun, m, p, hwait⟩ | hsettled
  · refine .inl ⟨fun hstop => hphase ((stopped_closeAll luck x).mp hstop), e, ?_, hs⟩
    rw [inbox_closeAll]
    exact he
  · rcases hpass.kept m p s hwait with hwait | hsettled
    · rcases settled_closeAll luck x with hphase | hall
      · exact .inr (.inl ⟨hphase.trans hrun, m, p, hwait⟩)
      · exact .inr (.inr (hall m p s hwait))
    · exact .inr (.inr hsettled)
  · exact .inr (.inr (hpass.settled s hsettled))

theorem Holds.finish (h : x.Holds s) : x.finish.Holds s := by
  obtain heq | ⟨hphase, _, streams, hall, heq⟩ := x.finish_cases
  · rw [heq]
    exact h
  rw [heq]
  obtain ⟨hpass, hcancelled⟩ := settles_cancelStreams streams .unspecified x
  refine .inr (.inr ?_)
  show (x.cancelStreams streams .unspecified).world.Settled s
  rcases h with ⟨_, e, he, rfl⟩ | ⟨hrun, _⟩ | hsettled
  · exact hcancelled e (hall e he)
  · rw [hrun] at hphase
    cases hphase
  · exact hpass.settled s hsettled

/-- **A step of a channel** lets go of a stream only when it has been read to the end. -/
theorem Holds.step (sch : Scheme S C R P) (luck : Nat → Chance) (op : Op S) (h : x.Holds s) :
    (x.step sch luck op).Holds s ∨ s ∈ Node.reads x op := by
  by_cases hnext : op = .next
  · subst hnext
    exact .inl (h.next sch luck)
  by_cases hclose : op = .closeAll
  · subst hclose
    exact .inl (h.closeAll luck)
  by_cases hfinish : op = .finish
  · subst hfinish
    exact .inl h.finish
  obtain ⟨new, _, happends⟩ := posts_step sch luck hnext hclose hfinish x
  have hout := outside_step sch luck op hnext hclose x
  rcases h with ⟨hphase, e, he, hs⟩ | ⟨hrun, m, p, hwait⟩ | hsettled
  · refine .inl (.inl ⟨happends.phase ▸ hphase, e, ?_, hs⟩)
    rw [happends.inbox]
    exact mem_append_left _ he
  · refine .inl (.inr (.inl ⟨happends.phase.trans hrun, m, p, ?_⟩))
    unfold Waiting ParkedAt QueuedAt at hwait ⊢
    rw [hout.parked, hout.sessions]
    exact hwait
  · exact (settled_step sch luck hnext hclose hsettled).imp_left fun h => .inr (.inr h)

/-- An actor that has left its loop has seen that the context ended. -/
def EndsInOrder (x : Channel S) : Prop := x.phase ≠ .running → x.world.ctxDone = true

theorem endsInOrder_step (sch : Scheme S C R P) (luck : Nat → Chance) (op : Op S) (x : Channel S) :
    (x.EndsInOrder → (x.step sch luck op).EndsInOrder) ∧
      (x.phase = .stopped → (x.step sch luck op).phase = .stopped) := by
  have hsame : ∀ {y : Channel S}, y.shell = x.shell →
      (x.EndsInOrder → y.EndsInOrder) ∧ (x.phase = .stopped → y.phase = .stopped) := by
    intro y hshell
    have hphase : y.phase = x.phase := congrArg Prod.fst hshell
    have hctx : y.world.ctxDone = x.world.ctxDone := congrArg (fun s => s.2.2.1) hshell
    refine ⟨fun hx hy => ?_, fun hstop => hphase.trans hstop⟩
    rw [hctx]
    exact hx (hphase ▸ hy)
  by_cases hnext : op = .next
  · subst hnext
    show (_ → (x.next sch luck).EndsInOrder) ∧ (_ → (x.next sch luck).phase = _)
    cases hdue : x.due with
    | none =>
      rw [next_of_none hdue]
      exact ⟨fun h => h, fun h => h⟩
    | some evt =>
      obtain ⟨rest, _, hrun, hhandle⟩ := next_of_some sch luck hdue
      rw [hhandle]
      have hphase : ((x.onWorld fun w => { w with inbox := rest }).handle sch luck evt).phase = .running :=
        (phase_handle sch luck evt _).trans hrun
      refine ⟨fun _ hy => absurd hphase hy, fun hstop => ?_⟩
      rw [hrun] at hstop
      cases hstop
  by_cases hclose : op = .closeAll
  · subst hclose
    show (_ → (x.closeAll luck).EndsInOrder) ∧ (_ → (x.closeAll luck).phase = _)
    rcases shell_closeAll luck x with hshell | ⟨_, hctx, hshell⟩
    · exact hsame hshell
    refine ⟨fun _ _ => ?_, (stopped_closeAll luck x).mpr⟩
    have hsameCtx : (x.closeAll luck).world.ctxDone = x.world.ctxDone :=
      congrArg (fun s => s.2.2.1) hshell
    rw [hsameCtx]
    exact hctx
  by_cases hfinish : op = .finish
  · subst hfinish
    show (_ → x.finish.EndsInOrder) ∧ (_ → x.finish.phase = _)
    obtain heq | ⟨hclosing, _, streams, _, heq⟩ := x.finish_cases
    · rw [heq]
      exact ⟨fun h => h, fun h => h⟩
    rw [heq]
    refine ⟨fun hx _ => ?_, fun _ => rfl⟩
    have hcore := (aside_cancelStreams streams .unspecified x).world
    show (x.cancelStreams streams .unspecified).world.ctxDone = true
    refine (congrArg World.ctxDone hcore).trans (hx ?_)
    simp [hclosing]
  obtain ⟨new, _, happends⟩ := posts_step sch luck hnext hclose hfinish x
  exact ⟨fun hx hy => happends.ctxDone (hx (happends.phase ▸ hy)), fun hstop => happends.phase.trans hstop⟩

/-- The channel went on, and let go only of streams that are `done`. -/
structure Goes (done : List InStream) (x y : Channel S) : Prop where
  holds : ∀ s, x.Holds s → y.Holds s ∨ s ∈ done
  ends : x.EndsInOrder → y.EndsInOrder
  stopped : x.phase = .stopped → y.phase = .stopped

theorem Goes.refl (done : List InStream) (x : Channel S) : Goes done x x :=
  ⟨fun _ h => .inl h, fun h => h, fun h => h⟩

theorem goes_post (done : List InStream) (evt : Event S) (x : Channel S) : Goes done x (x.post evt) := by
  have hsame : (x.post evt).phase = x.phase ∧ (x.post evt).world.ctxDone = x.world.ctxDone := by
    unfold post
    split <;> exact ⟨rfl, rfl⟩
  refine ⟨fun s h => .inl (h.post evt), fun hx => ?_, fun hstop => hsame.1.trans hstop⟩
  unfold EndsInOrder
  rw [hsame.1, hsame.2]
  exact hx

theorem goes_step (sch : Scheme S C R P) (luck : Nat → Chance) (op : Op S) (x : Channel S)
    {done : List InStream} (hdone : Node.reads x op ⊆ done) : Goes done x (x.step sch luck op) := by
  obtain ⟨hends, hstopped⟩ := endsInOrder_step sch luck op x
  exact ⟨fun s h => (h.step sch luck op).imp_right fun hs => hdone hs, hends, hstopped⟩

end Channel

namespace Node

variable {sch : ChannelRef → Scheme S C R P} {luck : ChannelRef → Nat → Chance}
  {names : ChannelRef → ChannelID} {ids : ConnRef → PeerID} {n : Node S}

/-- What the goroutines around a channel post to it in one step: the engine its next change, a connection a
CHUNK stream or an OPEN. -/
inductive Sends (ids : ConnRef → PeerID) (n : Node S) (t : ChannelRef) : NodeOp S → Event S → Prop
  | change {change : ChannelPeerChange} {rest : List (ChannelRef × ChannelPeerChange)}
      (h : n.sys.engine.posted.drop n.sent = (t, change) :: rest) : Sends ids n t .deliver (.peerChange change)
  | stream {op : NodeOp S} (e : ChunkStream) : Sends ids n t op (.chunkStream e)
  | opened {op : NodeOp S} {c : ConnRef} {msg : SessOpen} (h : (c, t, msg) ∈ n.opens) :
      Sends ids n t op (.sessionOpen (ids c) msg)

/-- What one step of a node does to one of its channels. -/
theorem channels_step (sch : ChannelRef → Scheme S C R P) (luck : ChannelRef → Nat → Chance)
    (names : ChannelRef → ChannelID) (ids : ConnRef → PeerID) (n : Node S) (op : NodeOp S) (t : ChannelRef) :
    (n.step sch luck names ids op).channels t = n.channels t ∨
    (∃ evt, n.Sends ids t op evt ∧ (n.step sch luck names ids op).channels t = (n.channels t).post evt) ∨
    ∃ op', op = .channel t op' ∧ replaced op' = false ∧
      (n.step sch luck names ids op).channels t = (n.channels t).step (sch t) (luck t) op' := by
  have hfeeds : ∀ {ok : ChannelRef → Event S → Prop} {n' : Node S}, Feeds ok n n' →
      (∀ evt, ok t evt → n.Sends ids t op evt) → n'.channels t = n.channels t ∨
      ∃ evt, n.Sends ids t op evt ∧ n'.channels t = (n.channels t).post evt := by
    intro ok n' h hok
    rcases h.channels t with hsame | ⟨evt, hevt, hpost⟩
    · exact .inl hsame
    · exact .inr ⟨evt, hok evt hevt, hpost⟩
  have hstream : ∀ evt, IsStream t evt → n.Sends ids t op evt := by
    rintro evt ⟨e, rfl⟩
    exact .stream e
  have hopen : ∀ evt, IsOpen ids n t evt → n.Sends ids t op evt := by
    rintro evt ⟨c, msg, hmem, rfl⟩
    exact .opened hmem
  cases op with
  | engine op =>
    refine .inl ?_
    show (n.engine names ids op).channels t = _
    unfold engine
    split <;> rfl
  | deliver =>
    show n.deliver.channels t = _ ∨ (∃ evt, _ ∧ n.deliver.channels t = _) ∨ _
    unfold deliver
    split
    · exact .inl rfl
    rename_i t' change rest hdrop
    split
    · exact .inl rfl
    split
    · by_cases ht : t = t'
      · subst ht
        exact .inr (.inl ⟨.peerChange change, .change hdrop, onChannel_self t _ n⟩)
      · exact .inl (onChannel_of_ne ht _ n)
    · exact .inl rfl
  | enqueueStream c s => exact (hfeeds (.enqueueStream c s n) hstream).imp_right .inl
  | chunk c st => exact (hfeeds (.chunk c st n) hstream).imp_right .inl
  | sessOpen c id msg => exact (hfeeds (.sessOpen c id msg n) hstream).imp_right .inl
  | sessSend c t' msg => exact (hfeeds (.sessSend c t' msg n) hopen).imp_right .inl
  | sessQuit c t' msg => exact (hfeeds (.sessQuit c t' msg n) hstream).imp_right .inl
  | channel t' op' =>
    show (n.channel sch luck t' op').channels t = _ ∨
      (∃ evt, _ ∧ (n.channel sch luck t' op').channels t = _) ∨
      ∃ op'', _ ∧ _ ∧ (n.channel sch luck t' op').channels t = _
    by_cases ht : t = t'
    · subst ht
      cases hreplaced : replaced op' with
      | true =>
        refine .inl ?_
        rw [channel, if_pos hreplaced]
      | false =>
        refine .inr (.inr ⟨op', rfl, hreplaced, ?_⟩)
        rw [channel, if_neg (Bool.eq_false_iff.mp hreplaced)]
        exact onChannel_self t (·.step (sch t) (luck t) op') n
    · refine .inl ?_
      unfold channel
      split
      · rfl
      · exact onChannel_of_ne ht (·.step (sch t') (luck t') op') n

/-- No channel handles a CHUNK stream of a peer that is not its member. -/
def TakesFromMembers (n : Node S) : NodeOp S → Prop
  | .channel t op => (n.channels t).TakesFromMembers op
  | _ => True

theorem cleared_channels_step {op : NodeOp S} (hn : ∀ t, (n.channels t).Cleared)
    (hok : n.TakesFromMembers op) (t : ChannelRef) : ((n.step sch luck names ids op).channels t).Cleared := by
  rcases channels_step sch luck names ids n op t with hsame | ⟨evt, _, hpost⟩ | ⟨op', rfl, _, hstep⟩
  · rw [hsame]
    exact hn t
  · rw [hpost]
    unfold post
    split
    · exact fun p hp m s hwait => hn t p hp m s hwait
    · exact hn t
  · rw [hstep]
    exact cleared_step (sch t) (luck t) (hn t) hok

/-- **A peer that was unbound leaves no stream in the channel**, in every run in which no channel handles a
CHUNK stream of a peer that is not its member: neither a parked group nor a read queue holds one. -/
theorem unbound_peer_leaves_no_stream (sch : ChannelRef → Scheme S C R P)
    (luck : ChannelRef → Nat → Chance) (names : ChannelRef → ChannelID) (ids : ConnRef → PeerID)
    (subs : ChannelRef → Option Subscription) (ops : List (NodeOp S))
    (hok : Along (step sch luck names ids) TakesFromMembers (init names ids subs) ops) (t : ChannelRef)
    (p : PeerID) (hp : ((exec (step sch luck names ids) (init names ids subs) ops).channels t).members.get p
      = none) (m : MessageID) (s : InStream) :
    ¬ ((exec (step sch luck names ids) (init names ids subs) ops).channels t).Waiting m p s := by
  have hinv : ∀ t, ((exec (step sch luck names ids) (init names ids subs) ops).channels t).Cleared := by
    refine hok.invariant (I := fun n : Node S => ∀ t, (n.channels t).Cleared)
      (fun n op hn h => cleared_channels_step hn h) fun t p _ m s hwait => ?_
    rcases hwait with ⟨c, ⟨group, hget, _⟩, _⟩ | ⟨pr, ⟨sess, hget, _⟩, _⟩
    · cases hget
    · cases hget
  exact hinv t p hp m s

instance (x : Channel S) (op : Op S) : Decidable (x.TakesFromMembers op) :=
  inferInstanceAs (Decidable (_ = true))

instance (n : Node S) (op : NodeOp S) : Decidable (n.TakesFromMembers op) := by
  unfold TakesFromMembers
  cases op <;> dsimp only <;> infer_instance

/-- A CHUNK stream arrives, and its reader finds the channel. -/
def chunkRouted : List (NodeOp Rs.State) :=
  subscribed ++ [.enqueueStream 0 1, .chunk 0 .start, .chunk 0 .pop, .chunk 0 .acquire,
    .chunk 0 (.route ⟨1, .header⟩ ⟨"c", "m", [1], 4⟩)]

/-- The reader sends the stream to the channel. -/
def chunkSends : List (NodeOp Rs.State) :=
  [.chunk 0 (.send ⟨1, .routed 0 ⟨"a", "m", [1], 4, 1⟩⟩), .chunk 0 (.recheck ⟨1, .sent 0⟩), .channel 0 .next]

/-- The remote unsubscribes, and the channel is told. -/
def unsubscribes : List (NodeOp Rs.State) :=
  [.engine (.unsubscribed 0 "c"), .deliver, .channel 0 .next]

theorem unbound_peer_leaves_no_stream_parked :
    (((duoRun (chunkRouted ++ chunkSends)).channels 0).parked.get "m").isSome ∧
      ¬ ((duoRun (chunkRouted ++ chunkSends ++ unsubscribes)).channels 0).Waiting "m" "a" 1 := by
  have hparked : (((duoRun (chunkRouted ++ chunkSends)).channels 0).parked.get "m").isSome := by
    decide +kernel
  have hok : Along (step (fun _ => Rs.copiesScheme) (fun _ => storedChance) duoNames duoIDs)
      TakesFromMembers duoInit (chunkRouted ++ chunkSends ++ unsubscribes) := by
    decide +kernel
  have hmember : ((duoRun (chunkRouted ++ chunkSends ++ unsubscribes)).channels 0).members.get "a" =
      none := by
    decide +kernel
  refine ⟨hparked, ?_⟩
  unfold duoRun duoInit at hmember ⊢
  exact unbound_peer_leaves_no_stream _ _ _ _ _ _ hok 0 "a" hmember "m" 1

/-- The reader finds the channel before the remote unsubscribes and sends after it: the channel, which has
handled the unbinding and has nothing left to handle, parks the stream of a peer that is no member. -/
theorem stream_parked_after_unbind :
    let n := duoRun (chunkRouted ++ unsubscribes ++ chunkSends)
    let x := n.channels 0
    x.members.get "a" = none ∧ (x.parked.get "m").map (·.streams.map fun c => (c.peerID, c.stream)) =
      some [("a", 1)] ∧ x.world.inbox.length = 0 ∧ n.engineFree = true ∧ (n.intake 0).readers = [] ∧
      n.sys.engine.subscribes 0 "c" = false := by
  decide +kernel

/-! ## No stream is lost at the end -/

/-- Where a stream that was given to the connection `c` is. -/
inductive Placed (n : Node S) (c : ConnRef) (s : InStream) : Prop where
  | queued (h : s ∈ (n.intake c).queue)
  | accepting (h : (n.intake c).accepting = some s)
  /-- A reader has it, or has sent it to a channel whose final drain was over. -/
  | reader (rd : ChunkReader) (hrd : rd ∈ (n.intake c).readers) (hs : rd.stream = s)
      (hlate : ∀ t, rd.phase = .sent t → (n.channels t).phase = .stopped)
  | channel (t : ChannelRef) (ht : t ∈ n.added) (h : (n.channels t).Holds s)
  | cancelled (code : Code) (h : (s, code) ∈ n.cancelled)
  | read (h : s ∈ n.read)

/-- Every stream that was given is somewhere; a closed FIFO is empty; a reader sends the stream it has, to a
channel that was added. -/
structure StreamInv (n : Node S) : Prop where
  placed : ∀ c s, (c, s) ∈ n.given → n.Placed c s
  closed : ∀ c, (n.intake c).closed = true → (n.intake c).queue = []
  routed : ∀ c, ∀ rd ∈ (n.intake c).readers, ∀ t e, rd.phase = .routed t e → e.stream = rd.stream ∧ t ∈ n.added
  ends : ∀ t, (n.channels t).EndsInOrder

variable {n' : Node S} {c : ConnRef} {s : InStream}

/-- What a step may do without losing a stream. -/
structure Carries (n n' : Node S) : Prop where
  added : n.added ⊆ n'.added
  cancelled : n.cancelled ⊆ n'.cancelled
  read : n.read ⊆ n'.read
  channels : ∀ t, (n.channels t).Goes n'.read (n'.channels t)

/-- A stream that is past the connection stays where it is, or is read to its end; what becomes of one
that the connection still has is asked for. -/
theorem Placed.carry (h : n.Placed c s) (hstep : Carries n n') (hqueue : s ∈ (n.intake c).queue → n'.Placed c s)
    (haccepting : (n.intake c).accepting = some s → n'.Placed c s)
    (hreader : ∀ rd ∈ (n.intake c).readers, rd.stream = s →
      (∀ t, rd.phase = .sent t → (n.channels t).phase = .stopped) → n'.Placed c s) : n'.Placed c s := by
  cases h with
  | queued h => exact hqueue h
  | accepting h => exact haccepting h
  | reader rd hrd hs hlate => exact hreader rd hrd hs hlate
  | channel t ht h =>
    rcases (hstep.channels t).holds s h with h | h
    · exact .channel t (hstep.added ht) h
    · exact .read h
  | cancelled code h => exact .cancelled code (hstep.cancelled h)
  | read h => exact .read (hstep.read h)

/-- A step that leaves the connection's side alone. -/
theorem Placed.keep (h : n.Placed c s) (hstep : Carries n n') (hintake : n'.intake c = n.intake c) :
    n'.Placed c s := by
  apply h.carry hstep
  · intro hq
    exact .queued (hintake ▸ hq)
  · intro ha
    exact .accepting (hintake ▸ ha)
  · intro rd hrd hs hlate
    exact .reader rd (hintake ▸ hrd) hs fun t ht => (hstep.channels t).stopped (hlate t ht)

/-- A step that leaves all connections alone and is given no stream. -/
theorem StreamInv.aside (hn : StreamInv n) (hgiven : n'.given = n.given) (hintake : n'.intake = n.intake)
    (hcarries : Carries n n') : StreamInv n' := by
  refine ⟨fun c s hs => ?_, ?_, fun c rd hrd t e hphase => ?_, fun t => (hcarries.channels t).ends (hn.ends t)⟩
  · exact (hn.placed c s (hgiven ▸ hs)).keep hcarries (congrFun hintake c)
  · rw [hintake]
    exact hn.closed
  rw [hintake] at hrd
  obtain ⟨hstream, ht⟩ := hn.routed c rd hrd t e hphase
  exact ⟨hstream, hcarries.added ht⟩

/-- `n'` is `n` after a goroutine of `c` changed its side of the connection, and perhaps cancelled streams or
sent one to a channel. -/
structure Shifts (c : ConnRef) (f : Intake → Intake) (n n' : Node S) : Prop where
  given : n'.given = n.given
  added : n'.added = n.added
  read : n'.read = n.read
  channels : ∀ t, (n.channels t).Goes n'.read (n'.channels t)
  intake : n'.intake = (n.onIntake c f).intake
  cancelled : n.cancelled ⊆ n'.cancelled

theorem shifts_onIntake (c : ConnRef) (f : Intake → Intake) (n : Node S) : Shifts c f n (n.onIntake c f) :=
  ⟨rfl, rfl, rfl, fun _ => .refl _ _, rfl, Subset.refl _⟩

theorem shifts_cancel (c : ConnRef) (f : Intake → Intake) (s : InStream) (code : Code) (n : Node S) :
    Shifts c f n ((n.cancelRead s code).onIntake c f) :=
  ⟨rfl, rfl, rfl, fun _ => .refl _ _, rfl, fun _ h => mem_append_left _ h⟩

/-- A step on the connection `c`: each stream of `c` stays where it is, or its new place is asked for. -/
theorem StreamInv.shift {f : Intake → Intake} (hn : StreamInv n) (h : Shifts c f n n')
    (hqueue : ∀ s ∈ (n.intake c).queue, s ∈ (f (n.intake c)).queue ∨ n'.Placed c s)
    (haccepting : ∀ s, (n.intake c).accepting = some s → (f (n.intake c)).accepting = some s ∨ n'.Placed c s)
    (hreader : ∀ rd ∈ (n.intake c).readers, (∀ t, rd.phase = .sent t → (n.channels t).phase = .stopped) →
      rd ∈ (f (n.intake c)).readers ∨ n'.Placed c rd.stream)
    (hclosed : (f (n.intake c)).closed = true → (f (n.intake c)).queue = [])
    (hrouted : ∀ rd ∈ (f (n.intake c)).readers, ∀ t e, rd.phase = .routed t e →
      e.stream = rd.stream ∧ t ∈ n.added) : StreamInv n' := by
  have hself : n'.intake c = f (n.intake c) := by
    rw [h.intake, onIntake_self]
  have hother : ∀ k, k ≠ c → n'.intake k = n.intake k := fun k hk => by
    rw [h.intake, onIntake_of_ne hk]
  have hcarries : Carries n n' := ⟨fun _ hs => h.added ▸ hs, h.cancelled, fun _ hs => h.read ▸ hs, h.channels⟩
  refine ⟨fun k s hs => ?_, fun k hk => ?_, fun k rd hrd t e hphase => ?_, fun t => (h.channels t).ends (hn.ends t)⟩
  · have hold := hn.placed k s (h.given ▸ hs)
    by_cases hkc : k = c
    · subst hkc
      apply hold.carry hcarries
      · exact fun hs => (hqueue s hs).elim (fun hs => .queued (hself ▸ hs)) id
      · exact fun hs => (haccepting s hs).elim (fun hs => .accepting (hself ▸ hs)) id
      · rintro rd hrd rfl hlate
        refine (hreader rd hrd hlate).elim (fun hrd => .reader rd (hself ▸ hrd) rfl fun t ht => ?_) id
        exact (h.channels t).stopped (hlate t ht)
    · exact hold.keep hcarries (hother k hkc)
  · by_cases hkc : k = c
    · subst hkc
      rw [hself] at hk ⊢
      exact hclosed hk
    · rw [hother k hkc] at hk ⊢
      exact hn.closed k hk
  · rw [h.added]
    by_cases hkc : k = c
    · subst hkc
      exact hrouted rd (hself ▸ hrd) t e hphase
    · exact hn.routed k rd (hother k hkc ▸ hrd) t e hphase

variable {rd : ChunkReader} {phase : ChunkPhase}

/-- A reader that goes on keeps its stream. -/
theorem Shifts.reader (h : Shifts c (·.setReader rd phase) n n') (hrd : rd ∈ (n.intake c).readers)
    (hlate : ∀ t, phase = .sent t → (n'.channels t).phase = .stopped) : n'.Placed c rd.stream := by
  refine .reader { rd with phase := phase } ?_ rfl hlate
  rw [h.intake, onIntake_self]
  exact mem_map.mpr ⟨rd, hrd, if_pos rfl⟩

section

variable (hn : StreamInv n)
include hn

/-- A reader goes on, with its stream in hand or not. -/
theorem StreamInv.setReader (h : Shifts c (·.setReader rd phase) n n') (hplaced : n'.Placed c rd.stream)
    (hphase : ∀ t e, phase = .routed t e → e.stream = rd.stream ∧ t ∈ n.added) : StreamInv n' := by
  refine hn.shift h (fun _ => .inl) (fun _ => .inl) (fun rd' hrd' _ => ?_) (hn.closed c) fun rd' hrd' t e he => ?_
  · by_cases heq : rd' = rd
    · exact .inr (heq ▸ hplaced)
    · exact .inl (mem_map.mpr ⟨rd', hrd', if_neg heq⟩)
  · obtain ⟨old, hold, rfl⟩ := mem_map.mp hrd'
    by_cases heq : old = rd
    · rw [if_pos heq] at he ⊢
      exact hphase t e he
    · rw [if_neg heq] at he ⊢
      exact hn.routed c old hold t e he

/-- A reader ends and its stream is cancelled, or is with a channel. -/
theorem StreamInv.endReader (h : Shifts c (·.endReader rd) n n')
    (hdone : (∀ t, rd.phase = .sent t → (n.channels t).phase = .stopped) → n'.Placed c rd.stream) : StreamInv n' := by
  refine hn.shift h (fun _ => .inl) (fun _ => .inl) (fun rd' hrd' hlate => ?_) (hn.closed c)
    fun rd' hrd' => hn.routed c rd' (mem_of_mem_erase hrd')
  by_cases heq : rd' = rd
  · subst heq
    exact .inr (hdone hlate)
  · exact .inl ((mem_erase_of_ne heq).mpr hrd')

/-- A reader sends its stream: the channel takes it, unless its final drain is over. -/
theorem StreamInv.send {t : ChannelRef} {e : ChunkStream}
    (hrd : rd ∈ (n.intake c).readers) (hstream : e.stream = rd.stream) (ht : t ∈ n.added)
    (hroom : (n.channels t).world.inbox.length < channelInboxCap) :
    StreamInv ((n.onChannel t (·.post (.chunkStream e))).onIntake c (·.setReader rd (.sent t))) := by
  have hchannel : (n.onChannel t (·.post (.chunkStream e))).channels t = (n.channels t).post (.chunkStream e) :=
    onChannel_self t _ n
  have hshift : Shifts c (·.setReader rd (.sent t)) n
      ((n.onChannel t (·.post (.chunkStream e))).onIntake c (·.setReader rd (.sent t))) := by
    refine ⟨rfl, rfl, rfl, fun t' => ?_, rfl, Subset.refl _⟩
    show Goes _ _ ((n.onChannel t (·.post (.chunkStream e))).channels t')
    by_cases ht' : t' = t
    · subst ht'
      rw [hchannel]
      exact goes_post _ _ _
    · rw [onChannel_of_ne ht']
      exact .refl _ _
  rw [post, if_pos hroom] at hchannel
  refine hn.setReader hshift ?_ fun _ _ hphase => by cases hphase
  by_cases hstop : (n.channels t).phase = .stopped
  · refine hshift.reader hrd fun t' ht' => ?_
    cases ht'
    exact (hshift.channels t).stopped hstop
  · refine .channel t ht (.inl ⟨?_, e, ?_, hstream⟩)
    · show ((n.onChannel t (·.post (.chunkStream e))).channels t).phase ≠ .stopped
      rw [hchannel]
      exact hstop
    · show _ ∈ ((n.onChannel t (·.post (.chunkStream e))).channels t).world.inbox
      rw [hchannel]
      exact mem_append_right _ (mem_singleton.mpr rfl)

theorem StreamInv.readerStep (hengine : EngineInv names ids n)
    (hrd : rd ∈ (n.intake c).readers) (st : ChunkStep) : StreamInv (n.readerStep c st rd) := by
  -- the stream of a reader that cancels it
  have hcancel : ∀ code, StreamInv ((n.cancelRead rd.stream code).onIntake c (·.endReader rd)) := by
    intro code
    refine hn.endReader (shifts_cancel c _ rd.stream code n) fun _ => ?_
    exact .cancelled code (mem_append_right _ (mem_singleton.mpr rfl))
  unfold Node.readerStep
  split
  · exact hcancel _
  · rename_i frame hphase _
    split
    · exact hn
    unfold route
    split
    · rename_i l t _ hinbox
      have ht : t ∈ n.added := by
        obtain ⟨p, hp, hget⟩ := Option.bind_eq_some_iff.mp hinbox
        obtain ⟨_, hmem, _⟩ := hengine.knows.inboxes c p hp _ t hget
        exact hmem
      refine hn.setReader (shifts_onIntake c _ n) ((shifts_onIntake c _ n).reader hrd fun t' ht' => ?_) fun t' e he => ?_
      · cases ht'
      · cases he
        exact ⟨rfl, ht⟩
    · exact hcancel _
  · rename_i t e _ hphase
    split
    · rename_i hroom
      obtain ⟨hstream, ht⟩ := hn.routed c rd hrd t e hphase
      exact hn.send hrd hstream ht hroom
    · exact hn
  · split
    · exact hcancel _
    · exact hn
  · rename_i t _ hphase
    split
    · exact hcancel _
    rename_i hctx
    refine hn.endReader (shifts_onIntake c _ n) fun hlate => ?_
    -- the channel would have ended, and with it its context
    refine absurd (hn.ends t ?_) hctx
    rw [hlate t hphase]
    nofun
  · exact hn

theorem StreamInv.closeStep :
    StreamInv (((n.intake c).queue.foldl (fun n s => n.cancelRead s .unspecified) n).onIntake c fun i =>
      { i with queue := [], closed := true }) := by
  generalize hm : (n.intake c).queue.foldl (fun n s => n.cancelRead s .unspecified) n = m
  have hsame : (m.given, m.added, m.read, m.channels, m.intake) =
      (n.given, n.added, n.read, n.channels, n.intake) := by
    rw [← hm]
    exact foldl_same (f := fun (n : Node S) s => n.cancelRead s .unspecified)
      (fun n : Node S => (n.given, n.added, n.read, n.channels, n.intake)) (fun _ _ => rfl) _ n
  simp only [Prod.mk.injEq] at hsame
  obtain ⟨hgiven, hadded, hread, hchannels, hintake⟩ := hsame
  have hcancelled : n.cancelled ⊆ m.cancelled := by
    rw [← hm]
    exact foldl_rel (r := fun n n' : Node S => n.cancelled ⊆ n'.cancelled) (fun _ => Subset.refl _)
      (fun h h' => Subset.trans h h') (fun _ _ => fun _ h => mem_append_left _ h) _ n
  have hall : ∀ s ∈ (n.intake c).queue, (s, Code.unspecified) ∈ m.cancelled := by
    intro s hs
    rw [← hm]
    exact foldl_visits (f := fun (n : Node S) s => n.cancelRead s .unspecified)
      (p := fun s (n : Node S) => (s, Code.unspecified) ∈ n.cancelled)
      (fun _ _ => mem_append_right _ (mem_singleton.mpr rfl))
      (fun _ _ _ h => mem_append_left _ h) hs n
  have hshift : Shifts c (fun i => { i with queue := [], closed := true }) n
      (m.onIntake c fun i => { i with queue := [], closed := true }) := by
    refine ⟨hgiven, hadded, hread, fun t => ?_, ?_, hcancelled⟩
    · show Goes _ _ (m.channels t)
      rw [hchannels]
      exact .refl _ _
    · unfold onIntake
      rw [hintake]
  exact hn.shift hshift (fun s hs => .inr (.cancelled .unspecified (hall s hs))) (fun _ => .inl)
    (fun _ hrd _ => .inl hrd) (fun _ => rfl) (hn.routed c)

theorem StreamInv.chunkStep (hengine : EngineInv names ids n) (st : ChunkStep) : StreamInv (n.chunk c st) := by
  have hreader : ∀ {rd : ChunkReader}, StreamInv (if rd ∈ (n.intake c).readers then n.readerStep c st rd
      else n) := by
    intro rd
    split
    · rename_i hrd
      exact hn.readerStep hengine hrd st
    · exact hn
  unfold Node.chunk
  cases st with
  | start | endLoop =>
    dsimp only
    split
    · exact hn.shift (shifts_onIntake c _ n) (fun _ => .inl) (fun _ => .inl) (fun _ hrd _ => .inl hrd) (hn.closed c)
        (hn.routed c)
    · exact hn
  | pop =>
    dsimp only
    split
    · exact hn
    rename_i s rest hqueue
    split
    · rename_i hready
      refine hn.shift (shifts_onIntake c _ n) (fun s' hs' => ?_) (fun s' hs' => ?_) (fun _ hrd _ => .inl hrd)
        (fun hclosed => ?_) (hn.routed c)
      · rw [hqueue] at hs'
        rcases mem_cons.mp hs' with rfl | hs'
        · refine .inr (.accepting ?_)
          rw [onIntake_self]
        · exact .inl hs'
      · -- the accept loop takes a stream only when its hands are empty
        simp only [hs', Option.isNone_some, Bool.and_false, Bool.false_and] at hready
        cases hready
      · have hnil := hn.closed c hclosed
        rw [hqueue] at hnil
        cases hnil
    · exact hn
  | acquire =>
    dsimp only
    split
    · exact hn
    rename_i s haccepting
    split
    · refine hn.shift (shifts_onIntake c _ n) (fun _ => .inl) (fun s' hs' => .inr ?_)
        (fun _ hrd _ => .inl (mem_append_left _ hrd)) (hn.closed c) fun rd hrd t e he => ?_
      · rw [haccepting] at hs'
        cases hs'
        refine .reader { stream := s } ?_ rfl fun t ht => ?_
        · rw [onIntake_self]
          exact mem_append_right _ (mem_singleton.mpr rfl)
        · cases ht
      · rcases mem_append.mp hrd with hrd | hrd
        · exact hn.routed c rd hrd t e he
        · rw [mem_singleton.mp hrd] at he
          cases he
    · exact hn
  | refuse =>
    dsimp only
    split
    · exact hn
    rename_i s haccepting
    split
    · refine hn.shift (shifts_cancel c _ s .unspecified n) (fun _ => .inl) (fun s' hs' => .inr ?_)
        (fun _ hrd _ => .inl hrd) (hn.closed c) (hn.routed c)
      rw [haccepting] at hs'
      cases hs'
      exact .cancelled .unspecified (mem_append_right _ (mem_singleton.mpr rfl))
    · exact hn
  | close =>
    dsimp only
    split
    · exact hn.closeStep
    · exact hn
  | fail rd code | route rd frame | send rd | giveUp rd | recheck rd => exact hreader

theorem StreamInv.enqueueStep (c : ConnRef) (s : InStream) : StreamInv (n.enqueueStream c s) := by
  unfold enqueueStream
  split
  · exact hn
  dsimp only
  split
  · refine ⟨fun k s' hs' => ?_, hn.closed, hn.routed, hn.ends⟩
    rcases mem_append.mp hs' with hs' | hs'
    · refine (hn.placed k s' hs').keep ⟨Subset.refl _, fun _ h => ?_, Subset.refl _, fun _ => .refl _ _⟩ rfl
      exact mem_append_left _ h
    · cases mem_singleton.mp hs'
      exact .cancelled .unspecified (mem_append_right _ (mem_singleton.mpr rfl))
  rename_i hopen
  have hpush : StreamInv (n.onIntake c fun i => { i with queue := i.queue ++ [s] }) := by
    refine hn.shift (shifts_onIntake c _ n) (fun _ hs => .inl (mem_append_left _ hs)) (fun _ => .inl)
      (fun _ hrd _ => .inl hrd) (fun hclosed => ?_) (hn.routed c)
    simp only [Bool.not_eq_true, Bool.or_eq_false_iff] at hopen
    exact absurd hclosed (Bool.eq_false_iff.mp hopen.2)
  refine ⟨fun k s' hs' => ?_, hpush.closed, hpush.routed, hpush.ends⟩
  rcases mem_append.mp hs' with hs' | hs'
  · exact (hpush.placed k s' hs').keep ⟨Subset.refl _, Subset.refl _, Subset.refl _, fun _ => .refl _ _⟩ rfl
  cases mem_singleton.mp hs'
  refine .queued ?_
  show s ∈ ((n.onIntake c fun i => { i with queue := i.queue ++ [s] }).intake c).queue
  rw [onIntake_self]
  exact mem_append_right _ (mem_singleton.mpr rfl)

end

/-- A step that is given no stream and touches no connection's side. -/
structure Beside (n n' : Node S) : Prop where
  given : n'.given = n.given
  intake : n'.intake = n.intake
  cancelled : n'.cancelled = n.cancelled
  added : n.added ⊆ n'.added
  read : n.read ⊆ n'.read

theorem Beside.refl (n : Node S) : Beside n n := ⟨rfl, rfl, rfl, Subset.refl _, Subset.refl _⟩

theorem beside_engine (op : EngineOp) (n : Node S) : Beside n (n.engine names ids op) := by
  unfold engine
  split
  · exact ⟨rfl, rfl, rfl, fun _ h => mem_append_left _ h, Subset.refl _⟩
  · exact .refl n

theorem beside_deliver (n : Node S) : Beside n n.deliver := by
  unfold deliver
  split
  · exact .refl n
  split
  · exact ⟨rfl, rfl, rfl, Subset.refl _, Subset.refl _⟩
  split
  · exact ⟨rfl, rfl, rfl, Subset.refl _, Subset.refl _⟩
  · exact .refl n

theorem beside_sessOpen (c : ConnRef) (id : ChannelID) (msg : SessOpen) (n : Node S) :
    Beside n (n.sessOpen c id msg) := by
  unfold sessOpen
  split <;> exact ⟨rfl, rfl, rfl, Subset.refl _, Subset.refl _⟩

theorem beside_sessSend (c : ConnRef) (t : ChannelRef) (msg : SessOpen) (n : Node S) :
    Beside n (n.sessSend ids c t msg) := by
  unfold sessSend
  split
  · exact ⟨rfl, rfl, rfl, Subset.refl _, Subset.refl _⟩
  · exact .refl n

theorem beside_sessQuit (c : ConnRef) (t : ChannelRef) (msg : SessOpen) (n : Node S) :
    Beside n (n.sessQuit c t msg) := by
  unfold sessQuit
  split
  · exact ⟨rfl, rfl, rfl, Subset.refl _, Subset.refl _⟩
  · exact .refl n

theorem StreamInv.beside (hn : StreamInv n) {op : NodeOp S}
    (h : Beside n (n.step sch luck names ids op)) (hreads : ∀ t op', op = .channel t op' →
      reads (n.channels t) op' ⊆ (n.step sch luck names ids op).read) : StreamInv (n.step sch luck names ids op) := by
  refine hn.aside h.given h.intake ⟨h.added, ?_, h.read, fun t => ?_⟩
  · rw [h.cancelled]
    exact Subset.refl _
  rcases channels_step sch luck names ids n op t with hsame | ⟨evt, _, hpost⟩ | ⟨op', hop, _, hstep⟩
  · rw [hsame]
    exact .refl _ _
  · rw [hpost]
    exact goes_post _ _ _
  · rw [hstep]
    exact goes_step (sch t) (luck t) op' _ (hreads t op' hop)

/-- **One step** of a node loses no stream. -/
theorem StreamInv.step (hn : StreamInv n) (hengine : EngineInv names ids n) (op : NodeOp S) :
    StreamInv (n.step sch luck names ids op) := by
  cases op with
  | engine op => exact hn.beside (beside_engine op n) nofun
  | deliver => exact hn.beside (beside_deliver n) nofun
  | enqueueStream c s => exact hn.enqueueStep c s
  | chunk c st => exact hn.chunkStep hengine st
  | sessOpen c id msg => exact hn.beside (beside_sessOpen c id msg n) nofun
  | sessSend c t msg => exact hn.beside (beside_sessSend c t msg n) nofun
  | sessQuit c t msg => exact hn.beside (beside_sessQuit c t msg n) nofun
  | channel t op =>
    cases hreplaced : replaced op with
    | true =>
      have hsame : n.step sch luck names ids (.channel t op) = n := if_pos hreplaced
      rw [hsame]
      exact hn
    | false =>
      have hnew : n.step sch luck names ids (.channel t op) =
          { n.onChannel t (·.step (sch t) (luck t) op) with
            read := n.read ++ reads (n.channels t) op } := by
        show n.channel sch luck t op = _
        unfold channel
        rw [if_neg (Bool.eq_false_iff.mp hreplaced)]
      refine hn.beside ?_ ?_
      · rw [hnew]
        exact ⟨rfl, rfl, rfl, Subset.refl _, fun _ h => mem_append_left _ h⟩
      rintro t' op' heq
      cases heq
      rw [hnew]
      exact fun _ h => mem_append_right _ h

theorem streamInv_init (subs : ChannelRef → Option Subscription) : StreamInv (init names ids subs : Node S) :=
  ⟨fun _ _ h => absurd h not_mem_nil, fun _ _ => rfl, fun _ _ h => absurd h not_mem_nil, fun _ h => absurd rfl h⟩

/-- **Every CHUNK stream is read to the end of its DATA frame or cancelled.**  In every run, once the channels
that were added have stopped and the goroutines of their sessions have ended, and once a connection is closed
and its goroutines have ended, this holds of each stream that was given to the connection. -/
theorem stream_read_or_cancelled (sch : ChannelRef → Scheme S C R P) (luck : ChannelRef → Nat → Chance)
    (names : ChannelRef → ChannelID) (ids : ConnRef → PeerID) (subs : ChannelRef → Option Subscription)
    (ops : List (NodeOp S)) :
    let n := exec (step sch luck names ids) (init names ids subs) ops
    (∀ t ∈ n.added, (n.channels t).phase = .stopped ∧ (n.channels t).world.readers = []) →
    ∀ c, (n.intake c).closed = true → (n.intake c).accepting = none → (n.intake c).readers = [] →
    ∀ s, (c, s) ∈ n.given →
      s ∈ n.read ∨ (∃ code, (s, code) ∈ n.cancelled) ∨ ∃ t code, (s, code) ∈ (n.channels t).world.cancelReads := by
  intro n hchannels c hclosed haccepting hreaders s hs
  have hn : StreamInv n := by
    have hboth : NodeInv names ids n ∧ StreamInv n := by
      refine exec_invariant (I := fun n : Node S => NodeInv names ids n ∧ StreamInv n) _
        (fun n op hn => ?_) ⟨nodeInv_init subs, streamInv_init subs⟩ ops
      exact ⟨hn.1.step op, hn.2.step hn.1.engine op⟩
    exact hboth.2
  cases hn.placed c s hs with
  | queued h =>
    rw [hn.closed c hclosed] at h
    cases h
  | accepting h =>
    rw [haccepting] at h
    cases h
  | reader rd hrd _ _ =>
    rw [hreaders] at hrd
    cases hrd
  | channel t ht h =>
    obtain ⟨hstopped, hidle⟩ := hchannels t ht
    rcases h with ⟨hphase, _⟩ | ⟨hrun, _⟩ | ⟨rd, hrd, _⟩ | ⟨code, hcode⟩
    · exact absurd hstopped hphase
    · rw [hstopped] at hrun
      cases hrun
    · rw [hidle] at hrd
      cases hrd
    · exact .inr (.inr ⟨t, code, hcode⟩)
  | cancelled code h => exact .inr (.inl ⟨code, h⟩)
  | read h => exact .inl h

/-- The channel is stopped while the reader of a stream still holds its handle; the stream then lands in the
inbox of a channel that has drained it, and its reader cancels it. -/
def stopsBeforeSend : List (NodeOp Rs.State) :=
  chunkRouted ++ [.channel 0 .stop, .channel 0 .closeAll, .channel 0 .finish,
    .chunk 0 (.send ⟨1, .routed 0 ⟨"a", "m", [1], 4, 1⟩⟩), .chunk 0 (.recheck ⟨1, .sent 0⟩),
    .engine (.cancel 0), .chunk 0 .endLoop, .chunk 0 .close]

theorem stream_read_or_cancelled_late :
    let n := duoRun stopsBeforeSend
    (n.channels 0).world.inbox.length = 1 ∧ ((1 : InStream) ∈ n.read ∨
      (∃ code, ((1 : InStream), code) ∈ n.cancelled) ∨
        ∃ t code, ((1 : InStream), code) ∈ (n.channels t).world.cancelReads) := by
  have hinbox : ((duoRun stopsBeforeSend).channels 0).world.inbox.length = 1 := by decide +kernel
  have hstopped : ∀ t ∈ (duoRun stopsBeforeSend).added,
      ((duoRun stopsBeforeSend).channels t).phase = .stopped ∧
        ((duoRun stopsBeforeSend).channels t).world.readers = [] := by
    decide +kernel
  have hclosed : ((duoRun stopsBeforeSend).intake 0).closed = true := by decide +kernel
  have haccepting : ((duoRun stopsBeforeSend).intake 0).accepting = none := by decide +kernel
  have hreaders : ((duoRun stopsBeforeSend).intake 0).readers = [] := by decide +kernel
  have hgiven : (0, 1) ∈ (duoRun stopsBeforeSend).given := by decide +kernel
  refine ⟨hinbox, ?_⟩
  unfold duoRun duoInit at *
  exact stream_read_or_cancelled _ _ _ _ _ stopsBeforeSend hstopped 0 hclosed haccepting hreaders 1 hgiven

end Node

end EthP2P.Broadcast
