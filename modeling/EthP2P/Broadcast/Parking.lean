/-
# EthP2P.Broadcast.Parking — parked chunks and sessions exclude each other

Chunks of a message without a session are parked until one is opened (`handleChunk`).  A relay session takes
the parked chunks of its message when it is created; a session that is disposed takes them with it.  A local
publication does neither if it finds no session to replace: its session then lives beside the parked group
(`published_beside_parked`), whose streams keep their credit until the group expires.

`parked_without_session` is the invariant, under the condition that no publication is handled while chunks of
its message are parked.
-/
import EthP2P.Broadcast.Custody

namespace EthP2P.Broadcast

open Lib Wire

variable {S C R P : Type}

namespace Channel

/-- Apart from `skip`, no message has both a session and parked chunks. -/
def ApartBut (skip : Option MessageID) (x : Channel S) : Prop :=
  ∀ m, some m ≠ skip → (x.sessions.get m).isSome → x.parked.get m = none

/-- No message has both a session and parked chunks. -/
abbrev Apart (x : Channel S) : Prop := ApartBut none x

variable {x : Channel S} {m : MessageID} {sess : Session S}

theorem ApartBut.shrinks {y : Channel S} {skip : Option MessageID} (hx : x.ApartBut skip)
    (h : Shrinks x y) : y.ApartBut skip :=
  fun m hm hsome => h.parked m (hx m hm (h.sessions m hsome))

variable (sch : Scheme S C R P) (luck : Nat → Chance)

/-! ## The handlers that make one -/

theorem ApartBut.begin {skip : Option MessageID} (hx : x.ApartBut skip)
    (h : some sess.messageID = skip ∨ x.parked.get sess.messageID = none) : (x.begin sess).ApartBut skip := by
  intro m hm hsome
  show x.parked.get m = none
  rw [begin_sessions] at hsome
  split at hsome
  · rename_i hself
    rw [hself] at hm ⊢
    exact h.resolve_left hm
  · exact hx m hm hsome

theorem shrinks_flushParked (m : MessageID) (x : Channel S) :
    Shrinks x (x.flushParked sch m) ∧ (x.flushParked sch m).parked.get m = none := by
  unfold flushParked
  split
  · rename_i hnone
    exact ⟨(Settles.refl x).toShrinks, hnone⟩
  rename_i group _
  refine ⟨⟨fun k h => ?_, fun k h => ?_⟩, ?_⟩
  · rwa [← foldl_same (fun x : Channel S => (x.sessions.get k).isSome) (fun x c => isSome_onSession m k _ x) _ x]
  · have hparked := foldl_same (f := fun (x : Channel S) (c : ChunkStream) => x.onSession m
      (Scope.handleChunkStream sch c.peerID c.chunkId c.dataLength c.stream)) (fun x : Channel S => x.parked)
      (fun x c => parked_onSession m _ x) group.streams x
    simp [hparked, h]
  · show (Map.del _ m).get m = none
    rw [Map.get_del, if_pos rfl]

/-- A new relay session takes the chunks that were parked for it. -/
theorem apart_createRelaySession {y : Channel S} {preambleBytes : Bytes} {p : PeerID}
    {routing : Bytes} (hx : x.Apart)
    (h : x.createRelaySession sch luck m preambleBytes p routing = .ok y) : y.Apart := by
  unfold createRelaySession at h
  split at h
  · cases h
  split at h
  · cases h
  rename_i strat _
  cases h
  -- until the last step the message of the new session is the exception
  have hskip : (x.onWorld World.turn).ApartBut (some m) := fun k _ hsome => hx k nofun hsome
  have hbegin : ((x.onWorld World.turn).begin
      ((x.onWorld World.turn).newSession m preambleBytes false strat)).ApartBut (some m) :=
    hskip.begin (.inl rfl)
  have hattach := hbegin.shrinks (settles_attachMembers sch luck m _).toShrinks
  generalize Channel.attachMembers sch luck m _ = u at hattach
  have hrouting : ∀ z : Channel S, Shrinks u z →
      ((z.flushParked sch m).observe (.sessionStarted m false)).Apart := by
    intro z hz k _ hsome
    obtain ⟨hflush, hnone⟩ := shrinks_flushParked sch m z
    by_cases hk : k = m
    · rw [hk]
      exact hnone
    · exact ((hattach.shrinks hz).shrinks hflush) k (fun h => hk (Option.some.inj h)) hsome
  split
  · exact hrouting u (Settles.refl u).toShrinks
  · exact hrouting _ (shrinks_onSession m _ u)

theorem apart_handleSessionOpen (hx : x.Apart) (p : PeerID) (msg : SessOpen) :
    (x.handleSessionOpen sch luck p msg).Apart := by
  unfold handleSessionOpen
  split
  · split
    · exact hx
    · exact hx.shrinks (shrinks_onSession _ _ x)
  split
  · rename_i y hy
    exact apart_createRelaySession sch luck hx hy
  · exact hx

/-- A chunk is parked only where there is no session. -/
theorem apart_handleChunk (hx : x.Apart) (e : ChunkStream) : (x.handleChunk sch e).Apart := by
  have hpark : x.sessions.get e.objectId = none → ∀ (group : ParkedGroup) (w : World S),
      ({ x with parked := x.parked.set e.objectId group, world := w } : Channel S).Apart := by
    intro hnone group w m hm hsome
    show (x.parked.set e.objectId group).get m = none
    rw [Map.get_set, if_neg]
    · exact hx m hm hsome
    rintro rfl
    replace hsome : (x.sessions.get e.objectId).isSome := hsome
    rw [hnone] at hsome
    cases hsome
  unfold handleChunk
  split
  · exact hx.shrinks (shrinks_onSession _ _ x)
  rename_i hnone
  split
  · split
    · exact hx
    · exact hpark hnone _ x.world
  · exact hpark hnone _ _

theorem apart_handlePublish (hx : x.Apart) (hm : x.parked.get m = none)
    (strategy : S) (preamble : Bytes) : (x.handlePublish sch luck m strategy preamble).Apart := by
  have hdispose := hx.shrinks (settles_disposeSession luck m .replaced x).toShrinks
  have hnone : (x.disposeSession luck m .replaced).parked.get m = none :=
    (settles_disposeSession luck m .replaced x).parked m hm
  have hbegin : ((x.disposeSession luck m .replaced).begin
      ((x.disposeSession luck m .replaced).newSession m preamble true strategy)).Apart :=
    hdispose.begin (.inr hnone)
  have hattach := hbegin.shrinks (settles_attachMembers sch luck m _).toShrinks
  have hdrain := hattach.shrinks (shrinks_onSession m (Scope.drainPolls sch luck) _)
  exact hdrain

/-! ## The invariant -/

/-- No publication is handled while chunks of its message are parked. -/
def PublishesUnparked (x : Channel S) (op : Op S) : Prop :=
  x.onDue (fun
    | .publish m _ _ => decide (x.parked.get m = none)
    | _ => true) op = true

theorem apart_handle {evt : Event S} (hx : x.Apart)
    (hevt : ∀ m strategy preamble, evt = .publish m strategy preamble → x.parked.get m = none) :
    (x.handle sch luck evt).Apart := by
  cases evt with
  | expiry => exact hx.shrinks (settles_expireDue luck x).toShrinks
  | readDone m | chunkData m p chunkID payload => exact hx.shrinks (shrinks_onSession m _ x)
  | chunkStream e => exact apart_handleChunk sch hx e
  | sessionOpen p msg => exact apart_handleSessionOpen sch luck hx p msg
  | peerChange e =>
    obtain ⟨p, ref⟩ := e
    cases ref with
    | some c => exact hx.shrinks (settles_handlePeerBound sch luck p c x).toShrinks
    | none => exact hx.shrinks (settles_handlePeerUnbound sch luck p x).1.toShrinks
  | publish m strategy preamble =>
    exact apart_handlePublish sch luck hx (hevt m strategy preamble rfl) strategy preamble
  | chunkSent m p handle err size sender | routingUpdate p m data => exact hx.shrinks (shrinks_onSession m _ x)
  | peerReconstructed m p =>
    exact (hx.shrinks (shrinks_onSession m _ x)).shrinks (settles_disposeIfIdle luck m _).toShrinks
  | peerSessionEnded m p c =>
    show (if x.members.get p ≠ some c then x else x.leave sch luck m p).Apart
    split
    · exact hx
    · exact hx.shrinks (settles_leave sch luck m p x).toShrinks
  | verifyResult m p chunkID payload verdict => exact hx.shrinks (shrinks_onSession m _ x)
  | decoded m payload sender => exact hx.shrinks (settles_handleDecoded luck m payload sender x).toShrinks

theorem apart_step (op : Op S) (hx : x.Apart) (hok : PublishesUnparked x op) : (x.step sch luck op).Apart := by
  by_cases hnext : op = .next
  · subst hnext
    show (x.next sch luck).Apart
    cases hdue : x.due with
    | none => rwa [next_of_none hdue]
    | some evt =>
      obtain ⟨rest, _, _, hhandle⟩ := next_of_some sch luck hdue
      rw [hhandle]
      refine apart_handle sch luck hx fun m strategy preamble hevt => ?_
      subst hevt
      simp only [PublishesUnparked, onDue, hdue, Option.all_some, decide_eq_true_eq] at hok
      exact hok
  · by_cases hclose : op = .closeAll
    · subst hclose
      exact hx.shrinks (settles_closeAll luck x).toShrinks
    · have hout := outside_step sch luck op hnext hclose x
      exact hx.shrinks ⟨fun _ h => hout.sessions ▸ h, fun _ h => hout.parked ▸ h⟩

/-- **No message has both a live session and parked chunks**, in any order of events in which no publication
of a message is handled while chunks of it are parked. -/
theorem parked_without_session (sch : Scheme S C R P) (luck : Nat → Chance) (channelID : ChannelID)
    (ids : ConnRef → PeerID) (sub : Option Subscription) (ops : List (Op S))
    (hok : Along (step sch luck) PublishesUnparked (init channelID ids sub) ops) (m : MessageID)
    (hm : ((exec (step sch luck) (init channelID ids sub) ops).sessions.get m).isSome) :
    (exec (step sch luck) (init channelID ids sub) ops).parked.get m = none := by
  have hinv : (exec (step sch luck) (init channelID ids sub) ops).Apart :=
    hok.invariant (fun x op hx h => apart_step sch luck op hx h) fun _ _ h => by cases h
  exact hinv m nofun hm

instance (x : Channel S) (op : Op S) : Decidable (PublishesUnparked x op) :=
  inferInstanceAs (Decidable (_ = true))

/-- A chunk waits for its session, which a peer then opens; the chunk is handed to it. -/
def parkedThenOpened : List (Op Rs.State) :=
  [.post (.peerChange ⟨"a", some 0⟩), .post (.chunkStream ⟨"a", "m", [1], 4, 1⟩), .next, .next,
    .post (.sessionOpen "a" ⟨"m", [1], []⟩), .next]

theorem parked_without_session_relay :
    ((pairRun (parkedThenOpened.take 4)).parked.get "m").isSome ∧ (pairRun parkedThenOpened).parked.get "m" = none := by
  have hok : Along (step Rs.copiesScheme storedChance) PublishesUnparked pairInit parkedThenOpened := by
    decide +kernel
  have hsome : ((pairRun parkedThenOpened).sessions.get "m").isSome := by
    decide +kernel
  refine ⟨by decide +kernel, ?_⟩
  unfold pairRun pairInit at hsome ⊢
  exact parked_without_session Rs.copiesScheme storedChance _ _ _ parkedThenOpened hok "m" hsome

/-- A chunk waits for its session when the message is published here: the session does not take it, and the
group stays. -/
theorem published_beside_parked :
    let x := pairRun [.post (.peerChange ⟨"a", some 0⟩), .post (.chunkStream ⟨"a", "m", [1], 4, 1⟩),
      .next, .next, .publish "m" [7, 8, 9], .next]
    (x.sessions.get "m").isSome ∧ ((x.parked.get "m").map (·.streams.map (·.stream))) = some [1] ∧
      x.world.inbox.length = 0 := by
  decide +kernel

end Channel

end EthP2P.Broadcast
