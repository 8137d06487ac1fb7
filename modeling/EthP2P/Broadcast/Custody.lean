/-
# EthP2P.Broadcast.Custody — where a channel keeps the CHUNK streams it was given

A channel that takes a CHUNK stream out of its inbox is responsible for it.  The stream waits, parked for a
session that does not exist yet or in the queue of a session whose readers are all busy (`Waiting`), or it
is settled: a reader has it, or it was cancelled (`Settled`).

`Passes` says of a handler that no stream is lost on its way and that none appears from nowhere.  Parked
chunks and sessions are meant to exclude each other: `parked_without_session` shows when they do.
-/
import EthP2P.Broadcast.Lifecycle

namespace EthP2P.Broadcast

open Lib Wire Scope World List

variable {S C R P : Type}

/-! ## The methods that leave the reads alone -/

namespace Scope

variable (sch : Scheme S C R P) (luck : Nat → Chance) (p : PeerID)

theorem reads_handlePeerAttached (c : ConnRef) (x : Scope S) : (x.handlePeerAttached sch luck c).reads = x.reads := by
  unfold handlePeerAttached
  split
  · rfl
  refine (quiet_drainPolls sch luck _).reads.trans ?_
  obtain ⟨routing, obs, hworld⟩ := join_world sch c x
  simp only [reads, join_sess, hworld]
  rfl

theorem reads_farewell (x : Scope S) : (x.farewell p).reads = x.reads := by
  unfold farewell
  split <;> rfl

theorem reads_handlePeerCompleted (x : Scope S) : (x.handlePeerCompleted sch p).reads = x.reads := by
  unfold handlePeerCompleted
  split
  · rfl
  split
  · rfl
  · exact (books_cancelOutbound p ⟨{ x.sess with peers := _ }, x.world⟩).reads

end Scope

/-! ## The methods that pass streams on -/

/-- A reader has the stream, or it was cancelled. -/
def World.Settled (w : World S) (s : InStream) : Prop :=
  (∃ rd ∈ w.readers, rd.stream = s ∧ rd.phase = .reading) ∨ ∃ code, (s, code) ∈ w.cancelReads

theorem World.Settled.mono {w w' : World S} {s : InStream} (h : w.Settled s)
    (hreaders : w.readers ⊆ w'.readers) (hcancel : w.cancelReads ⊆ w'.cancelReads) : w'.Settled s := by
  rcases h with ⟨rd, hrd, hstream, hphase⟩ | ⟨code, hcode⟩
  · exact .inl ⟨rd, hreaders hrd, hstream, hphase⟩
  · exact .inr ⟨code, hcancel hcode⟩

theorem World.settled_cancelRead (s : InStream) (code : Code) (w : World S) : (w.cancelRead s code).Settled s :=
  .inr ⟨code, by simp [cancelRead]⟩

theorem World.Settled.cancelRead {w : World S} {s : InStream} (h : w.Settled s) (t : InStream)
    (code : Code) : (w.cancelRead t code).Settled s :=
  h.mono (fun _ hrd => hrd) (by simp [World.cancelRead])

/-- A loop that cancels streams settles them, and loses none that was settled. -/
theorem World.settled_cancelReads {A : Type*} (f : A → InStream × Code) (l : List A) (w : World S) :
    (∀ s, w.Settled s → (l.foldl (fun w a => w.cancelRead (f a).1 (f a).2) w).Settled s) ∧
      ∀ a ∈ l, (l.foldl (fun w a => w.cancelRead (f a).1 (f a).2) w).Settled (f a).1 := by
  refine ⟨fun s hs => ?_, fun a ha => ?_⟩
  · exact foldl_rel (r := fun w w' : World S => w.Settled s → w'.Settled s) (fun _ h => h)
      (fun h h' hw => h' (h hw)) (fun w a hw => hw.cancelRead (f a).1 (f a).2) l w hs
  exact foldl_visits (p := fun (a : A) (w : World S) => w.Settled (f a).1)
    (fun w a => w.settled_cancelRead (f a).1 (f a).2)
    (fun w a b hb => hb.cancelRead (f a).1 (f a).2) ha w

namespace Scope

/-- `y` is `x` after the reads `new` were handed to the session: what waits then waited before or is new,
and what no longer waits is settled. -/
structure Keeps (new : List PendingChunkRead) (x y : Scope S) : Prop where
  only : ∀ pr ∈ y.sess.readQueue, pr ∈ x.sess.readQueue ∨ pr ∈ new
  kept : ∀ pr, pr ∈ x.sess.readQueue ∨ pr ∈ new → pr ∈ y.sess.readQueue ∨ y.world.Settled pr.stream
  settled : ∀ s, x.world.Settled s → y.world.Settled s

namespace Keeps

variable {x y z : Scope S} {new new' : List PendingChunkRead}

theorem of_reads (h : y.reads = x.reads) : Keeps [] x y := by
  have hqueue : y.sess.readQueue = x.sess.readQueue := congrArg (·.1) h
  have hreaders : y.world.readers = x.world.readers := congrArg (·.2.1) h
  have hcancel : y.world.cancelReads = x.world.cancelReads := congrArg (·.2.2) h
  refine ⟨fun pr hpr => .inl (hqueue ▸ hpr), fun pr hpr => .inl ?_, fun s hs => ?_⟩
  · rw [hqueue]
    exact hpr.resolve_right (not_mem_nil)
  · exact hs.mono (by simp [hreaders]) (by simp [hcancel])

theorem trans (h : Keeps new x y) (h' : Keeps new' y z) : Keeps (new ++ new') x z := by
  refine ⟨fun pr hpr => ?_, fun pr hpr => ?_, fun s hs => h'.settled s (h.settled s hs)⟩
  · rcases h'.only pr hpr with hy | hnew
    · rcases h.only pr hy with hx | hnew
      · exact .inl hx
      · exact .inr (mem_append_left _ hnew)
    · exact .inr (mem_append_right _ hnew)
  have hcase : (pr ∈ x.sess.readQueue ∨ pr ∈ new) ∨ pr ∈ new' := by
    rcases hpr with hx | hnew
    · exact .inl (.inl hx)
    · exact (mem_append.mp hnew).imp_left .inr
  rcases hcase with hpr | hnew
  · rcases h.kept pr hpr with hy | hs
    · exact h'.kept pr (.inl hy)
    · exact .inr (h'.settled _ hs)
  · exact h'.kept pr (.inr hnew)

end Keeps

variable (sch : Scheme S C R P) (luck : Nat → Chance)

/-- The stream is cancelled, gets a reader, or waits for one. -/
theorem keeps_handleChunkStream (peer : PeerID) (chunkID : Bytes) (dataLen : Nat) (stream : InStream)
    (x : Scope S) :
    Keeps [⟨peer, chunkID, dataLen, stream⟩] x (x.handleChunkStream sch peer chunkID dataLen stream) := by
  have hcancel : ∀ (o : Observation) (code : Code),
      Keeps [⟨peer, chunkID, dataLen, stream⟩] x ((x.observe o).onWorld (·.cancelRead stream code)) := by
    intro o code
    refine ⟨fun pr hpr => .inl hpr, fun pr hpr => ?_, fun s hs => hs.cancelRead stream code⟩
    rcases hpr with hx | hnew
    · exact .inl hx
    · rw [mem_singleton.mp hnew]
      exact .inr (settled_cancelRead stream code _)
  unfold handleChunkStream
  split
  · exact hcancel _ _
  rename_i chunk _
  split
  · exact hcancel _ _
  split
  · exact hcancel _ _
  split
  · -- the group's context leaves the reads alone, and the new reader has the stream
    have hkeeps := Keeps.of_reads (books_readGroup (sch.methods.dedupKey x.sess.strategy chunk) x).reads
    refine ⟨fun pr hpr => .inl ((hkeeps.only pr hpr).resolve_right not_mem_nil), fun pr hpr => ?_, fun s hs => ?_⟩
    · rcases hpr with hx | hnew
      · rcases hkeeps.kept pr (.inl hx) with hy | hs
        · exact .inl hy
        · exact .inr (hs.mono (by simp [onWorld]) (by simp [onWorld]))
      · rw [mem_singleton.mp hnew]
        exact .inr (.inl ⟨_, mem_append_right _ (mem_singleton.mpr rfl), rfl, rfl⟩)
    · exact (hkeeps.settled s hs).mono (by simp [onWorld]) (by simp [onWorld])
  · exact ⟨fun pr hpr => mem_append.mp hpr, fun pr hpr => .inl (mem_append.mpr hpr), fun s hs => hs⟩

theorem keeps_drainReads (x : Scope S) : Keeps [] x (x.drainReads sch) := by
  suffices hloop : ∀ (fuel : Nat) (x : Scope S), Keeps [] x (x.drainReadsLoop sch fuel) from
    hloop _ x
  intro fuel
  induction fuel with
  | zero => exact fun x => .of_reads rfl
  | succ fuel ih =>
    intro x
    unfold drainReadsLoop
    split
    · exact .of_reads rfl
    rename_i pending rest hqueue
    split
    · -- the read at the head is taken out of the queue and handed to the session again
      have hround := (keeps_handleChunkStream sch pending.peer pending.chunkID pending.dataLen
        pending.stream { x with sess := { x.sess with readQueue := rest } }).trans (ih _)
      refine ⟨fun pr hpr => ?_, fun pr hpr => ?_, hround.settled⟩
      · rcases hround.only pr hpr with hrest | hnew
        · exact .inl (hqueue ▸ mem_cons_of_mem _ hrest)
        rw [append_nil] at hnew
        rw [mem_singleton.mp hnew, hqueue]
        exact .inl mem_cons_self
      have hx := hpr.resolve_right not_mem_nil
      rw [hqueue] at hx
      refine hround.kept pr ?_
      rcases mem_cons.mp hx with rfl | hrest
      · exact .inr (by simp)
      · exact .inl hrest
    · exact .of_reads rfl

/-- The waiting reads of a peer that is dropped are cancelled. -/
theorem keeps_handlePeerDropped (p : PeerID) (x : Scope S) :
    Keeps [] x (x.handlePeerDropped sch p) ∧ ∀ pr ∈ (x.handlePeerDropped sch p).sess.readQueue, pr.peer ≠ p := by
  have hreads : (x.handlePeerDropped sch p).reads = ((x.farewell p).dropReads p).reads := by
    unfold handlePeerDropped
    exact (books_cancelOutbound p ⟨{ ((x.farewell p).dropReads p).sess with peers := _ }, _⟩).reads
  have hqueue : ((x.farewell p).dropReads p).sess.readQueue = (x.farewell p).sess.readQueue.filter (·.peer != p) := rfl
  obtain ⟨hsettled, hcancelled⟩ := settled_cancelReads
    (fun pr : PendingChunkRead => (pr.stream, Code.unspecified))
    ((x.farewell p).sess.readQueue.filter (·.peer == p)) (x.farewell p).world
  have hdrop : Keeps [] (x.farewell p) ((x.farewell p).dropReads p) := by
    refine ⟨fun pr hpr => .inl (mem_filter.mp (hqueue ▸ hpr)).1, fun pr hpr => ?_, hsettled⟩
    have hx := hpr.resolve_right not_mem_nil
    by_cases hp : pr.peer = p
    · exact .inr (hcancelled pr (mem_filter.mpr ⟨hx, by simpa using hp⟩))
    · exact .inl (hqueue ▸ mem_filter.mpr ⟨hx, by simpa using hp⟩)
  refine ⟨((Keeps.of_reads (reads_farewell p x)).trans hdrop).trans (.of_reads hreads), fun pr hpr => ?_⟩
  have hq : (x.handlePeerDropped sch p).sess.readQueue =
      (x.farewell p).sess.readQueue.filter (·.peer != p) := congrArg (·.1) hreads
  rw [hq] at hpr
  simpa using (mem_filter.mp hpr).2

/-- A session that ends keeps nothing. -/
theorem keeps_closeWithCode (code : Code) (x : Scope S) :
    Keeps [] x (x.closeWithCode luck code) ∧ (x.closeWithCode luck code).sess.readQueue = [] := by
  have hnotify : (x.notifyPeersSessionDone luck).reads = x.reads :=
    (quiet_forPeers luck x fun _ _ w => .request _ w _ _).reads
  have hbefore := Keeps.of_reads hnotify
  let w : World S := { (x.notifyPeersSessionDone luck).world with
    sessDone := (x.notifyPeersSessionDone luck).world.sessDone.set x.sess.ref (closeCause code) }
  obtain ⟨hsettled, hcancelled⟩ := settled_cancelReads
    (fun pr : PendingChunkRead => (pr.stream, code)) x.sess.readQueue w
  refine ⟨⟨nofun, fun pr hpr => .inr ?_, fun s hs => hsettled s (hbefore.settled s hs)⟩, rfl⟩
  exact hcancelled pr (hpr.resolve_right not_mem_nil)

end Scope

/-! ## The channel -/

/-- The read a chunk stream asks for. -/
def ChunkStream.pending (c : ChunkStream) : PendingChunkRead :=
  ⟨c.peerID, c.chunkId, c.dataLength, c.stream⟩

namespace Channel

def ParkedAt (x : Channel S) (m : MessageID) (c : ChunkStream) : Prop :=
  ∃ group, x.parked.get m = some group ∧ c ∈ group.streams

def QueuedAt (x : Channel S) (m : MessageID) (pr : PendingChunkRead) : Prop :=
  ∃ sess, x.sessions.get m = some sess ∧ pr ∈ sess.readQueue

/-- Stream `s` of peer `p` waits for a session of `m`, or for a reader of that session. -/
def Waiting (x : Channel S) (m : MessageID) (p : PeerID) (s : InStream) : Prop :=
  (∃ c, x.ParkedAt m c ∧ c.peerID = p ∧ c.stream = s) ∨ ∃ pr, x.QueuedAt m pr ∧ pr.peer = p ∧ pr.stream = s

/-- `y` is `x` after the channel was handed the streams `new`. -/
structure Passes (new : List ChunkStream) (x y : Channel S) : Prop where
  only : ∀ m p s, y.Waiting m p s → x.Waiting m p s ∨ ∃ c ∈ new, c.objectId = m ∧ c.peerID = p ∧ c.stream = s
  kept : ∀ m p s, x.Waiting m p s → y.Waiting m p s ∨ y.world.Settled s
  taken : ∀ c ∈ new, y.Waiting c.objectId c.peerID c.stream ∨ y.world.Settled c.stream
  settled : ∀ s, x.world.Settled s → y.world.Settled s

namespace Passes

variable {x y z : Channel S} {new : List ChunkStream}

/-- Neither the parked chunks nor the queues change, and the world settles at least as much. -/
theorem of_iff (hparked : ∀ m, y.parked.get m = x.parked.get m) (hqueued : ∀ m pr, y.QueuedAt m pr ↔ x.QueuedAt m pr)
    (hsettled : ∀ s, x.world.Settled s → y.world.Settled s) : Passes [] x y := by
  have hwaiting : ∀ m p s, y.Waiting m p s ↔ x.Waiting m p s := by
    intro m p s
    unfold Waiting ParkedAt
    simp only [hparked, hqueued]
  exact ⟨fun m p s h => .inl ((hwaiting m p s).mp h), fun m p s h => .inl ((hwaiting m p s).mpr h),
    by simp, hsettled⟩

theorem of_get (hparked : ∀ m, y.parked.get m = x.parked.get m)
    (hsessions : ∀ m, y.sessions.get m = x.sessions.get m)
    (hsettled : ∀ s, x.world.Settled s → y.world.Settled s) : Passes [] x y :=
  of_iff hparked (fun m pr => by unfold QueuedAt; rw [hsessions]) hsettled

theorem of_same (hparked : y.parked = x.parked) (hsessions : y.sessions = x.sessions)
    (hsettled : ∀ s, x.world.Settled s → y.world.Settled s) : Passes [] x y :=
  of_get (fun m => by rw [hparked]) (fun m => by rw [hsessions]) hsettled

theorem refl (x : Channel S) : Passes [] x x := of_same rfl rfl fun _ h => h

theorem trans {new' : List ChunkStream} (h : Passes new x y) (h' : Passes new' y z) : Passes (new ++ new') x z := by
  refine ⟨fun m p s hz => ?_, fun m p s hx => ?_, fun c hc => ?_, fun s hs => h'.settled s (h.settled s hs)⟩
  · rcases h'.only m p s hz with hy | ⟨c, hc, hrest⟩
    · rcases h.only m p s hy with hx | ⟨c, hc, hrest⟩
      · exact .inl hx
      · exact .inr ⟨c, mem_append_left _ hc, hrest⟩
    · exact .inr ⟨c, mem_append_right _ hc, hrest⟩
  · rcases h.kept m p s hx with hy | hs
    · exact h'.kept m p s hy
    · exact .inr (h'.settled s hs)
  · rcases mem_append.mp hc with hc | hc
    · rcases h.taken c hc with hy | hs
      · exact h'.kept _ _ _ hy
      · exact .inr (h'.settled _ hs)
    · exact h'.taken c hc

end Passes

/-- Neither a session nor a parked group appears. -/
structure Shrinks (x y : Channel S) : Prop where
  sessions : ∀ m, (y.sessions.get m).isSome → (x.sessions.get m).isSome
  parked : ∀ m, x.parked.get m = none → y.parked.get m = none

/-- No stream is lost or found, and neither a session nor a parked group appears. -/
structure Settles (x y : Channel S) : Prop extends Passes [] x y, Shrinks x y

namespace Settles

variable {x y z : Channel S}

theorem of_same (hparked : y.parked = x.parked) (hsessions : y.sessions = x.sessions)
    (hsettled : ∀ s, x.world.Settled s → y.world.Settled s) : Settles x y :=
  ⟨.of_same hparked hsessions hsettled, fun _ h => hsessions ▸ h, fun _ h => hparked ▸ h⟩

theorem refl (x : Channel S) : Settles x x := of_same rfl rfl fun _ h => h

theorem trans (h : Settles x y) (h' : Settles y z) : Settles x z :=
  ⟨h.toPasses.trans h'.toPasses, fun m hm => h.sessions m (h'.sessions m hm),
    fun m hm => h'.parked m (h.parked m hm)⟩

theorem foldl {A : Type*} {f : Channel S → A → Channel S} (hf : ∀ x a, Settles x (f x a)) (l : List A)
    (x : Channel S) : Settles x (l.foldl f x) :=
  foldl_rel (r := Settles) refl trans hf l x

end Settles

variable (sch : Scheme S C R P) (luck : Nat → Chance)

variable {m k : MessageID} {sess : Session S} {x : Channel S} {group : ParkedGroup}

/-- A session method that is handed chunks of its message. -/
theorem passes_put {z : Scope S} {new : List ChunkStream} (hget : x.sessions.get m = some sess)
    (hm : ∀ c ∈ new, c.objectId = m)
    (h : Keeps (new.map ChunkStream.pending) ⟨sess, x.world⟩ z) : Passes new x (x.put m z) := by
  have hself : (x.put m z).sessions.get m = some z.sess := by simp
  refine ⟨fun k p s hwait => ?_, fun k p s hwait => ?_, fun c hc => ?_, h.settled⟩
  · rcases hwait with hparked | ⟨pr, ⟨sess', hget', hpr⟩, hp, hs⟩
    · exact .inl (.inl hparked)
    rw [put_sessions] at hget'
    split at hget'
    · rename_i hk
      subst hk
      cases hget'
      rcases h.only pr hpr with hold | hnew
      · exact .inl (.inr ⟨pr, ⟨sess, hget, hold⟩, hp, hs⟩)
      · obtain ⟨c, hc, rfl⟩ := mem_map.mp hnew
        exact .inr ⟨c, hc, hm c hc, hp, hs⟩
    · exact .inl (.inr ⟨pr, ⟨sess', hget', hpr⟩, hp, hs⟩)
  · rcases hwait with hparked | ⟨pr, ⟨sess', hget', hpr⟩, hp, hs⟩
    · exact .inl (.inl hparked)
    by_cases hk : k = m
    · subst hk
      cases hget.symm.trans hget'
      rcases h.kept pr (.inl hpr) with hkept | hsettled
      · exact .inl (.inr ⟨pr, ⟨z.sess, hself, hkept⟩, hp, hs⟩)
      · exact .inr (hs ▸ hsettled)
    · exact .inl (.inr ⟨pr, ⟨sess', by rw [put_sessions, if_neg hk]; exact hget', hpr⟩, hp, hs⟩)
  · rcases h.kept c.pending (.inr (mem_map_of_mem hc)) with hkept | hsettled
    · exact .inl (.inr ⟨c.pending, ⟨z.sess, hm c hc ▸ hself, hkept⟩, rfl, rfl⟩)
    · exact .inr hsettled

theorem settles_put {z : Scope S} (hget : x.sessions.get m = some sess) (h : Keeps [] ⟨sess, x.world⟩ z) :
    Settles x (x.put m z) := by
  refine ⟨passes_put hget nofun h, fun k hk => ?_, fun k h => h⟩
  rw [put_sessions] at hk
  split at hk
  · rename_i hkm
    rw [hkm, hget]
    rfl
  · exact hk

@[simp] theorem isSome_onSession (m k : MessageID) (f : Scope S → Scope S) (x : Channel S) :
    ((x.onSession m f).sessions.get k).isSome = (x.sessions.get k).isSome := by
  unfold onSession
  split
  · rfl
  rename_i sess hget
  rw [put_sessions]
  split
  · rename_i hk
    rw [hk, hget]
    rfl
  · rfl

@[simp] theorem parked_onSession (m : MessageID) (f : Scope S → Scope S) (x : Channel S) :
    (x.onSession m f).parked = x.parked := by
  unfold onSession
  split <;> rfl

theorem shrinks_onSession (m : MessageID) (f : Scope S → Scope S) (x : Channel S) : Shrinks x (x.onSession m f) :=
  ⟨fun k h => by rwa [isSome_onSession] at h, fun k h => by rwa [parked_onSession]⟩

theorem settles_onSession (m : MessageID) {f : Scope S → Scope S}
    (hf : ∀ y, Keeps [] y (f y)) (x : Channel S) : Settles x (x.onSession m f) := by
  unfold onSession
  split
  · exact .refl x
  · rename_i sess hget
    exact settles_put hget (hf _)

theorem settles_cancelStreams (streams : List ChunkStream) (code : Code) (x : Channel S) :
    Settles x (x.cancelStreams streams code) ∧
      ∀ c ∈ streams, (x.cancelStreams streams code).world.Settled c.stream := by
  obtain ⟨hsettled, hcancelled⟩ := settled_cancelReads (fun c : ChunkStream => (c.stream, code)) streams x.world
  exact ⟨.of_same rfl rfl hsettled, hcancelled⟩

/-- The parked chunks of one message are replaced by some of them; the others are settled. -/
theorem passes_repark {y : Channel S} (m : MessageID) (kept : ChunkStream → Prop)
    (hsessions : y.sessions = x.sessions) (hself : ∀ c, y.ParkedAt m c ↔ x.ParkedAt m c ∧ kept c)
    (hrest : ∀ k, k ≠ m → y.parked.get k = x.parked.get k)
    (hsettled : ∀ s, x.world.Settled s → y.world.Settled s)
    (hgone : ∀ c, x.ParkedAt m c → ¬ kept c → y.world.Settled c.stream) : Passes [] x y := by
  have hqueued : ∀ k pr, y.QueuedAt k pr ↔ x.QueuedAt k pr := by
    intro k pr
    unfold QueuedAt
    rw [hsessions]
  have hother : ∀ k, k ≠ m → ∀ c, y.ParkedAt k c ↔ x.ParkedAt k c := by
    intro k hk c
    unfold ParkedAt
    rw [hrest k hk]
  refine ⟨fun k p s hwait => .inl ?_, fun k p s hwait => ?_, nofun, hsettled⟩
  · rcases hwait with ⟨c, hc, hcs⟩ | ⟨pr, hpr, hprs⟩
    · by_cases hk : k = m
      · subst hk
        exact .inl ⟨c, ((hself c).mp hc).1, hcs⟩
      · exact .inl ⟨c, (hother k hk c).mp hc, hcs⟩
    · exact .inr ⟨pr, (hqueued k pr).mp hpr, hprs⟩
  rcases hwait with ⟨c, hc, hp, hs⟩ | ⟨pr, hpr, hprs⟩
  · by_cases hk : k = m
    · subst hk
      by_cases hkept : kept c
      · exact .inl (.inl ⟨c, (hself c).mpr ⟨hc, hkept⟩, hp, hs⟩)
      · exact .inr (hs ▸ hgone c hc hkept)
    · exact .inl (.inl ⟨c, (hother k hk c).mpr hc, hp, hs⟩)
  · exact .inl (.inr ⟨pr, (hqueued k pr).mpr hpr, hprs⟩)

theorem parkedAt_del (x : Channel S) (m : MessageID) (w : World S) (c : ChunkStream) :
    ¬ ({ x with parked := x.parked.del m, world := w } : Channel S).ParkedAt m c := by
  rintro ⟨group, hgroup, _⟩
  simp at hgroup

/-- A parked group is cancelled and forgotten. -/
theorem settles_forget (hgroup : x.parked.get m = some group) (code : Code) :
    Settles x { x.cancelStreams group.streams code with parked := x.parked.del m } := by
  obtain ⟨hpass, hcancelled⟩ := settles_cancelStreams group.streams code x
  refine ⟨passes_repark m (fun _ => False) rfl (fun c => ?_) (fun k hk => ?_) hpass.settled ?_, fun k h => h,
    fun k h => by simp [Map.get_del, h]⟩
  · exact iff_of_false (parkedAt_del x m _ c) (fun h => h.2)
  · simp [hk]
  rintro c ⟨group', hgroup', hc⟩ _
  cases hgroup.symm.trans hgroup'
  exact hcancelled c hc

theorem passes_dropGroup (m : MessageID) (code : Code) (x : Channel S) : Passes [] x (x.dropGroup m code) := by
  unfold dropGroup
  split
  · rename_i group hgroup
    exact (settles_forget hgroup code).toPasses
  · exact .refl x

theorem dropGroup_parked (m : MessageID) (code : Code) (x : Channel S) (k : MessageID) :
    (x.dropGroup m code).parked.get k = if k = m then none else x.parked.get k := by
  unfold dropGroup
  split
  · simp
  rename_i hgroup
  split
  · rename_i hk
    rw [hk, hgroup]
  · rfl

/-- A session whose queue is empty is forgotten. -/
theorem passes_remove (hget : x.sessions.get m = some sess) (hqueue : sess.readQueue = []) :
    Passes [] x { x with sessions := x.sessions.del m } := by
  refine .of_iff (fun _ => rfl) (fun k pr => ?_) fun s h => h
  unfold QueuedAt
  rw [Map.get_del]
  split
  · rename_i hk
    simp [hk, hget, hqueue]
  · rfl

/-- Disposing a session settles its own streams and those parked for it. -/
theorem passes_disposeSession (m : MessageID) (reason : Reason) (x : Channel S) :
    Passes [] x (x.disposeSession luck m reason) := by
  cases hget : x.sessions.get m with
  | none =>
    rw [disposeSession_of_none hget]
    exact .refl x
  | some sess =>
    -- drop the parked group, close the session where it is, and only then forget it
    let code := disposeCode sess.stage reason
    let y := x.dropGroup m code
    have hy : y.sessions.get m = some sess := by
      show (x.dropGroup m code).sessions.get m = some sess
      unfold dropGroup
      split <;> exact hget
    obtain ⟨hkeeps, hqueue⟩ := keeps_closeWithCode luck code ⟨sess, y.world⟩
    let z := y.put m ((Scope.mk sess y.world).closeWithCode luck code)
    have hput : Passes [] y z := passes_put hy (by simp) hkeeps
    have hz : z.sessions.get m = some ((Scope.mk sess y.world).closeWithCode luck code).sess := by
      simp [z]
    have hpass := ((passes_dropGroup m code x).trans hput).trans (passes_remove hz hqueue)
    refine hpass.trans (.of_get (fun k => ?_) (fun k => ?_) fun s hs => ?_)
    · unfold disposeSession
      rw [hget]
      show (dropGroup m code _).parked.get k = (x.dropGroup m code).parked.get k
      rw [dropGroup_parked, dropGroup_parked]
    · rw [get_disposeSession]
      simp only [z, Map.get_del, put_sessions]
      split
      · rfl
      show x.sessions.get k = (x.dropGroup m code).sessions.get k
      unfold dropGroup
      split <;> rfl
    have hworld : ({ x with sessions := x.sessions.del m }.dropGroup m code).world = y.world := by
      show _ = (x.dropGroup m code).world
      unfold dropGroup
      dsimp only
      split <;> rfl
    have hs' : ((Scope.mk sess
        ({ x with sessions := x.sessions.del m }.dropGroup m code).world).closeWithCode luck code).world.Settled s := by
      rw [hworld]
      exact hs
    unfold disposeSession
    rw [hget]
    exact hs'.mono (fun _ h => h) (fun _ h => h)

/-- Disposing a session only takes its own parked group away. -/
theorem parked_disposeSession {reason : Reason}
    (h : (x.disposeSession luck m reason).parked.get k = some group) : x.parked.get k = some group := by
  unfold disposeSession at h
  split at h
  · exact h
  simp only [dropGroup_parked] at h
  split at h
  · cases h
  · exact h

theorem settles_disposeSession (m : MessageID) (reason : Reason) (x : Channel S) :
    Settles x (x.disposeSession luck m reason) := by
  refine ⟨passes_disposeSession luck m reason x, fun k h => ?_, fun k h => ?_⟩
  · obtain ⟨sess, hget⟩ := Option.isSome_iff_exists.mp h
    rw [(get_of_disposeSession hget).2]
    rfl
  cases hk : (x.disposeSession luck m reason).parked.get k with
  | none => rfl
  | some group => exact absurd (h.symm.trans (parked_disposeSession luck hk)) (by simp)

theorem settles_disposeIfIdle (m : MessageID) (x : Channel S) : Settles x (x.disposeIfIdle luck m) :=
  disposeIfIdle_keeps (P := Settles x) m x (.refl x) (settles_disposeSession luck m .allPeersDone x)

theorem passes_begin (hget : x.sessions.get sess.messageID = none)
    (hqueue : sess.readQueue = []) : Passes [] x (x.begin sess) := by
  refine .of_iff (fun _ => rfl) (fun k pr => ?_) fun s h => h.mono (fun _ h => h) (fun _ h => h)
  unfold QueuedAt
  rw [begin_sessions]
  split
  · rename_i hk
    simp [hk, hget, hqueue]
  · rfl

theorem settles_turn (x : Channel S) : Settles x (x.onWorld turn) := .of_same rfl rfl fun _ h => h

theorem settles_attachMembers (m : MessageID) (x : Channel S) : Settles x (x.attachMembers sch luck m) := by
  refine (settles_turn x).trans (Settles.foldl (fun x pid => ?_) _ (x.onWorld turn))
  split
  · exact settles_onSession m (fun y => .of_reads (reads_handlePeerAttached sch luck _ y)) x
  · exact .refl x

/-- A session is handed one stream after the other. -/
theorem keeps_handAll (l : List ChunkStream) (hget : x.sessions.get m = some sess) :
    ∃ (z : Scope S) (y : Channel S), Keeps (l.map ChunkStream.pending) ⟨sess, x.world⟩ z ∧
      l.foldl (fun x c => x.onSession m (handleChunkStream sch c.peerID c.chunkId c.dataLength c.stream)) x = y ∧
      (∀ k, y.sessions.get k = if k = m then some z.sess else x.sessions.get k) ∧
      y.parked = x.parked ∧ y.world = z.world := by
  induction l generalizing x sess with
  | nil =>
    refine ⟨⟨sess, x.world⟩, x, .of_reads rfl, rfl, fun k => ?_, rfl, rfl⟩
    split
    · rename_i hk
      rw [hk, hget]
    · rfl
  | cons c l ih =>
    let u := handleChunkStream sch c.peerID c.chunkId c.dataLength c.stream ⟨sess, x.world⟩
    have hu : (x.put m u).sessions.get m = some u.sess := by simp
    obtain ⟨z, y, hkeeps, hfold, hsessions, hparked, hworld⟩ := ih hu
    have hhead : Keeps [c.pending] ⟨sess, x.world⟩ u :=
      keeps_handleChunkStream sch _ _ _ _ _
    refine ⟨z, y, hhead.trans hkeeps, ?_, fun k => ?_, hparked, hworld⟩
    · rw [foldl_cons, ← hfold]
      simp only [onSession, hget]
      rfl
    · rw [hsessions, put_sessions]
      split <;> rfl

/-- The parked chunks of a session that exists by now are handed to it. -/
theorem passes_flushParked (hget : x.sessions.get m = some sess) : Passes [] x (x.flushParked sch m) := by
  unfold flushParked
  split
  · exact .refl x
  rename_i group hgroup
  obtain ⟨z, y, hkeeps, hfold, hsessions, hparked, hworld⟩ := keeps_handAll sch group.streams hget
  dsimp only
  rw [hfold]
  have hself : y.sessions.get m = some z.sess := by rw [hsessions, if_pos rfl]
  refine ⟨fun k p s hwait => .inl ?_, fun k p s hwait => ?_, nofun, fun s hs => ?_⟩
  · rcases hwait with ⟨c, ⟨group', hgroup', hc⟩, hcs⟩ | ⟨pr, ⟨sess', hsess', hpr⟩, hp, hs⟩
    · simp only [Map.get_del, hparked] at hgroup'
      split at hgroup'
      · cases hgroup'
      · exact .inl ⟨c, ⟨group', hgroup', hc⟩, hcs⟩
    replace hsess' : y.sessions.get k = some sess' := hsess'
    rw [hsessions] at hsess'
    split at hsess'
    · rename_i hk
      subst hk
      cases hsess'
      rcases hkeeps.only pr hpr with hold | hnew
      · exact .inr ⟨pr, ⟨sess, hget, hold⟩, hp, hs⟩
      · obtain ⟨c, hc, rfl⟩ := mem_map.mp hnew
        exact .inl ⟨c, ⟨group, hgroup, hc⟩, hp, hs⟩
    · exact .inr ⟨pr, ⟨sess', hsess', hpr⟩, hp, hs⟩
  · -- what was parked for the session, and what waited in it, waits in it or is settled
    have hhand : ∀ pr, pr ∈ sess.readQueue ∨ pr ∈ group.streams.map ChunkStream.pending →
        ({ y with parked := y.parked.del m } : Channel S).Waiting m pr.peer pr.stream ∨ y.world.Settled pr.stream := by
      intro pr hpr
      rcases hkeeps.kept pr hpr with hkept | hsettled
      · exact .inl (.inr ⟨pr, ⟨z.sess, hself, hkept⟩, rfl, rfl⟩)
      · exact .inr (hworld ▸ hsettled)
    by_cases hk : k = m
    · subst hk
      rcases hwait with ⟨c, ⟨group', hgroup', hc⟩, rfl, rfl⟩ | ⟨pr, ⟨sess', hsess', hpr⟩, rfl, rfl⟩
      · cases hgroup.symm.trans hgroup'
        exact hhand c.pending (.inr (mem_map_of_mem hc))
      · cases hget.symm.trans hsess'
        exact hhand pr (.inl hpr)
    rcases hwait with ⟨c, ⟨group', hgroup', hc⟩, hcs⟩ | ⟨pr, ⟨sess', hsess', hpr⟩, hps⟩
    · exact .inl (.inl ⟨c, ⟨group', by simpa [hk, hparked] using hgroup', hc⟩, hcs⟩)
    refine .inl (.inr ⟨pr, ⟨sess', ?_, hpr⟩, hps⟩)
    show y.sessions.get k = some sess'
    rw [hsessions, if_neg hk]
    exact hsess'
  · show y.world.Settled s
    rw [hworld]
    exact hkeeps.settled s hs

theorem isSome_attachMembers (m k : MessageID) (x : Channel S) :
    ((x.attachMembers sch luck m).sessions.get k).isSome = (x.sessions.get k).isSome := by
  refine foldl_same (fun x : Channel S => (x.sessions.get k).isSome) (fun x pid => ?_) _ (x.onWorld turn)
  split
  · exact isSome_onSession m k _ x
  · rfl

theorem passes_createRelaySession {preambleBytes : Bytes} {peer : PeerID}
    {routing : Bytes} {y : Channel S} (hget : x.sessions.get m = none)
    (h : x.createRelaySession sch luck m preambleBytes peer routing = .ok y) : Passes [] x y := by
  unfold createRelaySession at h
  split at h
  · cases h
  split at h
  · cases h
  rename_i strat _
  cases h
  let sess := (x.onWorld turn).newSession m preambleBytes false strat
  let y := ((x.onWorld turn).begin sess).attachMembers sch luck m
  have hbegin : Passes [] (x.onWorld turn) ((x.onWorld turn).begin sess) :=
    passes_begin hget rfl
  have hy : Passes [] x y := ((settles_turn x).toPasses.trans hbegin).trans (settles_attachMembers sch luck m _).toPasses
  have hsome : (y.sessions.get m).isSome := by
    rw [isSome_attachMembers, begin_sessions]
    exact (if_pos (show m = sess.messageID from rfl)).symm ▸ rfl
  have hrouting : ∀ z : Channel S, (z = y ∨ z = y.onSession m
      (handleRoutingUpdate sch luck peer routing)) →
      Passes [] x ((z.flushParked sch m).observe (.sessionStarted m false)) := by
    intro z hz
    have hpass : Passes [] y z ∧ (z.sessions.get m).isSome := by
      rcases hz with rfl | rfl
      · exact ⟨.refl _, hsome⟩
      refine ⟨(settles_onSession m (fun u => .of_reads ?_) y).toPasses, ?_⟩
      · exact (quiet_handleRoutingUpdate sch luck peer routing u).reads
      · rw [isSome_onSession]
        exact hsome
    obtain ⟨sess', hget'⟩ := Option.isSome_iff_exists.mp hpass.2
    exact ((hy.trans hpass.1).trans (passes_flushParked sch hget')).trans (.of_same rfl rfl fun _ h => h)
  refine hrouting _ ?_
  split
  · exact .inl rfl
  · exact .inr rfl

theorem passes_handleSessionOpen (peer : PeerID) (msg : SessOpen) (x : Channel S) :
    Passes [] x (x.handleSessionOpen sch luck peer msg) := by
  unfold handleSessionOpen
  split
  · split
    · exact .refl x
    · exact (settles_onSession _ (fun y => .of_reads (quiet_handleRoutingUpdate sch luck peer _ y).reads) x).toPasses
  rename_i hget
  split
  · rename_i y hy
    exact passes_createRelaySession sch luck hget hy
  · exact .of_same rfl rfl fun _ h => h

/-- A chunk is parked. -/
theorem passes_park {e : ChunkStream} (hgroup : ∀ c, c ∈ group.streams ↔ x.ParkedAt e.objectId c ∨ c = e) :
    Passes [e] x { x with parked := x.parked.set e.objectId group } := by
  have hself : ∀ c, ({ x with parked := x.parked.set e.objectId group } : Channel S).ParkedAt
      e.objectId c ↔ c ∈ group.streams := by
    intro c
    simp [ParkedAt]
  have hother : ∀ k, k ≠ e.objectId → ∀ c, ({ x with
      parked := x.parked.set e.objectId group } : Channel S).ParkedAt k c ↔ x.ParkedAt k c := by
    intro k hk c
    simp [ParkedAt, hk]
  refine ⟨fun k p s hwait => ?_, fun k p s hwait => .inl (hwait.imp_left ?_), fun c hc => .inl (.inl ?_),
    fun s hs => hs⟩
  · rcases hwait with ⟨c, hc, hp, hs⟩ | hpr
    · by_cases hk : k = e.objectId
      · subst hk
        rcases (hgroup c).mp ((hself c).mp hc) with hold | rfl
        · exact .inl (.inl ⟨c, hold, hp, hs⟩)
        · exact .inr ⟨c, mem_singleton.mpr rfl, rfl, hp, hs⟩
      · exact .inl (.inl ⟨c, (hother k hk c).mp hc, hp, hs⟩)
    · exact .inl (.inr hpr)
  · rintro ⟨c, hc, hcs⟩
    by_cases hk : k = e.objectId
    · subst hk
      exact ⟨c, (hself c).mpr ((hgroup c).mpr (.inl hc)), hcs⟩
    · exact ⟨c, (hother k hk c).mpr hc, hcs⟩
  · rw [mem_singleton.mp hc]
    exact ⟨e, (hself e).mpr ((hgroup e).mpr (.inr rfl)), rfl, rfl⟩

theorem passes_handleChunk (e : ChunkStream) (x : Channel S) : Passes [e] x (x.handleChunk sch e) := by
  unfold handleChunk
  split
  · rename_i sess hget
    simp only [onSession, hget]
    exact passes_put hget (by simp) ((keeps_drainReads sch _).trans
      (keeps_handleChunkStream sch _ _ _ _ _))
  split
  · rename_i group hgroup
    split
    · refine ⟨fun k p s h => .inl h, fun k p s h => .inl h, fun c hc => .inr ?_, fun s hs => hs.cancelRead _ _⟩
      rw [mem_singleton.mp hc]
      exact settled_cancelRead _ _ _
    · refine passes_park fun c => ?_
      simp [ParkedAt, hgroup]
  · rename_i hgroup
    have hpark : Passes [e] x
        { x with parked := x.parked.set e.objectId ⟨x.world.now, [e]⟩ } := by
      refine passes_park fun c => ?_
      simp [ParkedAt, hgroup]
    exact hpark.trans (.of_same rfl rfl fun _ h => h.mono (fun _ h => h) (fun _ h => h))

theorem settles_forSessions {body : MessageID → Channel S → Channel S}
    (hbody : ∀ m x, Settles x (body m x)) (x : Channel S) : Settles x (x.forSessions luck body) := by
  exact (settles_turn x).trans (Settles.foldl (fun x m => hbody m x) _ (x.onWorld turn))

theorem settles_forParked {body : MessageID → ParkedGroup → Channel S → Channel S}
    (hbody : ∀ m group x, x.parked.get m = some group → Settles x (body m group x))
    (x : Channel S) : Settles x (x.forParked luck body) := by
  refine (settles_turn x).trans (Settles.foldl (fun x m => ?_) _ (x.onWorld turn))
  cases hgroup : x.parked.get m with
  | none => exact .refl x
  | some group => exact hbody m group x hgroup

/-- One round of `dropParked`. -/
def dropParkedOf (p : PeerID) (m : MessageID) (group : ParkedGroup) (x : Channel S) : Channel S :=
  let x := x.cancelStreams (group.streams.filter (·.peerID == p)) .unspecified
  let kept := group.streams.filter (·.peerID != p)
  if kept.isEmpty then { x with parked := x.parked.del m }
  else { x with parked := x.parked.set m { group with streams := kept } }

variable (p : PeerID)

theorem settles_dropParkedOf (hgroup : x.parked.get m = some group) :
    Settles x (dropParkedOf p m group x) ∧
      ∀ c, (dropParkedOf p m group x).ParkedAt m c ↔ x.ParkedAt m c ∧ c.peerID ≠ p := by
  obtain ⟨hpass, hcancelled⟩ := settles_cancelStreams (group.streams.filter (·.peerID == p)) .unspecified x
  have hold : ∀ c, x.ParkedAt m c ↔ c ∈ group.streams := by
    intro c
    simp [ParkedAt, hgroup]
  have hself : ∀ c, (dropParkedOf p m group x).ParkedAt m c ↔ x.ParkedAt m c ∧ c.peerID ≠ p := by
    intro c
    rw [hold]
    have hmem : c ∈ group.streams.filter (·.peerID != p) ↔ c ∈ group.streams ∧ c.peerID ≠ p := by
      simp
    rw [← hmem]
    unfold dropParkedOf
    dsimp only
    split
    · rename_i hempty
      refine iff_of_false ?_ ?_
      · rintro ⟨group', hgroup', _⟩
        simp at hgroup'
      · rw [isEmpty_iff.mp hempty]
        exact not_mem_nil
    · simp [ParkedAt]
  have hsessions : (dropParkedOf p m group x).sessions = x.sessions := by
    unfold dropParkedOf
    dsimp only
    split <;> rfl
  have hother : ∀ k, k ≠ m → (dropParkedOf p m group x).parked.get k = x.parked.get k := by
    intro k hk
    unfold dropParkedOf
    dsimp only
    split <;> simp [hk, cancelStreams, onWorld]
  refine ⟨⟨passes_repark m (fun c => c.peerID ≠ p) hsessions hself hother (fun s hs => ?_) (fun c hc hp => ?_),
    fun k h => hsessions ▸ h, fun k h => ?_⟩, hself⟩
  · have h := hpass.settled s hs
    unfold dropParkedOf
    dsimp only
    split <;> exact h
  · have h := hcancelled c (mem_filter.mpr ⟨(hold c).mp hc, by simpa using hp⟩)
    unfold dropParkedOf
    dsimp only
    split <;> exact h
  · -- the group that is replaced was there
    refine (hother k ?_).trans h
    rintro rfl
    cases hgroup.symm.trans h

/-- After the loop no chunk of the peer is parked. -/
theorem settles_dropParked (x : Channel S) :
    Settles x (x.dropParked luck p) ∧ (x.dropParked luck p).sessions = x.sessions ∧
      ∀ m c, (x.dropParked luck p).ParkedAt m c → c.peerID ≠ p := by
  have hpass : Settles x (x.dropParked luck p) :=
    settles_forParked luck (fun m group x hgroup => (settles_dropParkedOf p hgroup).1) x
  refine ⟨hpass, (aside_dropParked luck p x).sessions, fun m c hc hp => ?_⟩
  let round : Channel S → MessageID → Channel S := fun x m =>
    ((x.parked.get m).map fun group => dropParkedOf p m group x).getD x
  have hround : ∀ (x : Channel S) (k m : MessageID) (c : ChunkStream),
      (round x k).ParkedAt m c → x.ParkedAt m c ∧ (m = k → c.peerID ≠ p) := by
    intro x k m c hc
    cases hgroup : x.parked.get k with
    | none =>
      simp only [round, hgroup] at hc
      refine ⟨hc, fun hm => ?_⟩
      obtain ⟨group, hget, _⟩ := hc
      rw [hm] at hget
      exact absurd (hgroup.symm.trans hget) (by simp)
    | some group =>
      simp only [round, hgroup, Option.map_some, Option.getD_some] at hc
      by_cases hm : m = k
      · subst hm
        have h := ((settles_dropParkedOf p hgroup).2 c).mp hc
        exact ⟨h.1, fun _ => h.2⟩
      refine ⟨?_, fun h => absurd h hm⟩
      obtain ⟨group', hget, hmem⟩ := hc
      refine ⟨group', ?_, hmem⟩
      rw [← hget]
      unfold dropParkedOf
      dsimp only
      split <;> simp [hm, cancelStreams, onWorld]
  refine foldl_clears (f := round) (p := fun m (x : Channel S) => x.ParkedAt m c ∧ c.peerID = p)
    (fun x k h => (hround x k k c h.1).2 rfl h.2) (fun x k m h => ⟨(hround x k m c h.1).1, h.2⟩) ?_ m ⟨hc, hp⟩
  rintro m ⟨⟨group, hget, _⟩, _⟩
  exact Map.mem_range.mpr (Map.mem_keys_of_get hget)

theorem parked_disposeIfIdle :
    (x.disposeIfIdle luck m).parked.get k = some group → x.parked.get k = some group :=
  disposeIfIdle_keeps (P := fun y => y.parked.get k = some group → _) m x id (parked_disposeSession luck)

theorem settles_leave (m : MessageID) (p : PeerID) (x : Channel S) : Settles x (x.leave sch luck m p) :=
  (settles_onSession m (fun y => (keeps_handlePeerDropped sch p y).1) x).trans (settles_disposeIfIdle luck m _)

/-- What waits in a session after one of the others, or the session itself, dropped a peer. -/
theorem queuedAt_leave {p : PeerID} {pr : PendingChunkRead} (h : (x.leave sch luck m p).QueuedAt k pr) :
    x.QueuedAt k pr ∧ (k = m → pr.peer ≠ p) := by
  obtain ⟨sess, hget, hpr⟩ := h
  rcases get_of_onSession (get_of_disposeIfIdle hget) with ⟨rfl, old, hold, rfl⟩ | ⟨hk, hget⟩
  · obtain ⟨hkeeps, hpeer⟩ := keeps_handlePeerDropped sch p ⟨old, x.world⟩
    exact ⟨⟨old, hold, (hkeeps.only pr hpr).resolve_right not_mem_nil⟩, fun _ => hpeer pr hpr⟩
  · exact ⟨⟨sess, hget, hpr⟩, fun h => absurd h hk⟩

/-- Once a peer is unbound, no stream of it waits. -/
theorem settles_handlePeerUnbound (x : Channel S) :
    Settles x (x.handlePeerUnbound sch luck p) ∧ ∀ m s, ¬ (x.handlePeerUnbound sch luck p).Waiting m p s := by
  let x₁ : Channel S := { x with members := x.members.del p }
  obtain ⟨hpass, hsessions, hparked⟩ := settles_dropParked luck p x₁
  have hmember : Settles x x₁ := .of_same rfl rfl fun _ h => h
  have hall : Settles (x₁.dropParked luck p) (x.handlePeerUnbound sch luck p) :=
    settles_forSessions luck (fun m x => settles_leave sch luck m p x) _
  refine ⟨(hmember.trans hpass).trans hall, fun m s hwait => ?_⟩
  rcases hwait with ⟨c, ⟨group, hgroup, hc⟩, hp, _⟩ | ⟨pr, hpr, hp, _⟩
  · -- the loop over the sessions parks nothing
    have hback := foldl_back (f := fun (x : Channel S) m => x.leave sch luck m p)
      (x := (x₁.dropParked luck p).onWorld turn) (p := fun x : Channel S => x.parked.get m = some group)
      (fun x k h => by simpa using parked_disposeIfIdle luck h) hgroup
    exact hparked m c ⟨group, hback, hc⟩ hp
  refine foldl_clears (p := fun m (x : Channel S) => x.QueuedAt m pr ∧ pr.peer = p)
    (fun x k h => (queuedAt_leave sch luck h.1).2 rfl h.2)
    (fun x k m h => ⟨(queuedAt_leave sch luck h.1).1, h.2⟩) ?_ m ⟨hpr, hp⟩
  rintro m ⟨⟨sess, hget, _⟩, _⟩
  exact Map.mem_range.mpr (Map.mem_keys_of_get hget)

theorem settles_handlePeerBound (c : ConnRef) (x : Channel S) : Settles x (x.handlePeerBound sch luck p c) := by
  unfold handlePeerBound
  split
  · exact .refl x
  have hmember : Settles x { x with members := x.members.set p c } := .of_same rfl rfl fun _ h => h
  refine hmember.trans (settles_forSessions luck (fun m x => ?_) _)
  exact settles_onSession m (fun y => .of_reads (reads_handlePeerAttached sch luck c y)) x

theorem passes_handlePublish (m : MessageID) (strategy : S) (preamble : Bytes) (x : Channel S) :
    Passes [] x (x.handlePublish sch luck m strategy preamble) := by
  let y := x.disposeSession luck m .replaced
  have hnone : y.sessions.get m = none := by
    rw [get_disposeSession, if_pos rfl]
  have hbegin : Passes [] y (y.begin (y.newSession m preamble true strategy)) := passes_begin hnone rfl
  have hdrain : ∀ y : Channel S, Settles y (y.onSession m (drainPolls sch luck)) :=
    settles_onSession m (fun y => .of_reads (quiet_drainPolls sch luck y).reads)
  exact (((passes_disposeSession luck m .replaced x).trans hbegin).trans
    ((settles_attachMembers sch luck m _).trans (hdrain _)).toPasses).trans (.of_same rfl rfl fun _ h => h)

theorem settles_expireDue (x : Channel S) : Settles x (x.expireDue luck) := by
  refine (settles_forSessions luck (fun m x => ?_) x).trans (settles_forParked luck (fun m group x hgroup => ?_) _)
  · exact expireSession_keeps m x (.refl x) (settles_disposeSession luck m .ttlExpired x)
  · split
    · exact settles_forget hgroup .refused
    · exact .refl x

theorem settles_reconstruct (hget : x.sessions.get m = some sess) (payload : Bytes) :
    Settles x (x.reconstruct luck m payload sess) := by
  let y := x.deliverMessage m payload
  have hdeliver : Settles x y ∧ y.sessions = x.sessions := by
    show Settles x (x.deliverMessage m payload) ∧ (x.deliverMessage m payload).sessions = _
    unfold deliverMessage
    split
    · exact ⟨.of_same rfl rfl fun _ h => h, rfl⟩
    · dsimp only
      split <;> exact ⟨.of_same rfl rfl fun _ h => h, rfl⟩
  have hget' : y.sessions.get m = some sess := by
    rw [hdeliver.2]
    exact hget
  have hput : ∀ z : Scope S, z.reads = (Scope.mk sess y.world).reads → Settles y (y.put m z) :=
    fun z hz => settles_put hget' (.of_reads hz)
  exact (hdeliver.1.trans (hput ⟨{ sess with stage := .reconstructed },
    y.world.updLife sess.ref (doneLife sess.stage payload)⟩ rfl)).trans (settles_disposeIfIdle luck m _)

theorem settles_handleDecoded (m : MessageID) (payload : Option Bytes) (sender : SessionRef)
    (x : Channel S) : Settles x (x.handleDecoded luck m payload sender) := by
  let y := x.onWorld fun w => w.updLife sender fun l => { l with handled := true }
  have hmark : Settles x y := .of_same rfl rfl fun _ h => h.mono (fun _ h => h) (fun _ h => h)
  refine hmark.trans ?_
  show Settles y (y.takeResult luck m payload)
  unfold takeResult
  split
  · exact .refl _
  rename_i sess hget
  split
  · split
    · exact .of_same rfl rfl fun _ h => h
    · exact settles_reconstruct luck hget _
  · exact .refl _

end Channel

/-- The streams an event brings. -/
def Event.streams : Event S → List ChunkStream
  | .chunkStream e => [e]
  | _ => []

namespace Channel

variable (sch : Scheme S C R P) (luck : Nat → Chance)

/-- **Handling an event loses no stream**, and makes none wait but the one it brings. -/
theorem passes_handle (evt : Event S) (x : Channel S) : Passes evt.streams x (x.handle sch luck evt) := by
  cases evt with
  | expiry => exact (settles_expireDue luck x).toPasses
  | readDone m => exact (settles_onSession m (keeps_drainReads sch) x).toPasses
  | chunkStream e => exact passes_handleChunk sch e x
  | chunkData m p chunkID payload =>
    exact (settles_onSession m (fun y => .of_reads (receives_handleChunkData sch luck _ _ _ y).reads) x).toPasses
  | sessionOpen p msg => exact passes_handleSessionOpen sch luck p msg x
  | peerChange e =>
    obtain ⟨p, ref⟩ := e
    cases ref with
    | some c => exact (settles_handlePeerBound sch luck p c x).toPasses
    | none => exact (settles_handlePeerUnbound sch luck p x).1.toPasses
  | publish m strategy preamble => exact passes_handlePublish sch luck m strategy preamble x
  | chunkSent m p handle err size sender =>
    exact (settles_onSession m (fun y => .of_reads (quiet_handleSendComplete sch luck _ _ _ _ _ y).reads) x).toPasses
  | routingUpdate p m data =>
    exact (settles_onSession m (fun y => .of_reads (quiet_handleRoutingUpdate sch luck _ _ y).reads) x).toPasses
  | peerReconstructed m p =>
    have hcomplete := settles_onSession m (fun y => .of_reads (reads_handlePeerCompleted sch p y)) x
    exact (hcomplete.trans (settles_disposeIfIdle luck m _)).toPasses
  | peerSessionEnded m p c =>
    show Passes [] x (if x.members.get p ≠ some c then x else x.leave sch luck m p)
    split
    · exact .refl x
    · exact (settles_leave sch luck m p x).toPasses
  | verifyResult m p chunkID payload verdict =>
    exact (settles_onSession m (fun y => .of_reads (receives_handleVerifyResult sch luck _ _ _ _ y).reads) x).toPasses
  | decoded m payload sender => exact (settles_handleDecoded luck m payload sender x).toPasses

theorem settles_closeAll (x : Channel S) : Settles x (x.closeAll luck) := by
  unfold closeAll
  split
  · have hsessions := settles_forSessions luck
      (fun m x => settles_onSession m (fun y => (keeps_closeWithCode luck .unspecified y).1) x) x
    have hparked := settles_forParked luck (fun _ group x _ => (settles_cancelStreams group.streams .unspecified x).1)
      (x.forSessions luck fun m x => x.onSession m (Scope.Close luck))
    exact (hsessions.trans hparked).trans (.of_same rfl rfl fun _ h => h)
  · exact .refl x

end Channel

end EthP2P.Broadcast
