/-
# EthP2P.Broadcast.Handover — a Subscribe and an OPEN on their way to a channel

A peer that subscribes to a channel and then opens a message there uses two streams.  The Subscribe goes
through the control reader and the engine actor, which binds the peer for its readers and posts a change to
the channel.  The OPEN goes through a SESS reader, which looks up the channel and posts to the same inbox.

Nothing orders the two.  An OPEN that is looked up before the engine has handled the Subscribe is refused, and
one that is looked up between the binding and the post reaches the channel before its peer is a member
(`open_overtakes_subscribe`).  If the engine is done with the Subscribe when the OPEN is looked up, the inbox
keeps the order: at every OPEN in it, the changes before it make the peer a member (`Admits`, kept by
`openInv_step`), so the OPEN is merged (`open_is_taken`).
-/
import EthP2P.Broadcast.Streams
import EthP2P.Rs.Knowledge

namespace EthP2P.Broadcast

open Lib Wire Channel List

variable {S C R P : Type}

/-! ## The members a channel will have -/

namespace Channel

variable {sch : Scheme S C R P} {luck : Nat → Chance} {x : Channel S} {m : MessageID} {p : PeerID}

/-- What an event makes of the members. -/
def follow (members : PeerID → Option ConnRef) (evt : Event S) : PeerID → Option ConnRef :=
  exec applyChange members (changes evt)

/-- An OPEN of `p` for `m` finds `p` among the members. -/
def Admits (m : MessageID) (p : PeerID) (members : PeerID → Option ConnRef) : Event S → Prop
  | .sessionOpen q msg => q = p → msg.objectId = m → members p ≠ none
  | _ => True

theorem exec_follow (members : PeerID → Option ConnRef) (inbox : List (Event S)) :
    exec follow members inbox = exec applyChange members (inbox.flatMap changes) := by
  induction inbox generalizing members with
  | nil => rfl
  | cons evt inbox ih => rw [exec_cons, ih, flatMap_cons, exec_append, follow]

/-- The members once the inbox is empty. -/
def expected (x : Channel S) : PeerID → Option ConnRef := exec follow x.members.get x.world.inbox

/-- Every OPEN of `p` for `m` in the inbox will find `p` among the members. -/
def Orderly (x : Channel S) (m : MessageID) (p : PeerID) : Prop :=
  Along follow (Admits m p) x.members.get x.world.inbox

/-- Events that neither change the members nor open anything keep the order. -/
theorem follow_plain {new : List (Event S)} (hchanges : ∀ e ∈ new, changes e = [])
    (members : PeerID → Option ConnRef) : exec follow members new = members := by
  rw [exec_follow, flatMap_changes_nil hchanges]
  rfl

theorem admits_plain {new : List (Event S)} (hnew : ∀ e ∈ new, ∀ q msg, e ≠ .sessionOpen q msg)
    (members : PeerID → Option ConnRef) : Along follow (Admits m p) members new := by
  induction new generalizing members with
  | nil => trivial
  | cons e new ih =>
    refine ⟨?_, ih (fun e' he' => hnew e' (mem_cons_of_mem _ he')) _⟩
    cases e with
    | sessionOpen q msg => exact absurd rfl (hnew _ mem_cons_self q msg)
    | _ => trivial

/-- What a step of the channel's own system leaves of the order in its inbox. -/
structure Keeps (x y : Channel S) (m : MessageID) (p : PeerID) : Prop where
  stopped : x.phase = .stopped → y.phase = .stopped
  expected : y.phase ≠ .stopped → y.expected = x.expected
  order : x.Orderly m p → y.Orderly m p

theorem Keeps.refl (x : Channel S) (m : MessageID) (p : PeerID) : Keeps x x m p := ⟨id, fun _ => rfl, id⟩

theorem keeps_next (x : Channel S) (m : MessageID) (p : PeerID) : Keeps x (x.next sch luck) m p := by
  cases hdue : x.due with
  | none =>
    rw [next_of_none hdue]
    exact .refl x m p
  | some evt =>
    obtain ⟨rest, hinbox, hrun, hnext⟩ := next_of_some sch luck hdue
    have hmembers : (x.next sch luck).members.get = follow x.members.get evt := by
      rw [hnext, members_handle]
      rfl
    have hrest : (x.next sch luck).world.inbox = rest := by
      rw [hnext, inbox_handle]
      rfl
    refine ⟨fun hstop => ?_, fun _ => ?_, fun horder => ?_⟩
    · rw [hrun] at hstop
      cases hstop
    · unfold expected
      rw [hmembers, hrest, hinbox, exec_cons]
    unfold Orderly at horder ⊢
    rw [hinbox] at horder
    rw [hmembers, hrest]
    exact horder.2

theorem keeps_step {op : Op S} (hop : Node.replaced op = false) (x : Channel S) (m : MessageID) (p : PeerID) :
    Keeps x (x.step sch luck op) m p := by
  by_cases hnext : op = .next
  · subst hnext
    exact keeps_next x m p
  obtain ⟨_, hmembers, _⟩ := step_frame sch luck hnext x
  by_cases hclose : op = .closeAll
  · subst hclose
    have hinbox : (x.step sch luck .closeAll).world.inbox = x.world.inbox := inbox_closeAll luck x
    refine ⟨(stopped_closeAll luck x).mpr, fun _ => ?_, fun horder => ?_⟩
    · unfold expected
      rw [hmembers, hinbox]
    unfold Orderly
    rw [hmembers, hinbox]
    exact horder
  by_cases hfinish : op = .finish
  · subst hfinish
    show Keeps x x.finish m p
    unfold finish
    split
    · refine ⟨fun _ => rfl, fun hrun => absurd rfl hrun, fun _ => ?_⟩
      show Along follow (Admits m p) x.members.get []
      trivial
    · exact .refl x m p
  obtain ⟨new, hkind, happends⟩ := posts_step sch luck hnext hclose hfinish x
  have hplain : ∀ e ∈ new, changes e = [] ∧ ∀ q msg, e ≠ .sessionOpen q msg := by
    intro e he
    rcases hkind e he with ⟨rfl, _⟩ | hinternal
    · cases e with
      | peerChange _ | sessionOpen _ _ | chunkStream _ => cases hop
      | _ => exact ⟨rfl, nofun⟩
    refine ⟨changes_of_internal hinternal, ?_⟩
    rintro q msg rfl
    exact hinternal
  refine ⟨fun hstop => happends.phase.trans hstop, fun _ => ?_, fun horder => ?_⟩
  · unfold expected
    rw [hmembers, happends.inbox, exec_append, follow_plain fun e he => (hplain e he).1]
  unfold Orderly
  rw [hmembers, happends.inbox]
  exact Along.append_iff.mpr ⟨horder, admits_plain (fun e he => (hplain e he).2) _⟩

/-- An event arrives in the inbox. -/
theorem post_cases (evt : Event S) (x : Channel S) :
    x.post evt = x ∨ (x.post evt).world.inbox = x.world.inbox ++ [evt] ∧ (x.post evt).members = x.members ∧
      (x.post evt).phase = x.phase := by
  unfold post
  split
  · exact .inr ⟨rfl, rfl, rfl⟩
  · exact .inl rfl

variable {evt : Event S}

theorem Orderly.post (hx : x.Orderly m p) (hevt : Admits m p x.expected evt) : (x.post evt).Orderly m p := by
  rcases post_cases evt x with hsame | ⟨hinbox, hmembers, _⟩
  · rw [hsame]
    exact hx
  unfold Orderly
  rw [hinbox, hmembers]
  exact Along.append_iff.mpr ⟨hx, hevt, trivial⟩

theorem expected_post (evt : Event S) (x : Channel S) :
    (x.post evt).expected = x.expected ∨ (x.post evt).expected = follow x.expected evt := by
  rcases post_cases evt x with hsame | ⟨hinbox, hmembers, _⟩
  · rw [hsame]
    exact .inl rfl
  refine .inr ?_
  unfold expected
  rw [hinbox, hmembers, exec_append]
  rfl

theorem JoinInv.post (hx : x.JoinInv m p)
    (hevt : ∀ c, evt = .peerChange ⟨p, some c⟩ → (x.world.conns c).id = p) : (x.post evt).JoinInv m p := by
  unfold Channel.post
  split
  · refine ⟨hx.named, fun c hc => (hx.joined c hc).of_same rfl, fun c hc => ?_⟩
    rcases mem_append.mp hc with hc | hc
    · exact hx.inbox c hc
    · exact hevt c (mem_singleton.mp hc).symm
  · exact hx

theorem Descends.post {vouched : Prop} (hx : x.Descends sch vouched)
    (hevt : Vouches sch vouched evt) : (x.post evt).Descends sch vouched := by
  unfold Channel.post
  split
  · refine ⟨hx.lineage.of_same rfl, fun e he => ?_⟩
    rcases mem_append.mp he with he | he
    · exact hx.inbox e he
    · rw [mem_singleton.mp he]
      exact hevt
  · exact hx

end Channel

/-! ## The node -/

namespace Node

variable {sch : ChannelRef → Scheme S C R P} {luck : ChannelRef → Nat → Chance}
  {names : ChannelRef → ChannelID} {ids : ConnRef → PeerID} {n : Node S} {t : ChannelRef} {m : MessageID}
  {p : PeerID}

/-- The OPENs of `p` for message `m` of channel `t`, while the channel runs: those that wait in the inbox are in
order, and those that a reader holds will be. -/
structure OpenInv (ids : ConnRef → PeerID) (t : ChannelRef) (m : MessageID) (p : PeerID) (n : Node S) :
    Prop where
  order : (n.channels t).phase ≠ .stopped → (n.channels t).Orderly m p
  held : ∀ c msg, (c, t, msg) ∈ n.opens → ids c = p → msg.objectId = m →
    (n.channels t).phase ≠ .stopped → (n.channels t).expected p ≠ none

/-- The conditions on the steps that concern the OPENs of `p` for message `m` of channel `t`.  When a reader
looks up the channel, the engine has taken the subscription of the reader's connection, which is the peer's, and
has no change of `p` left to send to the channel.  While a reader holds such an OPEN, the engine sends no
unbinding of `p` to the channel.  When a SESS stream of `p` for `m` ends, the session ends. -/
def Heeds (ids : ConnRef → PeerID) (t : ChannelRef) (m : MessageID) (p : PeerID) (n : Node S) : NodeOp S → Prop
  | .sessOpen c id msg => ids c = p → msg.objectId = m →
      n.sys.engine.channels.get id = some t ∨ n.sys.engine.channelInboxFor c id = some t →
      (∀ e ∈ n.sys.engine.posted.drop n.sent, e.1 = t → e.2.peerID ≠ p) ∧
        n.sys.engine.peers.get p = some c ∧ n.sys.engine.subscribes c id = true
  | .deliver => (n.sys.engine.posted.drop n.sent).head? = some (t, ⟨p, none⟩) →
      ∀ o ∈ n.opens, o.2.1 = t → ids o.1 = p → o.2.2.objectId ≠ m
  | .channel t' op => t' = t → (n.channels t).Lasts m p op
  | _ => True

instance (n : Node S) : (op : NodeOp S) → Decidable (n.Heeds ids t m p op)
  | .sessOpen _ _ _ => inferInstanceAs (Decidable (_ → _ → _ → _))
  | .deliver => inferInstanceAs (Decidable (_ → _))
  | .channel t' op => inferInstanceAs (Decidable (t' = t → (n.channels t).Lasts m p op))
  | .engine _ | .enqueueStream _ _ | .chunk _ _ | .sessSend _ _ _ | .sessQuit _ _ _ =>
    inferInstanceAs (Decidable True)

/-! ### What a reader finds -/

/-- For the readers of a peer's connection the lookup is that of the engine, among the subscriptions. -/
theorem lookup_eq (hn : NodeInv names ids n) {c : ConnRef} {id : ChannelID}
    (hpeer : n.sys.engine.peers.get p = some c) (hsub : n.sys.engine.subscribes c id = true) :
    n.sys.engine.channelInboxFor c id = n.sys.engine.channels.get id := by
  have hfound : n.sys.engine.channelInboxFor c id =
      if n.sys.engine.subscribes c id then n.sys.engine.channels.get id else none :=
    hn.engine.agree.routed p c hpeer id
  rw [hfound, if_pos hsub]

/-- Changes of other peers do not concern a peer. -/
theorem exec_applyChange_of_ne {changes : List ChannelPeerChange} (h : ∀ e ∈ changes, e.peerID ≠ p)
    (members : PeerID → Option ConnRef) : exec applyChange members changes p = members p := by
  induction changes generalizing members with
  | nil => rfl
  | cons e changes ih =>
    rw [exec_cons, ih (fun e' he' => h e' (mem_cons_of_mem _ he')), applyChange,
      Function.update_of_ne (h e mem_cons_self).symm]

/-- Once the engine has sent what it posted about a peer, a channel will have it as a member if it subscribes. -/
theorem expected_of_sent (hn : NodeInv names ids n)
    (hsent : ∀ e ∈ n.sys.engine.posted.drop n.sent, e.1 = t → e.2.peerID ≠ p) {id : ChannelID}
    (ht : n.sys.engine.channels.get id = some t) (hrun : (n.channels t).phase ≠ .stopped) :
    (n.channels t).expected p = (n.sys.engine.peers.get p).filter (n.sys.engine.subscribes · id) := by
  obtain ⟨handled, hlog, hget⟩ := (hn.follows t).handled hrun
  have hunsent : ∀ e ∈ logOf t (n.sys.engine.posted.drop n.sent), e.peerID ≠ p :=
    fun e he => hsent (t, e) (mem_logOf.mp he) rfl
  have hafter : membersAfter n.sys.engine.posted t p = (n.channels t).expected p := by
    unfold membersAfter expected
    rw [hlog, exec_follow, hget, ← append_assoc, exec_append, exec_applyChange_of_ne hunsent, exec_append]
  rw [← hafter]
  exact hn.engine.agree.members id t ht p

theorem opens_readerStep (c : ConnRef) (st : ChunkStep) (rd : ChunkReader) (n : Node S) :
    (n.readerStep c st rd).opens = n.opens := by
  unfold readerStep
  split
  · rfl
  · split
    · rfl
    · unfold route
      split <;> rfl
  · split <;> rfl
  · split <;> rfl
  · split <;> rfl
  · rfl

theorem opens_chunk (c : ConnRef) (st : ChunkStep) (n : Node S) : (n.chunk c st).opens = n.opens := by
  have hreader : ∀ (rd : ChunkReader) (st : ChunkStep),
      (if rd ∈ (n.intake c).readers then n.readerStep c st rd else n).opens = n.opens := by
    intro rd st
    split
    · exact opens_readerStep c st rd n
    · rfl
  unfold Node.chunk
  cases st with
  | start =>
    dsimp only
    split <;> rfl
  | pop | acquire | refuse =>
    dsimp only
    split
    · rfl
    · split <;> rfl
  | endLoop =>
    dsimp only
    split <;> rfl
  | close =>
    dsimp only
    split
    · exact foldl_same (f := fun (n : Node S) s => n.cancelRead s .unspecified) (fun n : Node S => n.opens)
        (fun _ _ => rfl) (n.intake c).queue n
    · rfl
  | fail rd _ | route rd _ | send rd | giveUp rd | recheck rd => exact hreader rd _

/-- The OPENs that the SESS readers hold: one is added by a lookup, and one leaves when it is sent or when its
reader gives up. -/
theorem opens_cases (sch : ChannelRef → Scheme S C R P) (luck : ChannelRef → Nat → Chance)
    (names : ChannelRef → ChannelID) (ids : ConnRef → PeerID) (n : Node S) (op : NodeOp S) :
    (n.step sch luck names ids op).opens = n.opens ∨
    (∃ c id msg t, op = .sessOpen c id msg ∧ n.sys.engine.channelInboxFor c id = some t ∧
      (n.step sch luck names ids op).opens = n.opens ++ [(c, t, msg)]) ∨
    ∃ o : ConnRef × ChannelRef × SessOpen, (n.step sch luck names ids op).opens = n.opens.erase o ∧
      (((n.channels o.2.1).world.ctxDone || n.connEnded o.1) = true ∨
        ((n.step sch luck names ids op).channels o.2.1).world.inbox =
          (n.channels o.2.1).world.inbox ++ [.sessionOpen (ids o.1) o.2.2]) := by
  cases op with
  | sessOpen c id msg =>
    show (n.sessOpen c id msg).opens = _ ∨ (∃ c' id' msg' t, _ ∧ _ ∧ (n.sessOpen c id msg).opens = _) ∨ _
    unfold sessOpen
    split
    · exact .inl rfl
    · rename_i t hfound
      exact .inr (.inl ⟨c, id, msg, t, rfl, hfound, rfl⟩)
  | sessSend c t msg =>
    show (n.sessSend ids c t msg).opens = _ ∨ _ ∨ ∃ o, (n.sessSend ids c t msg).opens = _ ∧
      (_ ∨ ((n.sessSend ids c t msg).channels _).world.inbox = _)
    unfold sessSend
    split
    · rename_i hopen
      refine .inr (.inr ⟨(c, t, msg), rfl, .inr ?_⟩)
      show ((n.onChannel t (·.post (.sessionOpen (ids c) msg))).channels t).world.inbox = _
      rw [onChannel_self, post, if_pos hopen.2]
      rfl
    · exact .inl rfl
  | sessQuit c t msg =>
    show (n.sessQuit c t msg).opens = _ ∨ _ ∨ ∃ o, (n.sessQuit c t msg).opens = _ ∧
      (_ ∨ ((n.sessQuit c t msg).channels _).world.inbox = _)
    unfold sessQuit
    split
    · rename_i hended
      exact .inr (.inr ⟨(c, t, msg), rfl, .inl hended⟩)
    · exact .inl rfl
  | engine op =>
    refine .inl ?_
    show (n.engine names ids op).opens = n.opens
    unfold engine
    split <;> rfl
  | deliver =>
    refine .inl ?_
    show n.deliver.opens = n.opens
    unfold deliver
    split
    · rfl
    split
    · rfl
    · split <;> rfl
  | enqueueStream c s =>
    refine .inl ?_
    show (n.enqueueStream c s).opens = n.opens
    unfold enqueueStream
    dsimp only
    split
    · rfl
    · split <;> rfl
  | chunk c st => exact .inl (opens_chunk c st n)
  | channel t op =>
    refine .inl ?_
    show (n.channel sch luck t op).opens = n.opens
    unfold channel
    split <;> rfl

/-! ### One step -/

variable {op : NodeOp S}

/-- A channel that has stopped stays so, whatever the node does. -/
theorem stopped_step (h : (n.channels t).phase = .stopped) :
    ((n.step sch luck names ids op).channels t).phase = .stopped := by
  rcases channels_step sch luck names ids n op t with hsame | ⟨evt, _, hpost⟩ | ⟨op', _, hop', hstep⟩
  · rw [hsame]
    exact h
  · rw [hpost]
    rcases post_cases evt (n.channels t) with hsame | ⟨_, _, hphase⟩
    · rw [hsame]
      exact h
    · rw [hphase]
      exact h
  · rw [hstep]
    exact (keeps_step hop' (n.channels t) "" "").stopped h

/-- The members that the channel will have include `p` for as long as a reader holds an OPEN of `p`. -/
theorem expected_step (hok : n.Heeds ids t m p op) {c : ConnRef} {msg : SessOpen}
    (hopen : (c, t, msg) ∈ n.opens) (hc : ids c = p) (hmsg : msg.objectId = m)
    (hrun : ((n.step sch luck names ids op).channels t).phase ≠ .stopped)
    (hexpected : (n.channels t).expected p ≠ none) :
    ((n.step sch luck names ids op).channels t).expected p ≠ none := by
  rcases channels_step sch luck names ids n op t with hsame | ⟨evt, hsends, hpost⟩ | ⟨op', _, hop', hstep⟩
  · rw [hsame]
    exact hexpected
  · rw [hpost]
    rcases expected_post evt (n.channels t) with hsame | hfollow
    · rw [hsame]
      exact hexpected
    rw [hfollow]
    cases hsends with
    | @change change rest hdrop =>
      obtain ⟨q, next⟩ := change
      show applyChange (n.channels t).expected ⟨q, next⟩ p ≠ none
      unfold applyChange
      by_cases hq : p = q
      · subst hq
        rw [Function.update_self]
        cases next with
        | some c' => exact Option.some_ne_none c'
        | none =>
          unfold Heeds at hok
          rw [hdrop] at hok
          exact absurd hmsg (hok rfl _ hopen rfl hc)
      · rw [Function.update_of_ne hq]
        exact hexpected
    | stream e | opened _ => exact hexpected
  · rw [hstep] at hrun ⊢
    rw [(keeps_step hop' (n.channels t) m p).expected hrun]
    exact hexpected

/-- **One step** keeps the OPENs in order. -/
theorem openInv_step (hn : NodeInv names ids n) (hinv : OpenInv ids t m p n)
    (hok : n.Heeds ids t m p op) : OpenInv ids t m p (n.step sch luck names ids op) := by
  refine ⟨fun hrun => ?_, fun c msg hopen hc hmsg hrun => ?_⟩
  · have hbefore : (n.channels t).phase ≠ .stopped := fun h => hrun (stopped_step h)
    rcases channels_step sch luck names ids n op t with hsame | ⟨evt, hsends, hpost⟩ | ⟨op', _, hop', hstep⟩
    · rw [hsame]
      exact hinv.order hbefore
    · rw [hpost]
      refine (hinv.order hbefore).post ?_
      cases hsends with
      | change _ | stream e => trivial
      | @opened _ c msg hopen => exact fun hc hmsg => hinv.held c msg hopen hc hmsg hbefore
    · rw [hstep]
      exact (keeps_step hop' (n.channels t) m p).order (hinv.order hbefore)
  have hbefore : (n.channels t).phase ≠ .stopped := fun h => hrun (stopped_step h)
  have hkept : (c, t, msg) ∈ n.opens → ((n.step sch luck names ids op).channels t).expected p ≠ none :=
    fun hold => expected_step hok hold hc hmsg hrun (hinv.held c msg hold hc hmsg hbefore)
  rcases opens_cases sch luck names ids n op with hsame | ⟨c', id, msg', t', rfl, hfound, hadd⟩ | ⟨o, herase, _⟩
  · exact hkept (hsame ▸ hopen)
  · rw [hadd] at hopen
    rcases mem_append.mp hopen with hold | hnew
    · exact hkept hold
    -- the lookup itself: the engine has sent what it posted about the peer
    obtain ⟨rfl, rfl, rfl⟩ : c = c' ∧ t = t' ∧ msg = msg' := by simpa using hnew
    obtain ⟨hsent, hpeer, hsub⟩ := hok hc hmsg (.inr hfound)
    have ht : n.sys.engine.channels.get id = some t := by
      rw [← lookup_eq hn hpeer hsub]
      exact hfound
    have hsame : (n.step sch luck names ids (.sessOpen c id msg)).channels t = n.channels t := by
      show (n.sessOpen c id msg).channels t = n.channels t
      unfold sessOpen
      split <;> rfl
    rw [hsame, expected_of_sent hn hsent ht hbefore, hpeer, Option.filter_some, if_pos hsub]
    exact Option.some_ne_none c
  · rw [herase] at hopen
    exact hkept (mem_of_mem_erase hopen)

/-- What `open_known` needs of a channel of a node. -/
structure Prepared (sch : Scheme S C R P) (m : MessageID) (p : PeerID) (x : Channel S) : Prop where
  join : x.JoinInv m p
  descends : x.Descends sch True

theorem Prepared.post {sch : Scheme S C R P} {x : Channel S} (hx : Prepared sch m p x) {evt : Event S}
    (hnamed : ∀ c, evt = .peerChange ⟨p, some c⟩ → (x.world.conns c).id = p)
    (hvouches : Vouches sch True evt) : Prepared sch m p (x.post evt) :=
  ⟨hx.join.post hnamed, hx.descends.post hvouches⟩

theorem prepared_step (hn : NodeInv names ids n)
    (hx : Prepared (sch t) m p (n.channels t)) (hok : n.Heeds ids t m p op) :
    Prepared (sch t) m p ((n.step sch luck names ids op).channels t) := by
  rcases channels_step sch luck names ids n op t with hsame | ⟨evt, hsends, hpost⟩ | ⟨op', rfl, _, hstep⟩
  · rw [hsame]
    exact hx
  · rw [hpost]
    cases hsends with
    | @change change rest hdrop =>
      refine hx.post ?_ trivial
      rintro c hevt
      obtain rfl : change = ⟨p, some c⟩ := Event.peerChange.inj hevt
      rw [(hn.follows t).ids]
      have hmem : (t, ⟨p, some c⟩) ∈ n.sys.engine.posted :=
        mem_of_mem_drop (hdrop ▸ mem_cons_self)
      exact (hn.engine.proper t).named _ (mem_logOf.mpr hmem) c rfl
    | stream e | opened _ => exact hx.post nofun trivial
  · rw [hstep]
    exact ⟨joinInv_step op' hx.join (hok rfl), descends_step hx.descends (unwatched_true op')⟩

variable (subs : ChannelRef → Option Subscription)

theorem openInv_init : OpenInv ids t m p (init names ids subs : Node S) :=
  ⟨fun _ => trivial, fun _ _ h => absurd h not_mem_nil⟩

theorem prepared_init : Prepared (sch t) m p ((init names ids subs : Node S).channels t) := by
  refine ⟨joinInv_init m p (names t) ids (subs t), fun k sess hget => ?_, fun e he => ?_⟩
  · cases hget
  · exact absurd he not_mem_nil

end Node

end EthP2P.Broadcast

/-! ## The OPEN of a subscriber -/

namespace EthP2P.Rs

open Lib Wire Broadcast

/-- **The OPEN of a subscriber reaches the channel and is merged**, in every run in which each lookup for an
OPEN of `p` for `m` comes after the engine is done with the Subscribe, no unbinding overtakes an OPEN that a
reader holds, and a SESS stream of `p` for `m` ends only with the session.  Such a lookup is not refused; the
OPEN then leaves its reader only into the channel's inbox, unless the context of the channel or of the connection
has ended; and when the channel handles it, with a session there or with a preamble that is accepted, the opener
is attached to the session and the strategy knows every chunk of the initial update. -/
theorem open_is_taken (env : Env) (hR : env.reedSolomon.Fills) (ident : ProtoCodec Int)
    (codec : ProtoCodec PbPreamble) (configs : ChannelRef → Config) (luck : ChannelRef → Nat → Chance)
    (names : ChannelRef → ChannelID) (ids : ConnRef → PeerID) (subs : ChannelRef → Option Subscription)
    (t : ChannelRef) (m : MessageID) (p : PeerID) (ops : List (NodeOp State))
    (hops : Along (Node.step (fun t => scheme env ident codec (configs t)) luck names ids)
      (Node.Heeds ids t m p) (Node.init names ids subs) ops) :
    let sch := fun t => scheme env ident codec (configs t)
    let n := exec (Node.step sch luck names ids) (Node.init names ids subs) ops
    (∀ c id msg, ids c = p → msg.objectId = m → n.sys.engine.channels.get id = some t →
      n.Heeds ids t m p (.sessOpen c id msg) →
      n.step sch luck names ids (.sessOpen c id msg) = { n with opens := n.opens ++ [(c, t, msg)] }) ∧
    (∀ c msg op, (c, t, msg) ∈ n.opens → (c, t, msg) ∉ (n.step sch luck names ids op).opens →
      (n.channels t).world.ctxDone = true ∨ n.connEnded c = true ∨
      ((n.step sch luck names ids op).channels t).world.inbox =
        (n.channels t).world.inbox ++ [.sessionOpen (ids c) msg]) ∧
    ∀ msg, msg.objectId = m → (n.channels t).due = some (.sessionOpen p msg) →
      (n.channels t).Accepts (sch t) (luck t) msg →
      ∃ sess, ((n.step sch luck names ids (.channel t .next)).channels t).sessions.get m = some sess ∧
        (sess.peers.get p).isSome = true ∧ sess.strategy.Knows p msg.initialUpdate := by
  intro sch n
  have hinv : Node.NodeInv names ids n ∧ Node.OpenInv ids t m p n ∧ Node.Prepared (sch t) m p (n.channels t) := by
    refine hops.invariant (I := fun n : Node State => Node.NodeInv names ids n ∧ Node.OpenInv ids t m p n ∧
      Node.Prepared (sch t) m p (n.channels t)) ?_
      ⟨Node.nodeInv_init subs, Node.openInv_init subs, Node.prepared_init subs⟩
    rintro n op ⟨hn, hopen, hprep⟩ hok
    exact ⟨hn.step op, Node.openInv_step hn hopen hok, Node.prepared_step hn hprep hok⟩
  obtain ⟨hn, hopen, hprep⟩ := hinv
  refine ⟨fun c id msg hc hmsg ht hok => ?_, fun c msg op hheld hleft => ?_, ?_⟩
  · obtain ⟨_, hpeer, hsub⟩ := hok hc hmsg (.inl ht)
    show n.sessOpen c id msg = _
    unfold Node.sessOpen
    rw [Node.lookup_eq hn hpeer hsub, ht]
  · rcases Node.opens_cases sch luck names ids n op with hsame | ⟨_, _, _, _, _, _, hadd⟩ | ⟨o, herase, hwhy⟩
    · exact absurd (hsame ▸ hheld) hleft
    · exact absurd (hadd ▸ List.mem_append_left _ hheld) hleft
    obtain rfl : o = (c, t, msg) := by
      by_contra hne
      exact hleft (herase ▸ (List.mem_erase_of_ne (Ne.symm hne)).mpr hheld)
    rcases hwhy with hended | hsent
    · rcases Bool.or_eq_true_iff.mp hended with h | h
      · exact .inl h
      · exact .inr (.inl h)
    · exact .inr (.inr hsent)
  · rintro msg rfl hdue haccepts
    obtain ⟨rest, hinbox, hrun, _⟩ := Channel.next_of_some (sch t) (luck t) hdue
    have hmember : (n.channels t).members.get p ≠ none := by
      have horder := hopen.order (fun h => nomatch hrun.symm.trans h)
      unfold Channel.Orderly at horder
      rw [hinbox] at horder
      exact horder.1 rfl rfl
    obtain ⟨c, hc⟩ := Option.ne_none_iff_exists'.mp hmember
    have hstep : (n.step sch luck names ids (.channel t .next)).channels t =
        (n.channels t).next (sch t) (luck t) := Node.onChannel_self t (·.step (sch t) (luck t) .next) n
    rw [hstep]
    exact open_known hR hprep.join hprep.descends.lineage hdue hc haccepts

/-- The OPEN of `a` is looked up and sent. -/
def opensMessage : List (NodeOp State) :=
  [.sessOpen 0 "c" ⟨"m", [1], [2]⟩, .sessSend 0 0 ⟨"m", [1], [2]⟩]

/-- `a` opens the message while the channel has still to be told of `b`. -/
def opensMeanwhile : List (NodeOp State) :=
  Node.bothSubscribed ++ .engine (.subscribed 1 "c") :: opensMessage

theorem open_is_taken_duo :
    ∃ sess, ((Node.duoRun (opensMeanwhile ++ [.channel 0 .next])).channels 0).sessions.get "m" =
      some sess ∧ (sess.peers.get "a").isSome = true ∧ sess.strategy.Knows "a" [2] := by
  have hops : Along (Node.step (fun _ => copiesScheme) (fun _ => Channel.storedChance) Node.duoNames Node.duoIDs)
      (Node.Heeds Node.duoIDs 0 "m" "a") Node.duoInit opensMeanwhile := by
    decide +kernel
  have hdue : ((Node.duoRun opensMeanwhile).channels 0).due = some (.sessionOpen "a" ⟨"m", [1], [2]⟩) := by
    rfl
  have haccepts : ((Node.duoRun opensMeanwhile).channels 0).Accepts copiesScheme
      Channel.storedChance ⟨"m", [1], [2]⟩ := by
    have hrelay : ((copiesScheme.preamble.unmarshal [1]).bind (copiesScheme.newRelay
        (Channel.storedChance ((Node.duoRun opensMeanwhile).channels 0).world.tick).seed)).isSome = true := by
      decide +kernel
    obtain ⟨strategy, hstrategy⟩ := Option.isSome_iff_exists.mp hrelay
    obtain ⟨pre, hpre, hnew⟩ := Option.bind_eq_some_iff.mp hstrategy
    exact .inr ⟨pre, strategy, hpre, hnew⟩
  unfold Node.duoRun Node.duoInit at *
  rw [exec_append]
  exact (open_is_taken copies repetition_fills byteCodec copiesCodec (fun _ => fourBytes) _ _ _ _ 0 "m" "a" _
    hops).2.2 ⟨"m", [1], [2]⟩ rfl hdue haccepts

/-- The remote has no subscription yet when the connection is up. -/
def attached : List (NodeOp State) :=
  [.engine (.addChannel (.stored _) "c" 0), .engine (.peerUp (.stored _) 0 "a" true),
    .engine (.handshake (.stored _) 0 [])]

/-- Two orders of a Subscribe and an OPEN.  In the first the OPEN is looked up before the engine has handled the
Subscribe: it is refused, and with everything handled there is no session.  In the second it is looked up when
the engine has bound the peer but not yet told the channel: the OPEN is handled first, for a peer that is no
member, and with everything handled the peer is attached to a session that knows nothing of its update. -/
theorem open_overtakes_subscribe :
    let early := Node.duoRun (attached ++ [.sessOpen 0 "c" ⟨"m", [1], [2]⟩, .engine (.subscribed 0 "c"), .deliver,
      .channel 0 .next])
    let between := Node.duoRun (attached ++ .engine (.subscribed 0 "c") :: opensMessage ++ [.deliver,
      .channel 0 .next, .channel 0 .next])
    (early.refused = [(0, "c", ⟨"m", [1], [2]⟩)] ∧ (early.channels 0).members.get "a" = some 0 ∧
      (early.channels 0).world.inbox.length = 0 ∧ early.engineFree = true ∧
      ((early.channels 0).sessions.get "m").isNone = true) ∧
    (between.refused = [] ∧ (between.channels 0).world.inbox.length = 0 ∧ between.engineFree = true ∧
      ((between.channels 0).sessions.get "m").map (fun sess =>
        ((sess.peers.get "a").isSome, (sess.strategy.peers.get "a").map (·.bitmap))) = some (true, some [0])) := by
  decide +kernel

end EthP2P.Rs
