/-
# EthP2P.Stack.Succession — one handle of a peer after the other

A peer that reconnects gets a new handle in each family.  The family itself keeps the handles of one
peer apart in the consumer's eyes as soon as each new handle is added only when the earlier ones are
closed: a closed handle has no streams left, so the next time the ring reaches it its `PeerDown` is
returned, and it entered the ring before its successor.  `Succession` is that argument as an
invariant; `peerUp_between` reads it off as an order of the returned events.
-/
import EthP2P.Stack.Delivery

namespace EthP2P.Stack.Delivery

open Lib Wire

variable {x : Delivery}

/-- The handles of a peer are closed. -/
def AllDown (x : Delivery) (id : PeerID) : Prop :=
  ∀ h d, x.family.deliveries.get h = some d → d.peer = id → d.down = true

/-- A handle is added for a peer only when its earlier handles are closed. -/
def OneOpen (x : Delivery) : DeliveryOp → Prop
  | .addPeer id => x.AllDown id
  | _ => True

/-- The handle `da` is closed; and while its `PeerDown` waits in the ring, `db` has not come up and
stands behind it. -/
def Precedes (da db : PeerDelivery) : Prop :=
  da.down = true ∧ ∀ ta, da.ready = some ta → db.up = false ∧ ∀ tb, db.ready = some tb → ta < tb

/-- Of two handles `a < b` of one peer, `a` precedes. -/
def Succession (x : Delivery) : Prop :=
  ∀ a b da db, a < b → x.family.deliveries.get a = some da → x.family.deliveries.get b = some db →
    da.peer = db.peer → Precedes da db

variable {d da : PeerDelivery} {h k a : HandleRef} {t : Nat} {x' : Delivery}

section

variable (hinv : Inv x)
include hinv

theorem Inv.ready_lt (hd : x.family.deliveries.get h = some d) (ht : d.ready = some t) : t < x.family.ready.next :=
  x.family.ready.bound (t, h) ((hinv.seated.self hd t).mpr ht)

/-- A closed handle has no pending stream. -/
theorem Inv.streams_of_down
    (hd : x.family.deliveries.get h = some d) (hdown : d.down = true) : d.streams = [] := by
  obtain ⟨rs, told, hself, _⟩ := hinv.handles h d hd
  exact hself.closed hdown

/-- The front of the ring is ahead of every other handle in it. -/
theorem Inv.front_le {t' : Nat}
    (hfront : x.family.ready.front = some (t, k)) (hd : x.family.deliveries.get h = some d)
    (ht' : d.ready = some t') : t ≤ t' := by
  by_cases heq : t' = t
  · exact Nat.le_of_eq heq.symm
  · exact Nat.le_of_lt (Lib.Ring.front_lt hfront ((hinv.seated.self hd t').mpr ht') heq)

section

variable (hs : x.Succession)
include hs

theorem succession_added {id : PeerID} (hall : x.AllDown id) (hget : ∀ h, x'.family.deliveries.get h =
      if h = x.nextHandle then some { peer := id, ready := some x.family.ready.next }
      else x.family.deliveries.get h) : x'.Succession := by
  intro a b da db hab ha hb hpeer
  have hane : a ≠ x.nextHandle := by
    rintro rfl
    -- the new handle is the youngest, so it is no one's predecessor
    have hbne : b ≠ x.nextHandle := Nat.ne_of_gt hab
    rw [hget, if_neg hbne] at hb
    exact Nat.lt_asymm hab (hinv.lt_nextHandle hb)
  rw [hget, if_neg hane] at ha
  by_cases hbn : b = x.nextHandle
  · rw [hget, if_pos hbn] at hb
    cases hb
    refine ⟨hall a da ha hpeer, fun ta hta => ⟨rfl, fun tb htb => ?_⟩⟩
    have hlt := hinv.ready_lt ha hta
    rw [← Option.some.inj htb]
    exact hlt
  · rw [hget, if_neg hbn] at hb
    exact hs a b da db hab ha hb hpeer

section

variable {d' : PeerDelivery} (hd : x.family.deliveries.get k = some d)
  (hget : ∀ h, x'.family.deliveries.get h = if h = k then some d' else x.family.deliveries.get h)
  (hpeer' : d'.peer = d.peer)

include hd hget hpeer'

omit hinv in
/-- One handle changes, and keeps its place before its successors and after its predecessors. -/
theorem succession_replaced (hfirst : ∀ db, Precedes d db → Precedes d' db)
    (hsecond : ∀ a da, x.family.deliveries.get a = some da → Precedes da d → Precedes da d') :
    x'.Succession := by
  intro a b da db hab ha hb hpeer
  rw [hget] at ha hb
  by_cases hak : a = k
  · subst hak
    rw [if_pos rfl] at ha
    rw [if_neg (Nat.ne_of_gt hab)] at hb
    cases ha
    exact hfirst db (hs a b d db hab hd hb (hpeer'.symm.trans hpeer))
  rw [if_neg hak] at ha
  by_cases hbk : b = k
  · subst hbk
    rw [if_pos rfl] at hb
    cases hb
    exact hsecond a da ha (hs a b da d hab ha hd (hpeer.trans hpeer'))
  · rw [if_neg hbk] at hb
    exact hs a b da db hab ha hb hpeer

theorem succession_changed (hopen : d.down = false) (hup : d'.up = d.up)
    (hready : ∀ t, d'.ready = some t → d.ready = some t ∨ t = x.family.ready.next) : x'.Succession := by
  refine succession_replaced hs hd hget hpeer' (fun db hpre => ?_) fun a da ha hpre => ⟨hpre.1, fun ta hta => ?_⟩
  · -- an open handle has no successor
    rw [hpre.1] at hopen
    cases hopen
  obtain ⟨hup', hbehind⟩ := hpre.2 ta hta
  refine ⟨hup.trans hup', fun tb htb => ?_⟩
  rcases hready tb htb with htb | rfl
  · exact hbehind tb htb
  · exact hinv.ready_lt ha hta

theorem succession_served (hfront : x.family.ready.front = some (t, k)) (hdown' : d'.down = d.down)
    (hready : d.up = true → d.streams = [] → d'.ready = none) : x'.Succession := by
  obtain ⟨ht, hlive⟩ := hinv.front_open_or_up hfront hd
  refine succession_replaced hs hd hget hpeer' (fun db hpre => ⟨hdown'.trans hpre.1, fun ta hta => ?_⟩)
    fun a da ha hpre => ⟨hpre.1, fun ta hta => ?_⟩
  · -- the predecessor is served: it is closed, so this was its `PeerDown` and it leaves the ring
    have hup : d.up = true := hlive.resolve_left (by rw [hpre.1]; nofun)
    rw [hready hup (hinv.streams_of_down hd hpre.1)] at hta
    cases hta
  · -- the successor is served: the predecessor is not ahead of it
    have hlt := (hpre.2 ta hta).2 t ht
    exact absurd (hinv.front_le hfront ha hta) (Nat.not_le_of_lt hlt)

end

theorem succession_step {op : DeliveryOp} (hop : x.OneOpen op) : (x.step op).Succession := by
  rcases moved_step x op with ⟨hget, _⟩ | ⟨id, rfl, hget, _⟩ |
    ⟨k, d, d', hd, hopen, hget, hpeer, hup, hready, _, _⟩ |
    ⟨k, d, d', t, e, hfront, hd, hget, hpeer, hdown, _, hready, _⟩
  · intro a b da db hab ha hb
    rw [hget] at ha hb
    exact hs a b da db hab ha hb
  · exact succession_added hinv hs hop hget
  · exact succession_changed hinv hs hd hget hpeer hopen hup hready
  · exact succession_served hinv hs hd hget hpeer hfront hdown hready

end

end

/-! ## The order of the returned events -/

/-- Between the `PeerUp` events of two handles of one peer stands the `PeerDown` of the first. -/
def InTurn (x : Delivery) : Prop :=
  ∀ pre mid post a b da db,
    x.returned = pre ++ (a, .peerUp) :: (mid ++ (b, .peerUp) :: post) → a ≠ b →
    x.family.deliveries.get a = some da → x.family.deliveries.get b = some db →
    da.peer = db.peer → ∃ code, (a, .peerDown code) ∈ mid

/-- A handle that came up and was told down got its `PeerDown` after its `PeerUp`. -/
theorem peerDown_after_peerUp {rs : List PendingStream} {code : Code} {pre mid : List Event}
    (h : eventsFor true rs true code = pre ++ .peerUp :: mid) : .peerDown code ∈ mid := by
  cases pre with
  | nil =>
    have hmid : mid = rs.map .streamIn ++ [.peerDown code] := by
      simpa [eventsFor] using h.symm
    simp [hmid]
  | cons e pre =>
    have htail : rs.map .streamIn ++ [.peerDown code] = pre ++ Event.peerUp :: mid := by
      simpa [eventsFor] using (List.cons.inj h).2
    have hmem : Event.peerUp ∈ rs.map .streamIn ++ [.peerDown code] := by
      rw [htail]
      simp
    simp at hmem

/-- When a handle comes up, every other handle of its peer that came up has been told down. -/
theorem told_of_comes_up (hinv : Inv x) (hs : x.Succession) (hfront : x.family.ready.front = some (t, k))
    (hd : x.family.deliveries.get k = some d) (hup : d.up = false) (hne : a ≠ k)
    (ha : x.family.deliveries.get a = some da) (hpeer : da.peer = d.peer) (haup : da.up = true) :
    ∃ rs, logOf a x.returned = eventsFor true rs true da.code := by
  obtain ⟨ht, hlive⟩ := hinv.front_open_or_up hfront hd
  have hopen : d.down = false := hlive.resolve_right (by rw [hup]; nofun)
  have hlt : a < k := by
    refine Nat.lt_of_le_of_ne (Nat.le_of_not_lt fun hka => ?_) hne
    have hdown := (hs k a d da hka hd ha hpeer.symm).1
    rw [hdown] at hopen
    cases hopen
  obtain ⟨hdown, hwait⟩ := hs a k da d hlt ha hd hpeer
  obtain ⟨rs, told, hself, hready⟩ := hinv.handles a da ha
  -- the predecessor is not in the ring: it would stand ahead of the front
  have hnone : da.ready.isSome = false := by
    cases hr : da.ready with
    | none => rfl
    | some ta =>
      have hlt := (hwait ta hr).2 t ht
      exact absurd (hinv.front_le hfront ha hr) (Nat.not_le_of_lt hlt)
  have htold : told = true := by
    cases ht : told with
    | true => rfl
    | false =>
      rw [hready.mpr (.inr ⟨haup, .inr ⟨hdown, ht⟩⟩)] at hnone
      cases hnone
  refine ⟨rs, ?_⟩
  rw [hself.history, haup, htold]

theorem up_of_peerUp_mem (hinv : Inv x)
    (ha : x.family.deliveries.get a = some da) (hmem : (a, .peerUp) ∈ x.returned) : da.up = true := by
  obtain ⟨rs, told, hself, _⟩ := hinv.handles a da ha
  have hlog : Event.peerUp ∈ logOf a x.returned := mem_logOf.mpr hmem
  cases hup : da.up with
  | true => rfl
  | false =>
    rw [hself.history, hup] at hlog
    cases hlog

/-- A handle with a returned event existed before the operation. -/
theorem record_of_event (hinv : Inv x) {op : DeliveryOp}
    {e : Event} (ha : (x.step op).family.deliveries.get a = some da) (hmem : (a, e) ∈ x.returned) :
    ∃ d, x.family.deliveries.get a = some d ∧ d.peer = da.peer := by
  rcases (moved_step x op).record_back ha with ⟨d, hd, hpeer, _⟩ | ⟨rfl, _⟩
  · exact ⟨d, hd, hpeer⟩
  have hlog := mem_logOf.mpr hmem
  rw [(hinv.fresh x.nextHandle le_rfl).2.1] at hlog
  cases hlog

/-- A step that returns nothing keeps the order, and so does one more event after the last
`PeerUp`. -/
theorem inTurn_of_earlier (hinv : Inv x) (hturn : x.InTurn) (op : DeliveryOp)
    {pre mid post : List (HandleRef × Event)} {b : HandleRef} {db : PeerDelivery}
    (hret : x.returned = pre ++ (a, .peerUp) :: (mid ++ (b, .peerUp) :: post)) (hne : a ≠ b)
    (ha : (x.step op).family.deliveries.get a = some da)
    (hb : (x.step op).family.deliveries.get b = some db) (hpeer : da.peer = db.peer) :
    ∃ code, (a, .peerDown code) ∈ mid := by
  obtain ⟨da', ha', hpa⟩ := record_of_event hinv ha (e := .peerUp) (by simp [hret])
  obtain ⟨db', hb', hpb⟩ := record_of_event hinv hb (e := .peerUp) (by simp [hret])
  exact hturn pre mid post a b da' db' hret hne ha' hb' (hpa.trans (hpeer.trans hpb.symm))

theorem inTurn_step (hinv : Inv x) (hs : x.Succession) (hturn : x.InTurn) (op : DeliveryOp) : (x.step op).InTurn := by
  intro pre mid post a b da db hret hne ha hb hpeer
  have hsame : (x.step op).returned = x.returned → ∃ code, (a, .peerDown code) ∈ mid :=
    fun h => inTurn_of_earlier hinv hturn op (h.symm.trans hret) hne ha hb hpeer
  rcases moved_step x op with ⟨_, hr⟩ | ⟨_, _, _, hr⟩ | ⟨_, _, _, _, _, _, _, _, _, _, hr⟩ |
    ⟨k, d, d', t, e, hfront, hd, hget, hpeer', _, hup, _, hr⟩
  · exact hsame hr
  · exact hsame hr
  · exact hsame hr
  rw [hr] at hret
  rcases List.eq_nil_or_concat post with rfl | ⟨post, last, rfl⟩
  · -- the second `PeerUp` is the event just returned
    have hsplit : x.returned ++ [(k, e)] = (pre ++ (a, .peerUp) :: mid) ++ [(b, .peerUp)] := by
      simpa using hret
    obtain ⟨hearlier, hlast⟩ := List.append_inj' hsplit rfl
    obtain ⟨rfl, rfl⟩ : k = b ∧ e = .peerUp := by simpa using hlast
    obtain ⟨da', ha', hpa⟩ := record_of_event hinv ha (e := .peerUp) (by simp [hearlier])
    have hpd : da'.peer = d.peer := by
      rw [hget, if_pos rfl] at hb
      cases hb
      rw [hpa, hpeer, hpeer']
    have haup := up_of_peerUp_mem hinv ha' (by simp [hearlier])
    obtain ⟨rs, hlog⟩ := told_of_comes_up hinv hs hfront hd (hup rfl) hne ha' hpd haup
    rw [hearlier, logOf_append, ← List.singleton_append, logOf_append, logOf_singleton, if_pos rfl] at hlog
    exact ⟨_, mem_logOf.mp (peerDown_after_peerUp hlog.symm)⟩
  · have hsplit : x.returned ++ [(k, e)] =
        (pre ++ (a, .peerUp) :: (mid ++ (b, .peerUp) :: post)) ++ [last] := by
      simpa using hret
    exact inTurn_of_earlier hinv hturn op (List.append_inj' hsplit rfl).1 hne ha hb hpeer

theorem succession_init (spec : FamilySpec) : (init spec).Succession :=
  fun _ _ _ _ _ ha => nomatch ha

theorem inTurn_init (spec : FamilySpec) : (init spec).InTurn := by
  intro pre mid post a b da db hret
  have hnil : ([] : List (HandleRef × Event)) = pre ++ (a, .peerUp) :: (mid ++ (b, .peerUp) :: post) :=
    hret
  simp at hnil

end EthP2P.Stack.Delivery
