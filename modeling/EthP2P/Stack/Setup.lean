/-
# EthP2P.Stack.Setup — registration, and what two stacks find they share

Before `Start` a stack collects its families (`family.go`); `Start` sorts their codes and fixes the Hello
that every view sends (`stack.go`).  A `Setup` carries what `Register` checks, so the list announced is
one that every peer's validation accepts, and the peer's binary search over it finds exactly the codes
registered (`sharedWith_localFamilies`).
-/
import Mathlib.Data.List.Sort
import EthP2P.Lib.BinarySearch
import EthP2P.Control.Hello
import EthP2P.Stack.Supervisor

namespace EthP2P.Stack

open Lib Wire Control List

/-- The errors of `Register` and `Start`. -/
inductive SetupError where
  | stackClosed
  | registrationClosed
  | alreadyStarted
  | noProtocols
  | noWakeCapacity
  | cannotRegister (code : UInt32)
  | tooManyFamilies
  | alreadyRegistered (code : UInt32)
  | notAscending
  | needsMaxQueued (protocol : Protocol)
  | hello (e : HelloError)
  deriving DecidableEq, Repr

/-- The loop of `Register` over the protocols, after a protocol `previous`. -/
def checkProtocols : Option Protocol → List ProtocolSpec → Except SetupError Unit
  | _, [] => .ok ()
  | previous, spec :: rest =>
    if previous.any (fun p => decide (spec.protocol ≤ p)) then .error .notAscending
    else if spec.maxQueued < 1 then .error (.needsMaxQueued spec.protocol)
    else checkProtocols (some spec.protocol) rest

theorem checkProtocols_spec {protocols : List ProtocolSpec} {previous : Option Protocol}
    (h : checkProtocols previous protocols = .ok ()) :
    (∀ p ∈ previous, ∀ spec ∈ protocols, p < spec.protocol) ∧
      (protocols.map (·.protocol)).Pairwise (· < ·) ∧ ∀ spec ∈ protocols, 1 ≤ spec.maxQueued := by
  induction protocols generalizing previous with
  | nil => simp
  | cons spec rest ih =>
    unfold checkProtocols at h
    split at h
    · cases h
    rename_i hasc
    split at h
    · cases h
    rename_i hmax
    obtain ⟨hhead, htail, hlimits⟩ := ih h
    have hhead' : ∀ s ∈ rest, spec.protocol < s.protocol := hhead spec.protocol rfl
    have hprev : ∀ p ∈ previous, p < spec.protocol := by
      intro p hp
      obtain rfl := Option.mem_def.mp hp
      simpa using hasc
    refine ⟨?_, ?_, ?_⟩
    · intro p hp s hs
      rcases mem_cons.mp hs with rfl | hs
      · exact hprev p hp
      · exact Nat.lt_trans (hprev p hp) (hhead' s hs)
    · rw [map_cons, pairwise_cons]
      refine ⟨?_, htail⟩
      intro q hq
      obtain ⟨s, hs, rfl⟩ := mem_map.mp hq
      exact hhead' s hs
    · intro s hs
      rcases mem_cons.mp hs with rfl | hs
      · omega
      · exact hlimits s hs

structure RegisteredFamily where
  code : UInt32
  spec : FamilySpec

/-- A stack's registration. -/
structure Setup where
  families : List RegisteredFamily := []
  distinct : (families.map (·.code)).Nodup := by simp
  served : ∀ f ∈ families, f.code ≠ Control.controlFamily ∧ f.code.toNat ≠ reservedFamily := by simp
  atMost : families.length ≤ maxFamilies := by simp
  /-- Fixed by `Start`. -/
  helloBytes : Option Bytes := none
  closed : Bool := false

/-- The arguments of `Register`; `wake` is the capacity of the channel, if there is one. -/
structure RegisterCall where
  code : UInt32
  protocols : List ProtocolSpec
  wake : Option Nat
  deriving DecidableEq, Repr

namespace Setup

/-- The codes registered, in the order of registration. -/
def codes (s : Setup) : List UInt32 := s.families.map (·.code)

/-- A family that passed the checks is appended. -/
def append (s : Setup) (f : RegisteredFamily)
    (hserved : ¬ (f.code = Control.controlFamily ∨ f.code.toNat = reservedFamily))
    (hroom : s.families.length ≠ maxFamilies) (hnew : ¬ s.families.any (·.code == f.code)) : Setup :=
  { s with
    families := s.families ++ [f]
    distinct := by
      rw [map_append, map_singleton]
      refine nodup_append.mpr ⟨s.distinct, nodup_singleton _, ?_⟩
      intro a ha b hb hab
      obtain ⟨g, hg, rfl⟩ := mem_map.mp ha
      obtain rfl := mem_singleton.mp hb
      exact hnew (any_eq_true.mpr ⟨g, hg, beq_iff_eq.mpr hab⟩)
    served := by
      intro g hg
      rcases mem_append.mp hg with hg | hg
      · exact s.served g hg
      · obtain rfl := mem_singleton.mp hg
        exact not_or.mp hserved
    atMost := by
      rw [length_append, length_singleton]
      exact Nat.succ_le_of_lt (Nat.lt_of_le_of_ne s.atMost hroom) }

def register (s : Setup) (call : RegisterCall) : Except SetupError Setup :=
  if s.closed then .error .stackClosed
  else if s.helloBytes.isSome then .error .registrationClosed
  else if hprotocols : call.protocols = [] then .error .noProtocols
  else if call.wake.getD 0 = 0 then .error .noWakeCapacity
  else if hserved : call.code = Control.controlFamily ∨ call.code.toNat = reservedFamily then
    .error (.cannotRegister call.code)
  else if hroom : s.families.length = maxFamilies then .error .tooManyFamilies
  else if hnew : s.families.any (·.code == call.code) then .error (.alreadyRegistered call.code)
  else
    match hspecs : checkProtocols none call.protocols with
    | .error e => .error e
    | .ok () =>
      let spec : FamilySpec :=
        { protocols := call.protocols, nonempty := hprotocols
          ascending := (checkProtocols_spec hspecs).2.1, limits := (checkProtocols_spec hspecs).2.2 }
      .ok (s.append ⟨call.code, spec⟩ hserved hroom hnew)

/-- A call that fails leaves the stack unchanged. -/
def registerCall (s : Setup) (call : RegisterCall) : Setup :=
  match s.register call with
  | .ok s' => s'
  | .error _ => s

/-- The registration after a sequence of calls on a new stack. -/
def registerAll (calls : List RegisterCall) : Setup := calls.foldl registerCall {}

def localFamilies (s : Setup) : List UInt32 := s.codes.insertionSort (· ≤ ·)

/-- `Start`, up to the accept loop; `record` is the configured one, encoded. -/
def start (codec : HelloCodec) (s : Setup) (record : Option Bytes) : Except SetupError Setup :=
  if s.closed then .error .stackClosed
  else if s.helloBytes.isSome then .error .alreadyStarted
  else
    match Control.helloBytes codec s.localFamilies (record.getD []) with
    | .error e => .error (.hello e)
    | .ok bytes => .ok { s with helloBytes := some bytes }

end Setup

/-- `Family.sharedWith`. -/
def RegisteredFamily.sharedWith (f : RegisteredFamily) (families : List UInt32) : Bool :=
  (binarySearch families f.code).2

/-- The codes of the families that a stack shares with a peer that announced `hello`. -/
def Setup.sharedCodes (s : Setup) (hello : PeerHello) : List UInt32 :=
  (s.families.filter (·.sharedWith hello.families)).map (·.code)

namespace Setup

/-! ## The announced list -/

variable (s : Setup)

theorem registerCall_open (call : RegisterCall) :
    (s.registerCall call).closed = s.closed ∧ (s.registerCall call).helloBytes = s.helloBytes := by
  unfold registerCall
  split
  · rename_i h
    unfold register at h
    repeat' split at h
    all_goals cases h
    exact ⟨rfl, rfl⟩
  · exact ⟨rfl, rfl⟩

theorem registerAll_open (calls : List RegisterCall) :
    (registerAll calls).closed = false ∧ (registerAll calls).helloBytes = none := by
  refine List.foldlRecOn calls registerCall (motive := fun s : Setup => s.closed = false ∧ s.helloBytes = none)
    ⟨rfl, rfl⟩ ?_
  intro s hs call _
  obtain ⟨hclosed, hhello⟩ := s.registerCall_open call
  rwa [hclosed, hhello]

/-- `Start` fixes the Hello. -/
theorem start_eq {codec : HelloCodec} {calls : List RegisterCall} {record bytes : Bytes}
    (h : Control.helloBytes codec (registerAll calls).localFamilies record = .ok bytes) :
    (registerAll calls).start codec (some record) = .ok { registerAll calls with helloBytes := some bytes } := by
  obtain ⟨hclosed, hhello⟩ := registerAll_open calls
  simp [start, hclosed, hhello, h]

theorem mem_localFamilies (code : UInt32) : code ∈ s.localFamilies ↔ code ∈ s.codes :=
  mem_insertionSort _

theorem announceable_localFamilies : Announceable s.localFamilies where
  atMost := by
    rw [localFamilies, length_insertionSort, codes, length_map]
    exact s.atMost
  ascending := by
    have hsorted : s.localFamilies.Pairwise (· ≤ ·) := pairwise_insertionSort _ _
    have hnodup : s.localFamilies.Nodup := (perm_insertionSort _ s.codes).nodup_iff.mpr s.distinct
    refine (hsorted.and hnodup).imp ?_
    intro a b hab
    exact lt_of_le_of_ne hab.1 hab.2
  served := by
    intro code hcode
    obtain ⟨f, hf, rfl⟩ := mem_map.mp ((s.mem_localFamilies code).mp hcode)
    exact s.served f hf

/-- A family finds itself in another stack's announced list exactly when that stack registered its code. -/
theorem sharedWith_localFamilies (f : RegisteredFamily) : f.sharedWith s.localFamilies = true ↔ f.code ∈ s.codes := by
  rw [RegisteredFamily.sharedWith, binarySearch_found s.announceable_localFamilies.ascending]
  exact s.mem_localFamilies f.code

theorem mem_sharedCodes (t : Setup) (record : Bytes) (code : UInt32) :
    code ∈ s.sharedCodes ⟨t.localFamilies, record⟩ ↔ code ∈ s.codes ∧ code ∈ t.codes := by
  simp only [sharedCodes, codes, mem_map, mem_filter, sharedWith_localFamilies]
  constructor
  · rintro ⟨f, ⟨hf, hshared⟩, rfl⟩
    exact ⟨⟨f, hf, rfl⟩, hshared⟩
  · rintro ⟨⟨f, hf, rfl⟩, hshared⟩
    exact ⟨f, ⟨hf, hshared⟩, rfl⟩

/-- The supervisor's model of `sharedWith`, on the view that a Hello gives, is the binary search. -/
theorem sharedWith_view (t : Setup) (v : View) (hv : v.families = t.localFamilies.map UInt32.toNat)
    (f : RegisteredFamily) : v.sharedWith f.code.toNat = f.sharedWith t.localFamilies := by
  rw [Bool.eq_iff_iff, sharedWith_localFamilies, View.sharedWith, contains_iff_mem, hv, ← mem_localFamilies]
  constructor
  · intro h
    obtain ⟨code, hcode, heq⟩ := mem_map.mp h
    rwa [← UInt32.toNat_inj.mp heq]
  · exact mem_map_of_mem

end Setup

/-- **Two stacks agree on what they share.**  Whatever was registered on each, in any order, both Hellos
can be sent; each arrives as the registered codes in strictly ascending order with the record, nothing
behind it read; and what each side finds shared is what both registered. -/
theorem hello_exchange {codec : HelloCodec} (hround : codec.RoundTrips) (hcompact : codec.Compact)
    (calls₁ calls₂ : List RegisterCall) {record₁ record₂ : Bytes} (h₁ : record₁.length ≤ 300)
    (h₂ : record₂.length ≤ 300) (suffix₁ suffix₂ : Bytes) :
    let s₁ := Setup.registerAll calls₁
    let s₂ := Setup.registerAll calls₂
    ∃ bytes₁ bytes₂ hello₁ hello₂,
      (helloBytes codec s₁.localFamilies record₁ = .ok bytes₁ ∧
        helloBytes codec s₂.localFamilies record₂ = .ok bytes₂) ∧
      (s₁.start codec (some record₁) = .ok { s₁ with helloBytes := some bytes₁ } ∧
        s₂.start codec (some record₂) = .ok { s₂ with helloBytes := some bytes₂ }) ∧
      (readHello codec (bytes₁ ++ suffix₁) = (.ok hello₁, suffix₁) ∧
        readHello codec (bytes₂ ++ suffix₂) = (.ok hello₂, suffix₂)) ∧
      (hello₁.families.Pairwise (· < ·) ∧ hello₂.families.Pairwise (· < ·)) ∧
      (∀ code, (code ∈ hello₁.families ↔ code ∈ s₁.codes) ∧ (code ∈ hello₂.families ↔ code ∈ s₂.codes)) ∧
      (hello₁.record = record₁ ∧ hello₂.record = record₂) ∧
      ∀ code, (code ∈ s₁.sharedCodes hello₂ ↔ code ∈ s₁.codes ∧ code ∈ s₂.codes) ∧
        (code ∈ s₂.sharedCodes hello₁ ↔ code ∈ s₁.codes ∧ code ∈ s₂.codes) := by
  intro s₁ s₂
  have hfam₁ := s₁.announceable_localFamilies
  have hfam₂ := s₂.announceable_localFamilies
  obtain ⟨bytes₁, hbytes₁, hread₁⟩ := readHello_helloBytes hround hcompact hfam₁ h₁ suffix₁
  obtain ⟨bytes₂, hbytes₂, hread₂⟩ := readHello_helloBytes hround hcompact hfam₂ h₂ suffix₂
  refine ⟨bytes₁, bytes₂, _, _, ⟨hbytes₁, hbytes₂⟩, ⟨Setup.start_eq hbytes₁, Setup.start_eq hbytes₂⟩,
    ⟨hread₁, hread₂⟩, ⟨hfam₁.ascending, hfam₂.ascending⟩, ?_, ⟨rfl, rfl⟩, ?_⟩
  · intro code
    exact ⟨s₁.mem_localFamilies code, s₂.mem_localFamilies code⟩
  intro code
  refine ⟨s₁.mem_sharedCodes s₂ record₂ code, ?_⟩
  rw [and_comm]
  exact s₂.mem_sharedCodes s₁ record₁ code

/-- Two stacks with family 3 in common, registered second on both. -/
theorem hello_exchange_common :
    let family (code : UInt32) : RegisterCall := ⟨code, [⟨0, 1⟩], some 1⟩
    let s₁ := Setup.registerAll [family 7, family 3]
    let s₂ := Setup.registerAll [family 9, family 3]
    ∃ bytes hello, helloBytes Control.inOrder s₁.localFamilies [] = .ok bytes ∧
      Control.readHello Control.inOrder (bytes ++ [1]) = (.ok hello, [1]) ∧
      3 ∈ s₂.sharedCodes hello ∧ 7 ∉ s₂.sharedCodes hello ∧ 9 ∉ s₂.sharedCodes hello := by
  intro family s₁ s₂
  have hcodes₁ : s₁.codes = [7, 3] := by decide
  have hcodes₂ : s₂.codes = [9, 3] := by decide
  obtain ⟨bytes, _, hello, _, ⟨hbytes, _⟩, _, ⟨hread, _⟩, _, _, _, hshared⟩ :=
    hello_exchange Control.roundTrips_inOrder Control.compact_inOrder [family 7, family 3] [family 9, family 3]
      (by decide : [].length ≤ 300) (by decide : [].length ≤ 300) [1] []
  refine ⟨bytes, hello, hbytes, hread, ?_, ?_, ?_⟩
  · exact (hshared 3).2.mpr (by simp [hcodes₁, hcodes₂, s₁, s₂])
  · intro h
    have hmem := ((hshared 7).2.mp h).2
    exact absurd (hcodes₂ ▸ hmem) (by decide)
  · intro h
    have hmem := ((hshared 9).2.mp h).1
    exact absurd (hcodes₁ ▸ hmem) (by decide)

end EthP2P.Stack
