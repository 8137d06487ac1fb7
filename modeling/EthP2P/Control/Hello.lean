/-
# EthP2P.Control.Hello — the Hello that opens a view (`control/control.go`)

A stack announces its families in the first frame of its control stream.  `helloBytes` writes header and
frame at once; `readHello` takes them back and checks the list.  The protobuf library enters as a
`HelloCodec`; its round trip and the size of what it writes are assumptions (`RoundTrips`, `Compact`),
which `inOrder` meets.
-/
import EthP2P.Lib.GoInt
import EthP2P.Wire.Frame

namespace EthP2P.Control

open Lib Wire List

/-- The control protocol's family, which no Hello announces. -/
def controlFamily : UInt32 := 0

def controlSelector : Selector := ⟨controlFamily, 0⟩

/-- The families of one Hello. -/
def maxFamilies : Nat := 1024

/-- The payload limit of a control frame. -/
def maxControlFrame : Nat := 16 <<< 10

def helloFrame : UInt64 := 0

inductive FamiliesError where
  | maximum
  | neverAnnounced (family : UInt32)
  | notAscending
  deriving DecidableEq, Repr

inductive ControlError where
  | read (e : ReadError)
  | notControlStream
  | unexpectedControlFrame
  /-- `proto.Unmarshal` failed. -/
  | malformed
  | unknownControlField
  | invalidFamilies (e : FamiliesError)
  deriving DecidableEq, Repr

/-- The loop of `ValidateFamilies`, after a family `previous`. -/
def validateFrom : Option UInt32 → List UInt32 → Except FamiliesError Unit
  | _, [] => .ok ()
  | previous, family :: rest =>
    if family = controlFamily ∨ family.toNat = reservedFamily then .error (.neverAnnounced family)
    else if previous.any (fun p => decide (family ≤ p)) then .error .notAscending
    else validateFrom (some family) rest

def validateFamilies (families : List UInt32) : Except FamiliesError Unit :=
  if families.length > maxFamilies then .error .maximum else validateFrom none families

/-! ## The message -/

/-- The protobuf message `Hello`. -/
structure Hello where
  families : List UInt32
  record : Bytes
  deriving DecidableEq, Repr

/-- `proto.Marshal` and `proto.Unmarshal` of a `Hello`, `none` for their errors; the latter also returns the fields it
does not know. -/
structure HelloCodec where
  marshal : Hello → Option Bytes
  unmarshal : Bytes → Option (Hello × Bytes)

/-- What was marshalled is parsed, up to protobuf's limit of 2 GiB, with no unknown field in it. -/
def HelloCodec.RoundTrips (codec : HelloCodec) : Prop :=
  ∀ msg raw, codec.marshal msg = some raw → raw.length < 2 ^ 31 → codec.unmarshal raw = some (msg, [])

/-- A `Hello` below that limit is marshalled, with five bytes for a family and six in front of each field. -/
def HelloCodec.Compact (codec : HelloCodec) : Prop :=
  ∀ msg, 5 * msg.families.length + msg.record.length < 2 ^ 31 →
    ∃ raw, codec.marshal msg = some raw ∧ raw.length ≤ 5 * msg.families.length + msg.record.length + 12

/-- A peer's decoded Hello. -/
structure PeerHello where
  families : List UInt32
  record : Bytes
  deriving DecidableEq, Repr

inductive HelloError where
  | marshal
  | frameTooLarge
  deriving DecidableEq, Repr

section
variable (codec : HelloCodec)

def helloBytes (families : List UInt32) (record : Bytes) : Except HelloError Bytes :=
  match codec.marshal { families := families, record := record } with
  | none => .error .marshal
  | some raw =>
    if raw.length > maxControlFrame then .error .frameTooLarge
    else .ok (appendFrame (appendSelector [] controlSelector) helloFrame raw)

/-- One frame of type `want`, and what follows it. -/
def readControlFrame (input : Bytes) (want : UInt64) : Except ControlError Hello × Bytes :=
  match readFrame input maxControlFrame with
  | (.error e, rest) => (.error (.read e), rest)
  | (.ok (typ, raw), rest) =>
    if typ ≠ want then (.error .unexpectedControlFrame, rest)
    else
      match codec.unmarshal raw with
      | none => (.error .malformed, rest)
      | some (message, unknown) =>
        if unknown.length ≠ 0 then (.error .unknownControlField, rest) else (.ok message, rest)

def readHello (input : Bytes) : Except ControlError PeerHello × Bytes :=
  match readSelector input with
  | (.error e, rest) => (.error (.read e), rest)
  | (.ok selector, rest) =>
    if selector ≠ controlSelector then (.error .notControlStream, rest)
    else
      match readControlFrame codec rest helloFrame with
      | (.error e, rest) => (.error e, rest)
      | (.ok msg, rest) =>
        match validateFamilies msg.families with
        | .error e => (.error (.invalidFamilies e), rest)
        | .ok () => (.ok { families := msg.families, record := msg.record }, rest)

end

/-! ## Lists that may be announced -/

/-- What a Hello's family list has to be. -/
structure Announceable (families : List UInt32) : Prop where
  atMost : families.length ≤ maxFamilies
  ascending : families.Pairwise (· < ·)
  served : ∀ family ∈ families, family ≠ controlFamily ∧ family.toNat ≠ reservedFamily

variable {families : List UInt32} {content : Bytes} {number : Nat}

theorem validateFrom_ok (hasc : families.Pairwise (· < ·))
    (hserved : ∀ family ∈ families, family ≠ controlFamily ∧ family.toNat ≠ reservedFamily)
    {previous : Option UInt32} (hprev : ∀ p ∈ previous, ∀ family ∈ families, p < family) :
    validateFrom previous families = .ok () := by
  induction families generalizing previous with
  | nil => rfl
  | cons family rest ih =>
    obtain ⟨hhead, htail⟩ := pairwise_cons.mp hasc
    have hfamily := hserved family mem_cons_self
    have hbelow : previous.any (fun p => decide (family ≤ p)) = false := by
      rw [Option.any_eq_false]
      intro p hp
      exact decide_eq_false (not_le.mpr (hprev p hp family mem_cons_self))
    simp only [validateFrom]
    rw [if_neg (by simp [hfamily]), hbelow, if_neg Bool.false_ne_true]
    apply ih htail
    · intro f hf
      exact hserved f (mem_cons_of_mem _ hf)
    intro p hp f hf
    cases hp
    exact hhead f hf

/-- Strictly ascending families pass. -/
theorem Announceable.validateFamilies_ok (h : Announceable families) : validateFamilies families = .ok () := by
  have hlen := h.atMost
  rw [validateFamilies, if_neg (by omega)]
  exact validateFrom_ok h.ascending h.served (by simp)

/-! ## The exchange -/

theorem readSelector_control (rest : Bytes) :
    readSelector (appendSelector [] controlSelector ++ rest) = (.ok controlSelector, rest) := by
  have hbytes : appendSelector [] controlSelector = [0, 0] := by decide
  have hone : parseSelector [0] = .ok none := by decide
  have htwo : parseSelector [0, 0] = .ok (some (controlSelector, 2)) := by decide
  rw [hbytes]
  simp only [readSelector, maxHeaderLen, readSelectorFrom, cons_append, nil_append, hone, htwo]

/-- **A Hello arrives as it was announced**, and what follows it on the stream is not touched. -/
theorem readHello_helloBytes {codec : HelloCodec} (hround : codec.RoundTrips) (hcompact : codec.Compact)
    (hfam : Announceable families) {record : Bytes} (hrec : record.length ≤ 300) (suffix : Bytes) :
    ∃ bytes, helloBytes codec families record = .ok bytes ∧
      readHello codec (bytes ++ suffix) = (.ok ⟨families, record⟩, suffix) := by
  -- the longest list, each code in five bytes, and a record of 300 bytes fit a control frame three times
  have hlen : 5 * families.length + record.length ≤ 5420 := by
    have hmax : families.length ≤ 1024 := hfam.atMost
    omega
  obtain ⟨raw, hraw, hsize⟩ := hcompact ⟨families, record⟩ (by dsimp only; omega)
  have hlimit : raw.length ≤ maxControlFrame := hsize.trans (le_trans (Nat.add_le_add_right hlen 12) (by decide))
  refine ⟨appendFrame (appendSelector [] controlSelector) helloFrame raw, ?_, ?_⟩
  · simp only [helloBytes, hraw, if_neg (not_lt.mpr hlimit)]
  have hsplit : appendFrame (appendSelector [] controlSelector) helloFrame raw ++ suffix
      = appendSelector [] controlSelector ++ (appendFrame [] helloFrame raw ++ suffix) := by
    simp [appendFrame, appendFrameHead]
  have hctl : readControlFrame codec (appendFrame [] helloFrame raw ++ suffix) helloFrame
      = (.ok ⟨families, record⟩, suffix) := by
    have hmsg := hround ⟨families, record⟩ raw hraw (lt_of_le_of_lt hlimit (by decide))
    simp [readControlFrame, readFrame_appendFrame helloFrame raw suffix hlimit (by decide), hmsg]
  rw [hsplit]
  simp only [readHello, readSelector_control, hctl, hfam.validateFamilies_ok]
  rw [if_neg (by simp)]

/-! ## A codec

The fields in ascending order, each at most once. -/

/-- A length-delimited field of the protobuf wire format, absent where it has its default. -/
def marshalField (number : Nat) (content : Bytes) : Bytes :=
  if content = [] then [] else varint (number * 8 + 2) ++ varint content.length ++ content

/-- The families are packed into one field. -/
def marshal (msg : Hello) : Bytes :=
  marshalField 1 (msg.families.flatMap fun family => varint family.toNat) ++ marshalField 2 msg.record

/-- A length-delimited field with this number, if the input begins with one. -/
def takeField (number : Nat) (input : Bytes) : Bytes × Bytes :=
  match input with
  | [] => ([], [])
  | tag :: rest =>
    if tag.toNat = number * 8 + 2 then
      match readVarint rest with
      | (.ok length, rest) => (rest.take length, rest.drop length)
      | (.error _, _) => ([], input)
    else ([], input)

/-- The varints of a packed field. -/
def unpack : Nat → Bytes → Option (List UInt32)
  | _, [] => some []
  | 0, _ :: _ => none
  | fuel + 1, packed =>
    match readVarint packed with
    | (.ok value, rest) => (unpack fuel rest).map (UInt32.ofNat value :: ·)
    | (.error _, _) => none

def unmarshalInOrder (raw : Bytes) : Option (Hello × Bytes) :=
  let (packed, rest) := takeField 1 raw
  let (record, unknown) := takeField 2 rest
  (unpack packed.length packed).map fun families => (⟨families, record⟩, unknown)

def inOrder : HelloCodec := ⟨fun msg => some (marshal msg), unmarshalInOrder⟩

theorem varint_small {v : Nat} (h : v < 0x80) : varint v = [UInt8.ofNat v] := by
  rw [varint, varintFuel, if_pos h]

theorem marshalField_cons (hnumber : number < 15) (h : content ≠ []) :
    marshalField number content = UInt8.ofNat (number * 8 + 2) :: (varint content.length ++ content) := by
  rw [marshalField, if_neg h, varint_small (by omega)]
  simp

theorem toNat_tag (hnumber : number < 15) : (UInt8.ofNat (number * 8 + 2)).toNat = number * 8 + 2 := by
  rw [UInt8.toNat_ofNat']
  omega

/-- A field is taken from in front of fields with greater numbers. -/
theorem takeField_marshalField (hnumber : number < 15) {rest : Bytes}
    (hlen : content.length < 2 ^ 64) (hrest : ∀ tag ∈ rest.head?, tag.toNat ≠ number * 8 + 2) :
    takeField number (marshalField number content ++ rest) = (content, rest) := by
  by_cases hempty : content = []
  · subst hempty
    cases rest with
    | nil => rfl
    | cons tag rest =>
      have htag := hrest tag rfl
      simp [marshalField, takeField, htag]
  · rw [marshalField_cons hnumber hempty, cons_append, append_assoc]
    simp only [takeField, toNat_tag hnumber, if_true, readVarint_varint hlen]
    simp

/-- The packed families read back. -/
theorem unpack_packed (families : List UInt32) {fuel : Nat} (hfuel : families.length ≤ fuel) :
    unpack fuel (families.flatMap fun family => varint family.toNat) = some families := by
  induction families generalizing fuel with
  | nil => cases fuel <;> rfl
  | cons family rest ih =>
    rw [length_cons] at hfuel
    obtain ⟨fuel, rfl⟩ : ∃ n, fuel = n + 1 := ⟨fuel - 1, by omega⟩
    have hread : readVarint (varint family.toNat ++ rest.flatMap fun family => varint family.toNat)
        = (.ok family.toNat, rest.flatMap fun family => varint family.toNat) :=
      readVarint_varint (lt_trans family.toNat_lt (by decide)) _
    have hne : varint family.toNat ≠ [] := by
      unfold varint varintFuel
      split <;> simp
    obtain ⟨b, bytes, hb⟩ := exists_cons_of_ne_nil hne
    rw [flatMap_cons]
    rw [hb, cons_append] at hread ⊢
    simp only [unpack, hread, ih (by omega : rest.length ≤ fuel), Option.map_some, UInt32.ofNat_toNat]

theorem length_le_packed (families : List UInt32) :
    families.length ≤ (families.flatMap fun family => varint family.toNat).length := by
  induction families with
  | nil => simp
  | cons family rest ih =>
    have hpos : 0 < (varint family.toNat).length := by
      unfold varint varintFuel
      split <;> simp
    rw [flatMap_cons, length_append, length_cons]
    omega

theorem length_le_marshalField (number : Nat) (content : Bytes) :
    content.length ≤ (marshalField number content).length := by
  unfold marshalField
  split
  · rename_i h
    simp [h]
  · simp only [length_append]
    omega

theorem length_marshalField_le (hnumber : number < 15)
    (h : content.length < 2 ^ 31) : (marshalField number content).length ≤ content.length + 6 := by
  unfold marshalField
  split
  · simp
  have htag : (varint (number * 8 + 2)).length ≤ 1 :=
    length_varint_le (k := 0) (by norm_num; omega)
  have hlen : (varint content.length).length ≤ 5 := length_varint_le (k := 4) (h.trans (by decide))
  simp only [length_append]
  omega

theorem length_packed_le (families : List UInt32) :
    (families.flatMap fun family => varint family.toNat).length ≤ 5 * families.length := by
  induction families with
  | nil => simp
  | cons family rest ih =>
    have hfive : (varint family.toNat).length ≤ 5 :=
      length_varint_le (k := 4) (lt_trans family.toNat_lt (by decide))
    rw [flatMap_cons, length_append, length_cons]
    omega

theorem compact_inOrder : inOrder.Compact := by
  intro msg hsize
  have hpacked := length_packed_le msg.families
  have hfirst := length_marshalField_le (by decide : 1 < 15) (by omega :
    (msg.families.flatMap fun family => varint family.toNat).length < 2 ^ 31)
  have hsecond := length_marshalField_le (by decide : 2 < 15) (by omega : msg.record.length < 2 ^ 31)
  refine ⟨_, rfl, ?_⟩
  rw [marshal, length_append]
  omega

theorem roundTrips_inOrder : inOrder.RoundTrips := by
  rintro msg _ ⟨⟩ hsize
  have hfirst := length_le_marshalField 1 (msg.families.flatMap fun family => varint family.toNat)
  have hsecond := length_le_marshalField 2 msg.record
  rw [marshal, length_append] at hsize
  have hfamilies := length_le_packed msg.families
  have hunpack := unpack_packed msg.families hfamilies
  have hrecord : takeField 2 (marshalField 2 msg.record) = (msg.record, []) := by
    have hlen : msg.record.length < 2 ^ 64 := by omega
    simpa using takeField_marshalField (by decide : 2 < 15) hlen (by simp : ∀ tag ∈ [].head?, _)
  have htag : ∀ tag ∈ (marshalField 2 msg.record).head?, tag.toNat ≠ 1 * 8 + 2 := by
    intro tag hmem
    by_cases hempty : msg.record = []
    · simp [marshalField, hempty] at hmem
    rw [marshalField_cons (by decide) hempty, head?_cons, Option.mem_some_iff] at hmem
    subst hmem
    decide
  have hpacked := takeField_marshalField (by decide : 1 < 15) (lt_of_le_of_lt hfirst (by omega)) htag
  simp only [inOrder, unmarshalInOrder, marshal, hpacked, hrecord, hunpack, Option.map_some]

end EthP2P.Control
